import OsLab.Mkfs.Build

/-!
# The calls of mkfs

What `main` does between zeroing the image and fixing the size of the root directory
is a list of calls of `ialloc` and `iappend` that depends on the input files only
(`main_eq`).  The files an image holds are computed from the calls alone.

## Main definitions

* `Call`, `Call.run`, `calls` — the calls of `main`.
* `Call.apply`, `Call.Fine` — the files after a call, and the calls for which that is right.
* `rootEntries` — the root directory.
* `Built.runs`, `runs_isSome` — a whole run.
-/

namespace OsLab.Mkfs

inductive Call
  | ialloc (type : UInt16)
  | iappend (inum : ℕ) (p : List UInt8)

namespace Call

def run (s : State) : Call → Option State
  | .ialloc type => (Mkfs.ialloc s type).map Prod.snd
  | .iappend inum p => Mkfs.iappend s inum p

/-- The inode a call is for. -/
def inum (s : State) : Call → ℕ
  | .ialloc _ => s.freeinode
  | .iappend inum _ => inum

/-- The files after a call. -/
def apply (files : List (List UInt8)) : Call → List (List UInt8)
  | .ialloc _ => files ++ [[]]
  | .iappend inum p => files.modify (inum - 1) (· ++ p)

/-- The calls within the limits of the inode area, on inodes that exist. -/
def Fine (files : List (List UInt8)) : Call → Prop
  | .ialloc type => files.length + 1 ≤ nInodes ∧
      type = if files = [] then inodeDirectory else inodeRegular
  | .iappend inum _ => 1 ≤ inum ∧ inum ≤ files.length

end Call

/-- The calls for the file that becomes inode `inum`. -/
def fileCalls (inum : ℕ) (f : InputFile) : List Call :=
  .ialloc inodeRegular :: .iappend rootInodeNo (DirEntry.make f.name inum).bytes ::
    f.chunks.map (.iappend inum)

/-- The calls for the files from inode `inum` on. -/
def callsFrom : ℕ → List InputFile → List Call
  | _, [] => []
  | inum, f :: fs => fileCalls inum f ++ callsFrom (inum + 1) fs

/-- The calls of `main`. -/
def calls (files : List InputFile) : List Call :=
  .ialloc inodeDirectory :: .iappend rootInodeNo (DirEntry.make dot rootInodeNo).bytes ::
    .iappend rootInodeNo (DirEntry.make dotDot rootInodeNo).bytes :: callsFrom 2 files

/-- The entries of the root directory, in the order they are appended. -/
def rootEntries (files : List InputFile) : List DirEntry :=
  DirEntry.make dot rootInodeNo :: DirEntry.make dotDot rootInodeNo ::
    (files.zipIdx 2).map fun p => DirEntry.make p.1.name p.2

/-- The root directory before its size is fixed. -/
def rootBytes (files : List InputFile) : List UInt8 := (rootEntries files).flatMap DirEntry.bytes

variable {s s' : State} {files files' : List (List UInt8)} {c : Call} {cs ds : List Call}

/-! ## The inode counter -/

theorem winode_freeinode {no : ℕ} {e : InodeEntry} (h : winode s no e = some s') :
    s'.freeinode = s.freeinode := by
  rw [winode, Option.bind_eq_bind, Option.bind_eq_some_iff] at h
  obtain ⟨buf, -, h⟩ := h
  cases h
  rfl

theorem appendBlock_freeinode {din din' : InodeEntry} {k x : ℕ}
    (h : appendBlock s din k = some (x, din', s')) : s'.freeinode = s.freeinode := by
  rw [appendBlock] at h
  split at h
  · split at h
    · cases h
      rfl
    · cases h
      rfl
  · rw [Option.bind_eq_bind, Option.bind_eq_some_iff] at h
    obtain ⟨buf, -, h⟩ := h
    by_cases hi : din.indirect = 0
    · simp only [if_pos hi] at h
      split at h
      · cases h
        rfl
      · cases h
        rfl
    · simp only [if_neg hi] at h
      split at h
      · cases h
        rfl
      · cases h
        rfl

theorem appendLoop_freeinode {fuel : ℕ} (s : State) (din : InodeEntry) (off : ℕ) (p : List UInt8)
    {din' : InodeEntry} {off' : ℕ} (h : appendLoop fuel s din off p = some (din', off', s')) :
    s'.freeinode = s.freeinode := by
  induction fuel generalizing s din off p with
  | zero =>
      rw [appendLoop] at h
      split at h
      · cases h
        rfl
      · cases h
  | succ fuel ih =>
      rw [appendLoop] at h
      split at h
      · cases h
        rfl
      · simp only at h
        split at h
        · rw [Option.bind_eq_bind, Option.bind_eq_some_iff] at h
          obtain ⟨⟨x, din₁, s₁⟩, hx, h⟩ := h
          rw [Option.bind_eq_bind, Option.bind_eq_some_iff] at h
          obtain ⟨buf, -, h⟩ := h
          have hloop := ih _ _ _ _ h
          rw [hloop]
          show s₁.freeinode = s.freeinode
          exact appendBlock_freeinode hx
        · cases h

theorem iappend_freeinode {no : ℕ} {p : List UInt8} (h : iappend s no p = some s') :
    s'.freeinode = s.freeinode := by
  rw [iappend, Option.bind_eq_bind, Option.bind_eq_some_iff] at h
  obtain ⟨din, -, h⟩ := h
  rw [Option.bind_eq_bind, Option.bind_eq_some_iff] at h
  obtain ⟨⟨din₁, off, s₁⟩, hl, h⟩ := h
  rw [winode_freeinode h]
  exact appendLoop_freeinode _ _ _ _ hl

theorem ialloc_freeinode {type : UInt16} {no : ℕ} (h : ialloc s type = some (no, s')) :
    no = s.freeinode ∧ s'.freeinode = s.freeinode + 1 := by
  rw [ialloc, Option.bind_eq_bind, Option.bind_eq_some_iff] at h
  obtain ⟨s₁, hw, h⟩ := h
  cases h
  exact ⟨rfl, winode_freeinode hw⟩

/-- The number of inodes that calls allocate. -/
theorem runs_freeinode (cs : List Call) (s : State) (h : runs Call.run s cs = some s') :
    s'.freeinode = s.freeinode + (cs.filter fun c => c matches .ialloc _).length := by
  induction cs generalizing s with
  | nil =>
      cases h
      rfl
  | cons c cs ih =>
      rw [runs_cons, Option.bind_eq_some_iff] at h
      obtain ⟨t, ht, h⟩ := h
      rw [ih t h]
      cases c with
      | ialloc type =>
          rw [Call.run, Option.map_eq_some_iff] at ht
          obtain ⟨⟨no, t⟩, ha, rfl⟩ := ht
          rw [(ialloc_freeinode ha).2, List.filter_cons_of_pos rfl, List.length_cons]
          omega
      | iappend inum p =>
          rw [iappend_freeinode ht, List.filter_cons_of_neg (by simp)]

private theorem allocs_callsFrom (n : ℕ) (fs : List InputFile) :
    ((callsFrom n fs).filter fun c => c matches .ialloc _).length = fs.length := by
  induction fs generalizing n with
  | nil => rfl
  | cons f fs ih =>
      have hchunks : (f.chunks.map (Call.iappend n)).filter (fun c => c matches .ialloc _) = [] := by
        rw [List.filter_eq_nil_iff]
        intro c hc
        obtain ⟨p, -, rfl⟩ := List.mem_map.mp hc
        simp
      rw [callsFrom, fileCalls, List.filter_append, List.length_append, ih,
        List.filter_cons_of_pos rfl, List.filter_cons_of_neg (by simp), hchunks, List.length_cons,
        List.length_cons, List.length_nil]
      omega

/-- The number of inodes of the image. -/
theorem freeinode_of_calls {files : List InputFile} (h : runs Call.run start (calls files) = some s) :
    s.freeinode = files.length + 2 := by
  have hstart : start.freeinode = 1 := rfl
  rw [runs_freeinode _ _ h, hstart, calls, List.filter_cons_of_pos rfl,
    List.filter_cons_of_neg (by simp), List.filter_cons_of_neg (by simp), List.length_cons,
    allocs_callsFrom]
  omega

/-! ## `main` makes the calls -/

private theorem appendAll_eq (s : State) (inum : ℕ) (ps : List (List UInt8)) :
    appendAll s inum ps = runs Call.run s (ps.map (.iappend inum)) := by
  induction ps generalizing s with
  | nil => rfl
  | cons p ps ih =>
      rw [appendAll, List.map_cons, runs_cons]
      cases hp : Call.run s (.iappend inum p) with
      | none =>
          have hp' : iappend s inum p = none := hp
          rw [hp', Option.bind_none, Option.bind_none]
      | some t =>
          have hp' : iappend s inum p = some t := hp
          rw [hp', Option.bind_some, Option.bind_some, ih]

private theorem addFile_eq (s : State) (f : InputFile) :
    addFile s f = runs Call.run s (fileCalls s.freeinode f) := by
  rw [addFile, fileCalls, runs_cons, Call.run]
  rcases ha : ialloc s inodeRegular with - | ⟨no, t⟩
  · rfl
  · rw [Option.map_some, Option.bind_some, Option.bind_eq_bind, Option.bind_some,
      (ialloc_freeinode ha).1, runs_cons, Call.run]
    apply Option.bind_congr
    intro t' _
    exact appendAll_eq ..

private theorem addFiles_eq (s : State) (fs : List InputFile) :
    addFiles s fs = runs Call.run s (callsFrom s.freeinode fs) := by
  induction fs generalizing s with
  | nil => rfl
  | cons f fs ih =>
      rw [addFiles, callsFrom, runs_append, addFile_eq]
      apply Option.bind_congr
      intro t ht
      rw [ih, runs_freeinode _ _ ht]
      have hone := allocs_callsFrom s.freeinode [f]
      rw [callsFrom, callsFrom, List.append_nil] at hone
      rw [hone]
      rfl

/-- **`main` is its calls**, then the last step. -/
theorem main_eq (files : List InputFile) :
    main files = (runs Call.run start (calls files)).bind finish := by
  rw [main, makeRoot, calls, runs_cons, Call.run]
  rcases ha : ialloc start inodeDirectory with - | ⟨no, s⟩
  · simp only [Option.bind_eq_bind, Option.bind_none, Option.map_none]
  · have hstart : start.freeinode = 1 := rfl
    obtain ⟨hno, hfree⟩ := ialloc_freeinode ha
    rw [hstart] at hno hfree
    have hroot : no = rootInodeNo := hno
    subst hroot
    simp only [Option.bind_eq_bind, Option.bind_some, Option.map_some, if_true, runs_cons, Call.run,
      Option.bind_assoc]
    apply Option.bind_congr
    intro s₁ h₁
    apply Option.bind_congr
    intro s₂ h₂
    rw [addFiles_eq, iappend_freeinode h₂, iappend_freeinode h₁, hfree]

/-! ## The files after the calls -/

/-- Every file of the first list is there in the second one, perhaps longer. -/
def Grows (files files' : List (List UInt8)) : Prop :=
  ∀ (i : ℕ) (f : List UInt8), files[i]? = some f →
    ∃ f', files'[i]? = some f' ∧ f.length ≤ f'.length

theorem Grows.refl (files : List (List UInt8)) : Grows files files :=
  fun _ f hf => ⟨f, hf, le_refl _⟩

theorem Grows.trans {files'' : List (List UInt8)} (h : Grows files files')
    (h' : Grows files' files'') : Grows files files'' := by
  intro i f hf
  obtain ⟨g, hg, hfg⟩ := h i f hf
  obtain ⟨k, hk, hgk⟩ := h' i g hg
  exact ⟨k, hk, le_trans hfg hgk⟩

theorem grows_apply (files : List (List UInt8)) (c : Call) : Grows files (c.apply files) := by
  intro i f hf
  have hlt := (List.getElem?_eq_some_iff.mp hf).1
  cases c with
  | ialloc type =>
      refine ⟨f, ?_, le_refl _⟩
      rw [Call.apply, List.getElem?_append_left hlt]
      exact hf
  | iappend inum p =>
      rw [Call.apply, List.getElem?_modify, hf]
      split
      · refine ⟨f ++ p, rfl, ?_⟩
        rw [List.length_append]
        exact Nat.le_add_right _ _
      · exact ⟨f, rfl, le_refl _⟩

theorem grows_foldl (cs : List Call) (files : List (List UInt8)) :
    Grows files (cs.foldl Call.apply files) := by
  induction cs generalizing files with
  | nil => exact Grows.refl files
  | cons c cs ih => exact (grows_apply files c).trans (ih _)

/-- The blocks the files need. -/
def cost (files : List (List UInt8)) : ℕ := (files.map fun f => total (blocksFor f.length)).sum

theorem Grows.cost_le (h : Grows files files') : cost files ≤ cost files' := by
  induction files generalizing files' with
  | nil => exact Nat.zero_le _
  | cons f files ih =>
      obtain ⟨f', hf', hle⟩ := h 0 f rfl
      cases files' with
      | nil => simp at hf'
      | cons g files' =>
          rw [List.getElem?_cons_zero, Option.some.injEq] at hf'
          subst hf'
          have hrest : cost files ≤ cost files' := by
            apply ih
            intro i k hk
            exact h (i + 1) k hk
          have hhead : total (blocksFor f.length) ≤ total (blocksFor g.length) := by
            apply total_mono
            simp only [blocksFor, blockSize_eq]
            omega
          simp only [cost, List.map_cons, List.sum_cons] at hrest ⊢
          omega

/-- All calls of a list are fine. -/
def AllFine : List (List UInt8) → List Call → Prop
  | _, [] => True
  | files, c :: cs => c.Fine files ∧ AllFine (c.apply files) cs

theorem AllFine.append (h : AllFine files cs) (h' : AllFine (cs.foldl Call.apply files) ds) :
    AllFine files (cs ++ ds) := by
  induction cs generalizing files with
  | nil => exact h'
  | cons c cs ih => exact ⟨h.1, ih h.2 h'⟩

/-- `iappend` on a file that exists. -/
private theorem apply_iappend {i : ℕ} {f : List UInt8} (p : List UInt8) (hf : files[i]? = some f) :
    (Call.iappend (i + 1) p).apply files = files.set i (f ++ p) := by
  have hlt := (List.getElem?_eq_some_iff.mp hf).1
  apply List.ext_getElem?
  intro j
  rw [Call.apply, Nat.add_sub_cancel, List.getElem?_modify, List.getElem?_set]
  by_cases h : i = j
  · subst h
    rw [hf, if_pos rfl, if_pos hlt]
    simp
  · rw [if_neg h]
    simp [h]

private theorem chunks_apply {i : ℕ} {f : List UInt8} (ps : List (List UInt8))
    (hf : files[i]? = some f) : AllFine files (ps.map (.iappend (i + 1))) ∧
      (ps.map (.iappend (i + 1))).foldl Call.apply files = files.set i (f ++ ps.flatten) := by
  induction ps generalizing files f with
  | nil =>
      refine ⟨trivial, ?_⟩
      obtain ⟨hlt, rfl⟩ := List.getElem?_eq_some_iff.mp hf
      rw [List.flatten_nil, List.append_nil, List.set_getElem_self]
      rfl
  | cons p ps ih =>
      have hlt := (List.getElem?_eq_some_iff.mp hf).1
      have hap := apply_iappend p hf
      have hf' : (files.set i (f ++ p))[i]? = some (f ++ p) := List.getElem?_set_self hlt
      obtain ⟨hfine, hfold⟩ := ih hf'
      rw [List.map_cons, List.foldl_cons, hap, hfold, List.set_set, List.flatten_cons,
        List.append_assoc]
      refine ⟨⟨⟨by omega, hlt⟩, ?_⟩, rfl⟩
      rw [hap]
      exact hfine

private theorem fileCalls_apply (root : List UInt8) (rest : List (List UInt8)) (f : InputFile)
    (hfew : rest.length + 2 ≤ nInodes) :
    AllFine (root :: rest) (fileCalls (rest.length + 2) f) ∧
      (fileCalls (rest.length + 2) f).foldl Call.apply (root :: rest) =
        (root ++ (DirEntry.make f.name (rest.length + 2)).bytes) :: (rest ++ [f.bytes]) := by
  generalize hde : (DirEntry.make f.name (rest.length + 2)).bytes = de
  have hlast : ((root ++ de) :: (rest ++ [[]]))[rest.length + 1]? = some [] := by
    rw [List.getElem?_cons_succ, List.getElem?_append_right (le_refl _), Nat.sub_self]
    rfl
  obtain ⟨hfine, hfold⟩ := chunks_apply f.chunks hlast
  have hset : ((root ++ de) :: (rest ++ [[]])).set (rest.length + 1) ([] ++ f.chunks.flatten) =
      (root ++ de) :: (rest ++ [f.bytes]) := by
    rw [List.set_cons_succ, List.set_append_right _ _ (le_refl _), Nat.sub_self]
    rfl
  rw [hset] at hfold
  rw [fileCalls, hde]
  refine ⟨⟨⟨hfew, rfl⟩, ⟨le_refl 1, Nat.le_add_left _ _⟩, hfine⟩, hfold⟩

private theorem callsFrom_apply (root : List UInt8) (rest : List (List UInt8)) (fs : List InputFile)
    (hfew : rest.length + 1 + fs.length ≤ nInodes) :
    AllFine (root :: rest) (callsFrom (rest.length + 2) fs) ∧
      (callsFrom (rest.length + 2) fs).foldl Call.apply (root :: rest) =
        (root ++ (fs.zipIdx (rest.length + 2)).flatMap fun p => (DirEntry.make p.1.name p.2).bytes) ::
          (rest ++ fs.map InputFile.bytes) := by
  induction fs generalizing root rest with
  | nil => simp [callsFrom, AllFine]
  | cons f fs ih =>
      rw [List.length_cons] at hfew
      obtain ⟨hfine, hfold⟩ := fileCalls_apply root rest f (by omega)
      have hlen : (rest ++ [f.bytes]).length + 2 = rest.length + 2 + 1 := by simp
      obtain ⟨hfine', hfold'⟩ := ih (root ++ (DirEntry.make f.name (rest.length + 2)).bytes)
        (rest ++ [f.bytes]) (by rw [List.length_append, List.length_singleton]; omega)
      rw [hlen] at hfine' hfold'
      rw [callsFrom]
      refine ⟨hfine.append (by rw [hfold]; exact hfine'), ?_⟩
      rw [List.foldl_append, hfold, hfold']
      simp

/-- **The files after the calls of `main`.** -/
theorem calls_apply (fs : List InputFile) (hfew : 1 + fs.length ≤ nInodes) :
    AllFine [] (calls fs) ∧
      (calls fs).foldl Call.apply [] = rootBytes fs :: fs.map InputFile.bytes := by
  obtain ⟨hfine, hfold⟩ := callsFrom_apply
    ((DirEntry.make dot rootInodeNo).bytes ++ (DirEntry.make dotDot rootInodeNo).bytes) [] fs (by rw [List.length_nil]; omega)
  refine ⟨⟨⟨by decide, rfl⟩, ⟨le_refl 1, le_refl 1⟩, ⟨le_refl 1, le_refl 1⟩, hfine⟩, ?_⟩
  have hroot : rootBytes fs = (DirEntry.make dot rootInodeNo).bytes ++
      (DirEntry.make dotDot rootInodeNo).bytes ++
        (fs.zipIdx 2).flatMap fun p => (DirEntry.make p.1.name p.2).bytes := by
    rw [rootBytes, rootEntries, List.flatMap_cons, List.flatMap_cons, List.flatMap_map,
      List.append_assoc]
  rw [hroot]
  exact hfold

/-! ## Runs of calls -/

/-- One call. -/
theorem Built.run (h : Built s files) (hfine : c.Fine files) (hr : c.run s = some s') :
    Built s' (c.apply files) ∧ Leaves s s' (c.inum s) := by
  cases c with
  | ialloc type =>
      obtain ⟨t, ha, hB, hL, -⟩ := h.ialloc hfine.1 hfine.2
      rw [Call.run, ha] at hr
      cases hr
      rw [Call.inum, h.inodes]
      exact ⟨hB, hL⟩
  | iappend inum p =>
      obtain ⟨h1, hle⟩ := hfine
      obtain ⟨i, rfl⟩ : ∃ i, inum = i + 1 := ⟨inum - 1, by omega⟩
      have hf : files[i]? = some _ := List.getElem?_eq_getElem hle
      rw [apply_iappend p hf]
      exact h.iappend hf hr

/-- **All calls.** -/
theorem Built.runs (h : Built s files) (hfine : AllFine files cs)
    (hr : runs Call.run s cs = some s') : Built s' (cs.foldl Call.apply files) := by
  induction cs generalizing s files with
  | nil =>
      cases hr
      exact h
  | cons c cs ih =>
      rw [runs_cons, Option.bind_eq_some_iff] at hr
      obtain ⟨t, ht, hr⟩ := hr
      exact ih (h.run hfine.1 ht).1 hfine.2 hr

theorem AllFine.left (h : AllFine files (cs ++ ds)) : AllFine files cs := by
  induction cs generalizing files with
  | nil => trivial
  | cons c cs ih => exact ⟨h.1, ih h.2⟩

theorem AllFine.right (h : AllFine files (cs ++ ds)) : AllFine (cs.foldl Call.apply files) ds := by
  induction cs generalizing files with
  | nil => exact h
  | cons c cs ih => exact ih h.2

/-- A call returns where the files it leads to have room. -/
theorem Built.run_isSome (h : Built s files) (hfine : c.Fine files)
    (hmax : ∀ f ∈ c.apply files, f.length ≤ inodeMaxBytes)
    (hcost : nmeta + cost (c.apply files) ≤ fsSize) : (c.run s).isSome := by
  cases c with
  | ialloc type =>
      obtain ⟨t, ha, -⟩ := h.ialloc hfine.1 hfine.2
      rw [Call.run, ha]
      rfl
  | iappend inum p =>
      obtain ⟨h1, hle⟩ := hfine
      obtain ⟨i, rfl⟩ : ∃ i, inum = i + 1 := ⟨inum - 1, by omega⟩
      have hf : files[i]? = some _ := List.getElem?_eq_getElem hle
      rw [apply_iappend p hf] at hmax hcost
      have hlen := hmax _ (List.mem_set hle _)
      rw [List.length_append] at hlen
      apply h.iappend_isSome hf hlen
      have hsum := sum_map_set (fun f => total (blocksFor f.length)) files i (b := files[i] ++ p) hf
      rw [List.length_append] at hsum
      rw [h.free]
      rw [cost] at hcost
      omega

/-- All calls return where the files have room at the end. -/
theorem runs_isSome (h : Built s files) (hfine : AllFine files cs)
    (hmax : ∀ f ∈ cs.foldl Call.apply files, f.length ≤ inodeMaxBytes)
    (hcost : nmeta + cost (cs.foldl Call.apply files) ≤ fsSize) :
    (OsLab.runs Call.run s cs).isSome := by
  induction cs generalizing s files with
  | nil => rfl
  | cons c cs ih =>
      have hgrows := grows_foldl cs (c.apply files)
      have hhead : (c.run s).isSome := by
        apply h.run_isSome hfine.1
        · intro f hf
          obtain ⟨i, hi⟩ := List.mem_iff_getElem?.mp hf
          obtain ⟨f', hf', hle⟩ := hgrows i f hi
          exact le_trans hle (hmax f' (List.mem_of_getElem? hf'))
        · exact le_trans (Nat.add_le_add_left hgrows.cost_le _) hcost
      obtain ⟨t, ht⟩ := Option.isSome_iff_exists.mp hhead
      rw [runs_cons, ht, Option.bind_some]
      exact ih (h.run hfine.1 ht).1 hfine.2 hmax hcost

end OsLab.Mkfs
