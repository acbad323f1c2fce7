import OsLab.Mkfs.Append
import Mathlib.Algebra.BigOperators.Group.List.Basic

/-!
# The image while mkfs builds it

The invariant of mkfs: inodes 1 to `files.length` are allocated and hold the files, each
block from `nmeta` to `freeblock` belongs to one of them, and the blocks before the
inode blocks are as they were written first.

It holds as long as at most `NINODES` inodes are allocated, which mkfs does not check.

## Main definitions

* `Built s files` — the invariant.
* `Leaves s s' no` — a call for inode `no` leaves the rest of the image alone.
* `Changes s s' no e` — what it does to the inode itself.
* `Built.ialloc`, `Built.iappend` — the two calls keep the invariant.
-/

namespace OsLab.Mkfs

/-! ## The layout -/

theorem toBlockNo_eq (no : ℕ) : sb.toBlockNo no = 65 + no / 8 := rfl

theorem nmeta_eq : nmeta = 92 := rfl

theorem fsSize_eq : fsSize = 1000 := rfl

theorem nInodes_eq : nInodes = 200 := rfl

theorem mem_inodeBlocks {b : ℕ} : b ∈ sb.inodeBlocks ↔ 65 ≤ b ∧ b ≤ 90 := by
  constructor
  · rintro ⟨no, hle, rfl⟩
    have hle' : no ≤ 200 := hle
    rw [toBlockNo_eq]
    omega
  · rintro ⟨h₁, h₂⟩
    refine ⟨8 * (b - 65), ?_, ?_⟩
    · show 8 * (b - 65) ≤ 200
      omega
    · rw [toBlockNo_eq]
      omega

theorem toBlockNo_mem {no : ℕ} (h : no ≤ nInodes) : sb.toBlockNo no ∈ sb.inodeBlocks :=
  ⟨no, h, rfl⟩

variable {s s' : State} {no : ℕ} {e : InodeEntry}

theorem rinode_eq (hsize : s.size = fsSize) (h : no ≤ nInodes) :
    rinode s no = some (sb.diskEntry s.img no) := by
  have hlt : sb.toBlockNo no < fsSize := by
    rw [toBlockNo_eq, fsSize_eq]
    rw [nInodes_eq] at h
    omega
  rw [rinode, rsect_of_lt hsize hlt]
  rfl

theorem winode_eq (hsize : s.size = fsSize) (h : no ≤ nInodes) :
    winode s no e = some { s with img := sb.putDiskEntry s.img no e } := by
  have hlt : sb.toBlockNo no < fsSize := by
    rw [toBlockNo_eq, fsSize_eq]
    rw [nInodes_eq] at h
    omega
  rw [winode, rsect_of_lt hsize hlt, Option.bind_eq_bind, Option.bind_some,
    wsect_of_lt hsize hlt]
  rfl

/-! ## The invariant -/

/-- The image holds the files `files`, as inodes 1 to `files.length`. -/
structure Built (s : State) (files : List (List UInt8)) : Prop where
  size : s.size = fsSize
  hi : s.freeblock ≤ fsSize
  zero : ∀ b, s.freeblock ≤ b → s.img b = Bytes.zero
  inodes : s.freeinode = files.length + 1
  few : files.length ≤ nInodes
  valid : ∀ no, no ∈ sb.validInodes s.img ↔ 1 ≤ no ∧ no ≤ files.length
  types : ∀ no ∈ sb.validInodes s.img,
    (sb.diskEntry s.img no).type = if no = rootInodeNo then inodeDirectory else inodeRegular
  dense : ∀ no ∈ sb.validInodes s.img, Dense s.img (sb.diskEntry s.img no)
  table : ∀ no ∈ sb.validInodes s.img, (sb.diskEntry s.img no).indirect ≠ 0 ↔
    inodeNumDirect < blocksFor (sb.diskEntry s.img no).numBytes.toNat
  inUse : InUse sb.inodeBlocks (sb.validInodes s.img) (sb.diskEntry s.img) s.img
  blocks : ∀ b, (∃ no ∈ sb.validInodes s.img, b ∈ blocks s.img (sb.diskEntry s.img no)) ↔
    nmeta ≤ b ∧ b < s.freeblock
  content : ∀ i f, files[i]? = some f → content s.img (sb.diskEntry s.img (i + 1)) = f
  fixed : ∀ b, b < nmeta → b ∉ sb.inodeBlocks → s.img b = start.img b
  free : s.freeblock = nmeta + (files.map fun f => total (blocksFor f.length)).sum

/-- A call for inode `no` left the super block, the log and the bitmap, the other inodes and their
blocks alone. -/
structure Leaves (s s' : State) (no : ℕ) : Prop where
  reserved : ∀ b, b < nmeta → b ∉ sb.inodeBlocks → s'.img b = s.img b
  entries : ∀ no', 1 ≤ no' → no' < s.freeinode → no' ≠ no →
    sb.diskEntry s'.img no' = sb.diskEntry s.img no'
  blocks : ∀ no', 1 ≤ no' → no' < s.freeinode → no' ≠ no →
    ∀ b ∈ blocks s.img (sb.diskEntry s.img no'), s'.img b = s.img b

variable {files : List (List UInt8)} {i : ℕ} {p : List UInt8}

namespace Built

theorem lo (h : Built s files) : nmeta ≤ s.freeblock := by
  rw [h.free]
  exact Nat.le_add_right _ _

theorem mem_valid (h : Built s files) (hi : i < files.length) :
    i + 1 ∈ sb.validInodes s.img := (h.valid _).mpr ⟨by omega, by omega⟩

theorem le_nInodes (h : Built s files) (hno : no ∈ sb.validInodes s.img) : no ≤ nInodes := by
  have := (h.valid no).mp hno
  have := h.few
  omega

theorem block_bounds (h : Built s files) (hno : no ∈ sb.validInodes s.img) {b : ℕ}
    (hb : b ∈ OsLab.blocks s.img (sb.diskEntry s.img no)) : nmeta ≤ b ∧ b < s.freeblock :=
  (h.blocks b).mp ⟨no, hno, hb⟩

theorem others_lt (h : Built s files) {b : ℕ} (hb : b ∈ sb.others s.img no) :
    b < s.freeblock := by
  rcases hb with hb | ⟨no', hno', -, hb⟩
  · have := mem_inodeBlocks.mp hb
    have := h.lo
    rw [nmeta_eq] at this
    omega
  · exact (h.block_bounds hno' hb).2

theorem room (h : Built s files) (hno : no ∈ sb.validInodes s.img) :
    Room (sb.others s.img no) s (sb.diskEntry s.img no) where
  size := h.size
  lo := h.lo
  hi := h.hi
  zero := h.zero
  others := fun _ hb => h.others_lt hb
  own := fun _ hb => (h.block_bounds hno hb).2
  apart := h.inUse no hno

theorem counted (h : Built s files) (hno : no ∈ sb.validInodes s.img) :
    Counted s.img (sb.diskEntry s.img no) (blocksFor (sb.diskEntry s.img no).numBytes.toNat) :=
  ⟨(h.dense no hno).2, h.table no hno⟩

theorem valid_of_lt (h : Built s files) (h1 : 1 ≤ no) (hlt : no < s.freeinode) :
    no ∈ sb.validInodes s.img := by
  rw [h.inodes] at hlt
  exact (h.valid no).mpr ⟨h1, by omega⟩

theorem numBytes (h : Built s files) {f : List UInt8} (hf : files[i]? = some f) :
    (sb.diskEntry s.img (i + 1)).numBytes.toNat = f.length := by
  rw [← length_content s.img, h.content i f hf]

end Built

theorem start_img_of_ne {b : ℕ} (h : b ≠ 1) : start.img b = Bytes.zero := by
  show Function.update (fun _ => Bytes.zero) 1 sbSector b = Bytes.zero
  rw [Function.update_of_ne h]

/-- The blank image. -/
theorem built_start : Built start [] := by
  have hentry : ∀ no, no ≤ sb.numInodes → (sb.diskEntry start.img no).type = inodeInvalid := by
    intro no hle
    have hle' : no ≤ 200 := hle
    have hblock : start.img (sb.toBlockNo no) = Bytes.zero := by
      apply start_img_of_ne
      rw [toBlockNo_eq]
      omega
    rw [SuperBlock.diskEntry, hblock]
    simp only [Bytes.entry, Bytes.word_zero]
    rfl
  have hvalid : sb.validInodes start.img = ∅ := by
    ext no
    simp only [Set.mem_empty_iff_false, iff_false]
    rintro ⟨-, hle, ht⟩
    exact ht (hentry no hle)
  refine ⟨rfl, by decide, ?_, rfl, by decide, ?_, ?_, ?_, ?_, ?_, ?_, ?_, fun _ _ _ => rfl, rfl⟩
  · intro b hb
    apply start_img_of_ne
    have : 92 ≤ b := hb
    omega
  · intro no
    rw [hvalid]
    simp only [Set.mem_empty_iff_false, false_iff, List.length_nil]
    omega
  · rw [hvalid]
    exact fun no hno => absurd hno (Set.notMem_empty no)
  · rw [hvalid]
    exact fun no hno => absurd hno (Set.notMem_empty no)
  · rw [hvalid]
    exact fun no hno => absurd hno (Set.notMem_empty no)
  · rw [hvalid]
    exact fun no hno => absurd hno (Set.notMem_empty no)
  · intro b
    rw [hvalid]
    have hfb : start.freeblock = nmeta := rfl
    rw [hfb]
    constructor
    · rintro ⟨no, hno, -⟩
      exact absurd hno (Set.notMem_empty no)
    · intro h
      omega
  · intro i f hf
    exact absurd hf (by simp)

/-! ## One inode changes -/

/-- Inode `no` gets the entry `e`; the blocks that are new in it were free. -/
structure Changes (s s' : State) (no : ℕ) (e : InodeEntry) : Prop where
  pos : 1 ≤ no
  le : no ≤ nInodes
  size : s'.size = fsSize
  hi : s'.freeblock ≤ fsSize
  mono : s.freeblock ≤ s'.freeblock
  entry : sb.diskEntry s'.img no = e
  entries : ∀ no', no' ≠ no → no' ≤ sb.numInodes →
    sb.diskEntry s'.img no' = sb.diskEntry s.img no'
  frame : ∀ b, b ≠ sb.toBlockNo no → b ∉ OsLab.blocks s'.img e → s'.img b = s.img b
  type : e.type = if no = rootInodeNo then inodeDirectory else inodeRegular
  dense : Dense s'.img e
  table : e.indirect ≠ 0 ↔ inodeNumDirect < blocksFor e.numBytes.toNat
  apart : Apart (sb.others s.img no) s'.img e
  blocks : ∀ b, b ∈ OsLab.blocks s'.img e ↔
    no ∈ sb.validInodes s.img ∧ b ∈ OsLab.blocks s.img (sb.diskEntry s.img no) ∨
      s.freeblock ≤ b ∧ b < s'.freeblock

namespace Changes

variable {no' : ℕ}

theorem valid_iff (hc : Changes s s' no e) (hne : no' ≠ no) :
    no' ∈ sb.validInodes s'.img ↔ no' ∈ sb.validInodes s.img := by
  constructor
  · rintro ⟨h1, hle, ht⟩
    rw [hc.entries no' hne hle] at ht
    exact ⟨h1, hle, ht⟩
  · rintro ⟨h1, hle, ht⟩
    refine ⟨h1, hle, ?_⟩
    rw [hc.entries no' hne hle]
    exact ht

theorem self_valid (hc : Changes s s' no e) : no ∈ sb.validInodes s'.img := by
  refine ⟨hc.pos, hc.le, ?_⟩
  rw [hc.entry, hc.type]
  split <;> decide

/-- What holds of the new entry and of each of the others. -/
theorem all_valid (hc : Changes s s' no e) (P : ℕ → InodeEntry → Prop) (he : P no e)
    (h : ∀ no' ∈ sb.validInodes s.img, no' ≠ no → P no' (sb.diskEntry s.img no')) :
    ∀ no' ∈ sb.validInodes s'.img, P no' (sb.diskEntry s'.img no') := by
  intro no' hmem
  by_cases hne : no' = no
  · rw [hne, hc.entry]
    exact he
  · rw [hc.entries no' hne hmem.2.1]
    exact h no' ((hc.valid_iff hne).mp hmem) hne

theorem others (hc : Changes s s' no e) {a : ℕ} (ha : a ∈ sb.others s.img no)
    (hne : a ≠ sb.toBlockNo no) : s'.img a = s.img a :=
  hc.frame a hne fun hb => hc.apart.off a hb ha

/-- The blocks of the other inodes are as before. -/
theorem unchanged (hc : Changes s s' no e) (h : Built s files)
    (hmem : no' ∈ sb.validInodes s.img) (hne : no' ≠ no) :
    ∀ b ∈ OsLab.blocks s.img (sb.diskEntry s.img no'), s'.img b = s.img b :=
  h.inUse.unchanged (toBlockNo_mem hc.le) (fun _ => hc.others) hmem hne

theorem blocks_eq (hc : Changes s s' no e) (h : Built s files)
    (hmem : no' ∈ sb.validInodes s.img) (hne : no' ≠ no) :
    OsLab.blocks s'.img (sb.diskEntry s'.img no') =
      OsLab.blocks s.img (sb.diskEntry s.img no') := by
  rw [hc.entries no' hne hmem.2.1]
  exact blocks_congr fun hi => hc.unchanged h hmem hne _ (indirect_mem_blocks hi)

/-- The blocks of the inode, before the first block that is free now. -/
theorem block_bounds (hc : Changes s s' no e) (h : Built s files) {b : ℕ}
    (hb : b ∈ OsLab.blocks s'.img e) : nmeta ≤ b ∧ b < s'.freeblock := by
  have hlo := h.lo
  have hmono := hc.mono
  rcases (hc.blocks b).mp hb with ⟨hv, hb'⟩ | hb'
  · have := h.block_bounds hv hb'
    omega
  · omega

/-- The blocks before the data blocks, the inode blocks apart. -/
theorem fixed (hc : Changes s s' no e) (h : Built s files) {b : ℕ} (hb : b < nmeta)
    (hA : b ∉ sb.inodeBlocks) : s'.img b = s.img b := by
  apply hc.frame b
  · rintro rfl
    exact hA (toBlockNo_mem hc.le)
  · intro hmem
    have := (hc.block_bounds h hmem).1
    omega

/-- What is still free is still zero. -/
theorem zero (hc : Changes s s' no e) (h : Built s files) {b : ℕ} (hb : s'.freeblock ≤ b) :
    s'.img b = Bytes.zero := by
  have hlo := h.lo
  have hmono := hc.mono
  rw [hc.frame b, h.zero b (le_trans hmono hb)]
  · have := mem_inodeBlocks.mp (toBlockNo_mem hc.le)
    rw [nmeta_eq] at hlo
    omega
  · intro hmem
    have := (hc.block_bounds h hmem).2
    omega

theorem inUse (hc : Changes s s' no e) (h : Built s files) :
    InUse sb.inodeBlocks (sb.validInodes s'.img) (sb.diskEntry s'.img) s'.img :=
  (h.inUse.change (toBlockNo_mem hc.le) (fun _ => hc.valid_iff)
    (fun no' hmem hne => hc.entries no' hne hmem.2.1) (fun _ => by rw [hc.entry]; exact hc.apart)
    fun _ => hc.others).1

/-- The blocks in use are those before the first free one. -/
theorem blocks_iff (hc : Changes s s' no e) (h : Built s files) (b : ℕ) :
    (∃ no' ∈ sb.validInodes s'.img, b ∈ OsLab.blocks s'.img (sb.diskEntry s'.img no')) ↔
      nmeta ≤ b ∧ b < s'.freeblock := by
  have hmono := hc.mono
  constructor
  · rintro ⟨no', hmem, hb⟩
    by_cases hne : no' = no
    · rw [hne, hc.entry] at hb
      exact hc.block_bounds h hb
    · have hmem' := (hc.valid_iff hne).mp hmem
      rw [hc.blocks_eq h hmem' hne] at hb
      have := h.block_bounds hmem' hb
      omega
  · rintro ⟨hb₁, hb₂⟩
    rcases Nat.lt_or_ge b s.freeblock with hlt | hge
    · obtain ⟨no', hmem', hb⟩ := (h.blocks b).mpr ⟨hb₁, hlt⟩
      by_cases hne : no' = no
      · refine ⟨no, hc.self_valid, ?_⟩
        rw [hc.entry, hc.blocks b]
        rw [hne] at hmem' hb
        exact Or.inl ⟨hmem', hb⟩
      · refine ⟨no', (hc.valid_iff hne).mpr hmem', ?_⟩
        rw [hc.blocks_eq h hmem' hne]
        exact hb
    · refine ⟨no, hc.self_valid, ?_⟩
      rw [hc.entry, hc.blocks b]
      exact Or.inr ⟨hge, hb₂⟩

theorem leaves (hc : Changes s s' no e) (h : Built s files) : Leaves s s' no where
  reserved _ := hc.fixed h
  entries no' h1 hlt hne := hc.entries no' hne (h.valid_of_lt h1 hlt).2.1
  blocks _ h1 hlt hne := hc.unchanged h (h.valid_of_lt h1 hlt) hne

end Changes

/-- **The invariant when one inode changes**, with the blocks it takes from the free ones. -/
theorem Built.change {files' : List (List UInt8)} (h : Built s files) (hc : Changes s s' no e)
    (hinodes : s'.freeinode = files'.length + 1) (hfew : files'.length ≤ nInodes)
    (hlen : ∀ no', 1 ≤ no' ∧ no' ≤ files'.length ↔ no' = no ∨ 1 ≤ no' ∧ no' ≤ files.length)
    (hcontent : ∀ i f, files'[i]? = some f → if i + 1 = no then OsLab.content s'.img e = f else
      files[i]? = some f)
    (hfree : s'.freeblock = nmeta + (files'.map fun f => total (blocksFor f.length)).sum) :
    Built s' files' := by
  constructor
  case size => exact hc.size
  case hi => exact hc.hi
  case zero => exact fun b => hc.zero h
  case inodes => exact hinodes
  case few => exact hfew
  case valid =>
    intro no'
    rw [hlen no']
    by_cases hne : no' = no
    · rw [hne]
      exact iff_of_true hc.self_valid (Or.inl rfl)
    · rw [hc.valid_iff hne, h.valid no']
      constructor
      · exact Or.inr
      · rintro (h' | h')
        · exact absurd h' hne
        · exact h'
  case types =>
    exact hc.all_valid
      (fun no e => e.type = if no = rootInodeNo then inodeDirectory else inodeRegular)
      hc.type fun no' hmem _ => h.types no' hmem
  case dense =>
    exact hc.all_valid (fun _ e => Dense s'.img e) hc.dense fun no' hmem hne =>
      (h.dense no' hmem).congr (hc.unchanged h hmem hne)
  case table =>
    exact hc.all_valid (fun _ e => e.indirect ≠ 0 ↔ inodeNumDirect < blocksFor e.numBytes.toNat)
      hc.table fun no' hmem _ => h.table no' hmem
  case inUse => exact hc.inUse h
  case blocks => exact hc.blocks_iff h
  case content =>
    intro i f hf
    have hf' := hcontent i f hf
    by_cases hi : i + 1 = no
    · rw [if_pos hi] at hf'
      rw [hi, hc.entry]
      exact hf'
    · rw [if_neg hi] at hf'
      have hlt := (List.getElem?_eq_some_iff.mp hf').1
      have hmem := h.mem_valid hlt
      rw [hc.entries (i + 1) hi hmem.2.1, content_congr (hc.unchanged h hmem hi)]
      exact h.content i f hf'
  case fixed =>
    intro b hb hA
    rw [hc.fixed h hb hA, h.fixed b hb hA]
  case free => exact hfree

/-! ## `ialloc` and `iappend` -/

/-- `ialloc` of an inode number that is not above `NINODES`. -/
theorem Built.ialloc {type : UInt16} (h : Built s files) (hfew : files.length + 1 ≤ nInodes)
    (htype : type = if files = [] then inodeDirectory else inodeRegular) :
    ∃ s', ialloc s type = some (files.length + 1, s') ∧ Built s' (files ++ [[]]) ∧
      Leaves s s' (files.length + 1) ∧ s'.freeblock = s.freeblock := by
  generalize hdin : { InodeEntry.zero with type := type, numLinks := 1 } = din
  have hfree : files.length + 1 ∉ sb.validInodes s.img := by
    rw [h.valid]
    omega
  have hnoBlocks : ∀ m, OsLab.blocks m din = ∅ := by
    intro m
    apply blocks_eq_empty
    · intro k
      rw [InodeEntry.addr, ← hdin]
      split <;> rfl
    · rw [← hdin]
      rfl
  obtain ⟨hD, hA⟩ := empty_entry (V := sb.others s.img (files.length + 1)) hnoBlocks
    (by rw [← hdin]; rfl) (sb.putDiskEntry s.img (files.length + 1) din)
  refine ⟨{ s with freeinode := s.freeinode + 1
                   img := sb.putDiskEntry s.img (files.length + 1) din }, ?_, ?_⟩
  · rw [Mkfs.ialloc, h.inodes]
    simp only [hdin]
    rw [winode_eq (s := { s with freeinode := files.length + 1 + 1 }) h.size hfew]
    rfl
  · have hc : Changes s { s with freeinode := s.freeinode + 1
                                 img := sb.putDiskEntry s.img (files.length + 1) din }
        (files.length + 1) din := by
      refine ⟨Nat.le_add_left _ _, hfew, h.size, h.hi, le_refl _,
        SuperBlock.diskEntry_putDiskEntry_self .., ?_, ?_, ?_, hD, ?_, hA, ?_⟩
      · intro no' hne _
        exact SuperBlock.diskEntry_putDiskEntry_of_ne hne
      · intro b hne _
        exact SuperBlock.putDiskEntry_of_ne hne
      · rw [← hdin]
        show type = _
        rw [htype]
        cases files with
        | nil => rfl
        | cons f fs => simp [rootInodeNo]
      · rw [← hdin]
        exact iff_of_false (fun hne => hne rfl) (show ¬ inodeNumDirect < blocksFor 0 by decide)
      · intro b
        rw [hnoBlocks]
        simp only [Set.mem_empty_iff_false, false_iff, not_or]
        exact ⟨fun hv => hfree hv.1, by omega⟩
    refine ⟨h.change hc ?_ ?_ ?_ ?_ ?_, hc.leaves h, rfl⟩
    · show s.freeinode + 1 = _
      rw [h.inodes, List.length_append]
      rfl
    · rw [List.length_append]
      exact hfew
    · intro no'
      rw [List.length_append, List.length_singleton]
      omega
    · intro i f hf
      by_cases hi : i + 1 = files.length + 1
      · rw [if_pos hi]
        rw [List.getElem?_append_right (by omega), show i - files.length = 0 by omega] at hf
        simp only [List.getElem?_cons_zero, Option.some.injEq] at hf
        rw [← hf, ← hdin]
        rfl
      · rw [if_neg hi]
        have hlt := (List.getElem?_eq_some_iff.mp hf).1
        rw [List.length_append, List.length_singleton] at hlt
        rwa [List.getElem?_append_left (by omega)] at hf
    · show s.freeblock = _
      rw [h.free, List.map_append, List.sum_append]
      rfl

theorem sum_map_set {α : Type} (g : α → ℕ) (l : List α) (i : ℕ) {a b : α}
    (h : l[i]? = some a) : ((l.set i b).map g).sum + g a = (l.map g).sum + g b := by
  induction l generalizing i with
  | nil => simp at h
  | cons c l ih =>
      cases i with
      | zero =>
          simp only [List.getElem?_cons_zero, Option.some.injEq] at h
          simp only [List.set_cons_zero, List.map_cons, List.sum_cons, h]
          omega
      | succ i =>
          rw [List.getElem?_cons_succ] at h
          have := ih i h
          simp only [List.set_cons_succ, List.map_cons, List.sum_cons]
          omega

variable {f : List UInt8}

/-- What `iappend` computes, up to its loop. -/
private theorem iappend_eq (h : Built s files) (hf : files[i]? = some f) : iappend s (i + 1) p =
    (appendLoop p.length s (sb.diskEntry s.img (i + 1)) f.length p).bind fun r =>
      winode r.2.2 (i + 1) { r.1 with numBytes := UInt32.ofNat r.2.1 } := by
  have hlt := h.le_nInodes (h.mem_valid (List.getElem?_eq_some_iff.mp hf).1)
  rw [iappend, rinode_eq h.size hlt, Option.bind_eq_bind, Option.bind_some, h.numBytes hf]
  rfl

variable {s₁ : State} {din : InodeEntry} {off : ℕ}

/-- The loop of `iappend`, on a file of the image. -/
private theorem appended (h : Built s files) (hf : files[i]? = some f)
    (hl : appendLoop p.length s (sb.diskEntry s.img (i + 1)) f.length p = some (din, off, s₁)) :
    off = f.length + p.length ∧ off ≤ inodeMaxBytes ∧
      Appended (sb.others s.img (i + 1)) s (sb.diskEntry s.img (i + 1)) (blocksFor f.length)
        f.length p s₁ din (blocksFor off) := by
  have hmem := h.mem_valid (List.getElem?_eq_some_iff.mp hf).1
  have hC := h.counted hmem
  rw [h.numBytes hf] at hC
  have hfmax : f.length ≤ inodeMaxBytes := by
    rw [← h.numBytes hf]
    exact (h.dense _ hmem).1
  obtain ⟨hoff, hmax, hA⟩ := appendLoop_spec f.length p s _ _ (h.room hmem) hC
    (le_blocksFor_mul _) hfmax hl
  have hn : mappedAfter (blocksFor f.length) off = blocksFor off := by
    rw [mappedAfter_blocksFor, Nat.max_eq_right (by omega)]
  exact ⟨hoff, hmax, hn ▸ hA⟩

/-- The new length is stored whole. -/
private theorem toNat_off (hmax : off ≤ inodeMaxBytes) : (UInt32.ofNat off).toNat = off := by
  apply UInt32.toNat_ofNat_of_lt'
  refine Nat.lt_of_le_of_lt hmax ?_
  decide

/-- What `iappend` changes: `e` is the entry of the loop, with the new length. -/
private theorem appended_changes (h : Built s files) (hf : files[i]? = some f)
    (hl : appendLoop p.length s (sb.diskEntry s.img (i + 1)) f.length p = some (din, off, s₁))
    (he : e = { din with numBytes := UInt32.ofNat off }) :
    Changes s { s₁ with img := sb.putDiskEntry s₁.img (i + 1) e } (i + 1) e := by
  obtain ⟨-, hmax, hA⟩ := appended h hf hl
  have hmem := h.mem_valid (List.getElem?_eq_some_iff.mp hf).1
  have hno := h.le_nInodes hmem
  have harea : sb.toBlockNo (i + 1) ∈ sb.others s.img (i + 1) := Or.inl (toBlockNo_mem hno)
  have hsize : e.numBytes.toNat = off := by
    rw [he]
    exact toNat_off hmax
  -- the entry that is stored has the addresses of the loop
  have hAe : Apart (sb.others s.img (i + 1)) s₁.img e := by
    rw [he]
    exact ⟨hA.room.apart.inj, hA.room.apart.off⟩
  have hblocks : OsLab.blocks (sb.putDiskEntry s₁.img (i + 1) e) e =
      OsLab.blocks s₁.img din := by
    rw [blocks_putDiskEntry hAe harea e, he]
    rfl
  have hMe : Mapped s₁.img e (blocksFor off) := by
    rw [he]
    exact hA.counted.mapped
  constructor
  case pos => exact Nat.le_add_left _ _
  case le => exact hno
  case size => exact hA.room.size
  case hi => exact hA.room.hi
  case mono => exact hA.le
  case entry => exact SuperBlock.diskEntry_putDiskEntry_self ..
  case entries =>
    intro no' hne hle
    rw [SuperBlock.diskEntry_putDiskEntry_of_ne hne]
    apply SuperBlock.diskEntry_congr
    apply hA.frame
    intro hb
    exact hA.room.apart.off _ hb (Or.inl ⟨no', hle, rfl⟩)
  case frame =>
    intro b hne hb
    rw [hblocks] at hb
    show sb.putDiskEntry s₁.img (i + 1) e b = _
    rw [SuperBlock.putDiskEntry_of_ne hne, hA.frame b hb]
  case type =>
    rw [he]
    show din.type = _
    rw [hA.written.same.1]
    exact h.types _ hmem
  case dense =>
    refine ⟨by rw [hsize]; exact hmax, ?_⟩
    rw [hsize]
    exact hMe.putDiskEntry hAe harea e
  case table =>
    rw [hsize, he]
    exact hA.counted.table
  case apart => exact hAe.putDiskEntry harea e
  case blocks =>
    intro b
    rw [hblocks, hA.blocks]
    constructor
    · rintro (hb | hb)
      · exact Or.inl ⟨hmem, hb⟩
      · exact Or.inr hb
    · rintro (⟨-, hb⟩ | hb)
      · exact Or.inl hb
      · exact Or.inr hb

/-- The file after `iappend`. -/
private theorem appended_content (h : Built s files) (hf : files[i]? = some f)
    (hl : appendLoop p.length s (sb.diskEntry s.img (i + 1)) f.length p = some (din, off, s₁))
    (he : e = { din with numBytes := UInt32.ofNat off }) :
    OsLab.content (sb.putDiskEntry s₁.img (i + 1) e) e = f ++ p := by
  obtain ⟨hoff, hmax, hA⟩ := appended h hf hl
  have hmem := h.mem_valid (List.getElem?_eq_some_iff.mp hf).1
  have harea : sb.toBlockNo (i + 1) ∈ sb.others s.img (i + 1) :=
    Or.inl (toBlockNo_mem (h.le_nInodes hmem))
  have hAe : Apart (sb.others s.img (i + 1)) s₁.img e := by
    rw [he]
    exact ⟨hA.room.apart.inj, hA.room.apart.off⟩
  have hnum := h.numBytes hf
  apply content_ext
  · rw [List.length_append, he, ← hoff]
    exact (toNat_off hmax).symm
  · intro k hk
    have hbyte : byteAt s₁.img e k = byteAt s₁.img din k := by
      rw [he]
      rfl
    rw [byteAt_putDiskEntry hAe harea e, hbyte, hA.written.bytes k]
    rcases Nat.lt_or_ge k f.length with hkf | hkf
    · rw [if_neg (by omega), List.getD_append _ _ _ _ hkf, ← getD_content (by omega),
        h.content i f hf]
    · rw [List.length_append] at hk
      rw [if_pos (by omega), List.getD_append_right _ _ _ _ hkf]

/-- **`iappend`** appends to one file. -/
theorem Built.iappend (h : Built s files) (hf : files[i]? = some f)
    (hr : iappend s (i + 1) p = some s') :
    Built s' (files.set i (f ++ p)) ∧ Leaves s s' (i + 1) := by
  have hlt := (List.getElem?_eq_some_iff.mp hf).1
  have hno := h.le_nInodes (h.mem_valid hlt)
  rw [iappend_eq h hf] at hr
  rcases hl : appendLoop p.length s (sb.diskEntry s.img (i + 1)) f.length p with
    - | ⟨din, off, s₁⟩
  · rw [hl] at hr
    cases hr
  obtain ⟨hoff, -, hA⟩ := appended h hf hl
  rw [hl, Option.bind_some, winode_eq hA.room.size hno] at hr
  have hc := appended_changes h hf hl rfl
  cases hr
  refine ⟨h.change hc ?_ ?_ ?_ ?_ ?_, hc.leaves h⟩
  · show s₁.freeinode = _
    rw [hA.inode, h.inodes, List.length_set]
  · rw [List.length_set]
    exact h.few
  · intro no'
    rw [List.length_set]
    constructor
    · exact Or.inr
    · rintro (rfl | h')
      · omega
      · exact h'
  · intro j g hg
    rw [List.getElem?_set] at hg
    by_cases hj : j + 1 = i + 1
    · -- the file itself
      rw [if_pos hj]
      rw [if_pos (by omega), if_pos hlt] at hg
      cases hg
      exact appended_content h hf hl rfl
    · rw [if_neg hj]
      rwa [if_neg (by omega)] at hg
  · have hsum := sum_map_set (fun f => total (blocksFor f.length)) files i (b := f ++ p) hf
    have hfree := hA.free
    have hfree' := h.free
    rw [List.length_append, ← hoff] at hsum
    show s₁.freeblock = _
    omega

/-- `iappend` returns where the file and the image have room. -/
theorem Built.iappend_isSome (h : Built s files) (hf : files[i]? = some f)
    (hmax : f.length + p.length ≤ inodeMaxBytes)
    (hroom : s.freeblock + total (blocksFor (f.length + p.length)) ≤
      fsSize + total (blocksFor f.length)) : (Mkfs.iappend s (i + 1) p).isSome := by
  have hmem := h.mem_valid (List.getElem?_eq_some_iff.mp hf).1
  have hno := h.le_nInodes hmem
  have hC := h.counted hmem
  rw [h.numBytes hf] at hC
  have hn' : mappedAfter (blocksFor f.length) (f.length + p.length) =
      blocksFor (f.length + p.length) := by
    rw [mappedAfter_blocksFor, Nat.max_eq_right (by omega)]
  obtain ⟨⟨din₁, off, s₁⟩, hl⟩ := Option.isSome_iff_exists.mp
    (appendLoop_isSome p.length f.length p s _ _ (h.room hmem) hC (le_blocksFor_mul _) (le_refl _)
      hmax (by rw [hn']; exact hroom))
  obtain ⟨-, -, hA⟩ := appendLoop_spec f.length p s _ _ (h.room hmem) hC (le_blocksFor_mul _)
    (by omega) hl
  rw [iappend_eq h hf, hl, Option.bind_some, winode_eq hA.room.size hno]
  rfl

end OsLab.Mkfs
