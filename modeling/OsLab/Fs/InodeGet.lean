import OsLab.Fs.InodeRefs

/-!
# Handing out references

`inode_get` and `inode_share` keep the invariant, and so does passing a reference on.  `inode_get`
raises the count of an inode that it finds in the list, or takes one that nobody uses, which has no
other reference until it returns it.
-/

namespace OsLab

section Steps

variable {sb : SuperBlock} {s s' : InodeSys} {t u ip jp no : ℕ}

/-- **One reference more**, to an inode that nobody is freeing. -/
theorem Refs.more (h : Refs sb s) (hnone : s.lock = none) (hin : ip ∈ s.head)
    (hrc : 0 < (s.mem ip).rc) (hfree : ∀ u, (s.pc u).freeing ≠ some ip) (hidle : s.pc t = .idle) :
    Refs sb ((s.setMem ip { s.mem ip with rc := (s.mem ip).rc + 1 }).setRefs
      ((t, ip) :: s.refs)) := by
  have htake := fun u => h.not_taking hnone u ip
  have hcounts := (h.fine ip).counts ((h.fine ip).heap hin) htake
  have hready := (h.fine ip).ready hin hrc htake hfree
  have hnoinode : (s.pc t).On ip := hidle ▸ InodePc.on_idle ip
  generalize hs' : (s.setMem ip { s.mem ip with rc := (s.mem ip).rc + 1 }).setRefs
    ((t, ip) :: s.refs) = s'
  have hmem : s'.mem ip = { s.mem ip with rc := (s.mem ip).rc + 1 } := by
    rw [← hs', InodeSys.setRefs_mem, InodeSys.setMem_mem_self]
  have hcount : s'.refCount ip = s.refCount ip + 1 := by
    rw [← hs', InodeSys.refCount]
    exact countP_cons_ref.trans (by rw [if_pos rfl]; rfl)
  have hm : Moves sb s s' t ip := by
    subst hs'
    exact .quiet (fun _ _ => rfl) hnoinode hnoinode (fun jp hne => s.setMem_mem_of_ne _ _ _ hne)
      (Or.inr (Or.inl rfl)) rfl rfl rfl
  obtain ⟨hpc, hlock, hhead, hheap, hdisk, hrefs⟩ : s'.pc = s.pc ∧ s'.lock = s.lock ∧
      s'.head = s.head ∧ s'.heap = s.heap ∧ s'.disk = s.disk ∧ s'.refs = (t, ip) :: s.refs := by
    subst hs'
    exact ⟨rfl, rfl, rfl, rfl, rfl, rfl⟩
  refine h.kept hm ?_ hin hhead hheap (by rw [hmem]) (fun _ => hrc) ?_ ?_ ?_
  · rw [hpc, hlock]
    exact h.lock
  · intro _
    rw [hmem, hcount]
    simp only [hcounts, Nat.cast_add, Nat.cast_one]
  · intro _ _
    exact hready.congr (by rw [hmem]) (by rw [hmem]) (by rw [hmem]) hdisk
  · intro u hu
    rw [hpc] at hu ⊢
    obtain ⟨hput, hmine⟩ := h.pc_put hnone hin hfree hu
    rw [hput, Knows, hrefs]
    exact List.mem_cons_of_mem _ hmine

/-- `inode_share` -/
theorem Refs.share (h : Refs sb s) (hnone : s.lock = none) (ht : (t, ip) ∈ s.refs)
    (hidle : s.pc t = .idle) :
    Refs sb ((s.setMem ip { s.mem ip with rc := (s.mem ip).rc + 1 }).setRefs
      ((t, ip) :: s.refs)) := by
  obtain ⟨htake, hfree⟩ := h.idle_free ht hidle
  have hin := (h.idle_ref ht hidle).1
  refine h.more hnone hin ?_ hfree hidle
  rw [(h.fine ip).counts ((h.fine ip).heap hin) htake]
  exact Nat.cast_pos.mpr (InodeSys.refCount_pos ht)

/-- A reference is passed on. -/
theorem Refs.give (h : Refs sb s) (ht : (t, ip) ∈ s.refs) (hidle : s.pc t = .idle) (u : ℕ) :
    Refs sb (s.setRefs ((u, ip) :: s.refs.erase (t, ip))) := by
  obtain ⟨hin, hput⟩ := h.idle_ref ht hidle
  have hnoinode : (s.pc t).On ip := hidle ▸ InodePc.on_idle ip
  have hcount : ∀ jp, (s.setRefs ((u, ip) :: s.refs.erase (t, ip))).refCount jp = s.refCount jp :=
    fun jp => countP_cons_ref.trans (countP_erase_ref ht).symm
  have hm : Moves sb s (s.setRefs ((u, ip) :: s.refs.erase (t, ip))) t ip :=
    ⟨fun _ _ => rfl, hnoinode, hnoinode, fun _ _ => rfl,
      fun _ _ hne => (mem_cons_ref hne).trans (mem_erase_ref hne), fun jp _ => hcount jp,
      fun _ _ => Iff.rfl, fun _ _ => Iff.rfl, fun _ _ _ _ _ => rfl⟩
  refine h.kept hm h.lock hin rfl rfl rfl id ?_ ?_ ?_
  · intro htake
    rw [hcount]
    exact (h.fine ip).counts ((h.fine ip).heap hin) htake
  · intro hrc hfree
    exact ((h.fine ip).ready hin hrc (h.idle_free ht hidle).1 hfree).congr rfl rfl rfl rfl
  · intro v hv
    obtain ⟨hpc, hmine⟩ := hput v hv
    have hvt : v ≠ t := by
      rintro rfl
      rw [hidle] at hpc
      cases hpc
    suffices hknows : Knows sb (s.setRefs ((u, ip) :: s.refs.erase (t, ip))) v (.put ip) from
      hpc ▸ hknows
    refine List.mem_cons_of_mem _ ((List.mem_erase_of_ne ?_).mpr hmine)
    exact fun heq => hvt (congrArg Prod.fst heq)

/-- Nobody knows an address that `kalloc` returns. -/
theorem Refs.fresh (h : Refs sb s) (hip : ip ∉ s.heap) :
    ip ∉ s.head ∧ (∀ u, (u, ip) ∉ s.refs) ∧ ∀ u, (s.pc u).inode ≠ some ip := by
  have hhead : ip ∉ s.head := fun hin => hip ((h.fine ip).heap hin)
  have hrefs : ∀ u, (u, ip) ∉ s.refs := fun u hu => hip ((h.fine ip).refs u hu).2
  refine ⟨hhead, hrefs, ?_⟩
  intro u hu
  rcases (h.fine ip).works hu with htake | ⟨-, hput⟩ | ⟨hlast, -⟩
  · obtain ⟨no, htaken⟩ := (h.fine ip).taken htake
    exact hhead htaken.mem_head
  · exact hrefs u hput
  · exact hrefs u hlast.mem_refs

theorem refCount_eq_zero (hrefs : ∀ u, (u, ip) ∉ s.refs) : s.refCount ip = 0 := by
  rw [InodeSys.refCount, List.countP_eq_zero]
  rintro ⟨u, jp⟩ hmem
  rw [decide_eq_true_eq]
  rintro rfl
  exact hrefs u hmem

/-- `kalloc` and `init_inode` -/
theorem Refs.new (h : Refs sb s) (ha : ip ∉ s.heap) (hidle : s.pc t = .idle) :
    Refs sb { s.setMem ip (InodeSys.initInode (s.mem ip)) with
      heap := ip :: s.heap
      head := ip :: s.head } := by
  obtain ⟨hhead, hrefs, hnobody⟩ := h.fresh ha
  have hnoinode : (s.pc t).On ip := hidle ▸ InodePc.on_idle ip
  generalize hs' : { s.setMem ip (InodeSys.initInode (s.mem ip)) with
    heap := ip :: s.heap
    head := ip :: s.head } = s'
  have hrc : (s'.mem ip).rc = 0 := by
    rw [← hs']
    exact congrArg SharedInode.rc (s.setMem_mem_self _ _)
  have hm : Moves sb s s' t ip := by
    subst hs'
    refine ⟨fun _ _ => rfl, hnoinode, hnoinode, fun jp hne => s.setMem_mem_of_ne _ _ _ hne,
      fun _ _ _ => Iff.rfl, fun _ _ => rfl, ?_, ?_, fun _ _ _ _ _ => rfl⟩
    all_goals
      intro jp hne
      exact ⟨fun hin => (List.mem_cons.mp hin).resolve_left hne, List.mem_cons_of_mem _⟩
  obtain ⟨hpc, hlock, hhead', hheap, hrefs'⟩ : s'.pc = s.pc ∧ s'.lock = s.lock ∧
      s'.head = ip :: s.head ∧ s'.heap = ip :: s.heap ∧ s'.refs = s.refs := by
    subst hs'
    exact ⟨rfl, rfl, rfl, rfl, rfl⟩
  refine h.moves hm ?_ ?_ ?_ ?_ ?_
  · rw [hpc, hlock]
    exact h.lock
  · rw [hhead']
    exact List.nodup_cons.mpr ⟨hhead, h.nodup⟩
  · rw [hheap]
    exact List.nodup_cons.mpr ⟨ha, h.nodupHeap⟩
  · intro jp _ _ _ hpos
    rw [hrc] at hpos
    exact absurd hpos (lt_irrefl _)
  · constructor
    · intro _
      rw [hheap]
      exact List.mem_cons_self
    · intro _
      rw [hhead']
      exact Or.inl List.mem_cons_self
    · intro _ hpos
      rw [hrc] at hpos
      exact absurd hpos (lt_irrefl _)
    · intro u hu
      rw [hrefs'] at hu
      exact absurd hu (hrefs u)
    · intro _ _
      rw [hrc, refCount_eq_zero (hrefs' ▸ hrefs)]
      rfl
    · intro _ hpos _ _
      rw [hrc] at hpos
      exact absurd hpos (lt_irrefl _)
    · intro u hu
      rw [hpc] at hu
      exact absurd hu (hnobody u)

/-- **A state in which a thread has taken an inode.** -/
theorem Fine.of_taken {s' : InodeSys} (hheap : ip ∈ s'.heap)
    (hrange : (s'.mem ip).inodeNo < sb.numInodes) (htaken : Taken sb s' ip no)
    (htake : (s'.pc t).taking = some ip) (hknows : Knows sb s' t (s'.pc t))
    (halone : ∀ u, u ≠ t → (s'.pc u).inode ≠ some ip) : Fine sb s' ip where
  heap := fun _ => hheap
  linked := fun _ => Or.inl htaken.mem_head
  range := fun _ _ => hrange
  refs := by
    intro u hu
    have hpos := InodeSys.refCount_pos hu
    rw [htaken.refCount] at hpos
    cases hpos
  counts := fun _ hnot => absurd htake (hnot t)
  ready := fun _ _ hnot _ => absurd htake (hnot t)
  threads := by
    intro u hu
    by_cases hut : u = t
    · rw [hut]
      exact hknows
    · exact absurd hu (halone u hut)

/-- `inode_get` takes an inode that nobody uses. -/
theorem Refs.take (h : Refs sb s) (hnone : s.lock = none) (hidle : s.pc t = .idle)
    (hin : ip ∈ s.head) (hrc : (s.mem ip).rc = 0) (hno : no < sb.numInodes)
    (htype : (sb.diskEntry s.disk no).type ≠ inodeInvalid)
    (hfind : ∀ jp ∈ s.heap, 0 < (s.mem jp).rc → (s.mem jp).inodeNo ≠ no) :
    Refs sb (s.take t ip no) := by
  have hzero : s.refCount ip = 0 := by
    have hcounts := (h.fine ip).counts ((h.fine ip).heap hin) fun u => h.not_taking hnone u ip
    rw [hrc] at hcounts
    exact (Nat.cast_eq_zero.mp hcounts.symm)
  have hnobody : ∀ u, (s.pc u).inode ≠ some ip := by
    intro u hu
    have hnot : ∀ v, (v, ip) ∉ s.refs := by
      intro v hv
      have hpos := InodeSys.refCount_pos hv
      rw [hzero] at hpos
      cases hpos
    rcases (h.fine ip).works hu with htake | ⟨-, hput⟩ | ⟨hlast, -⟩
    · exact h.not_taking hnone u ip htake
    · exact hnot u hput
    · exact hnot u hlast.mem_refs
  generalize hs' : s.take t ip no = s'
  have hmem : s'.mem ip = { s.mem ip with inodeNo := no, rc := (s.mem ip).rc + 1, valid := false } := by
    rw [← hs', InodeSys.take, InodeSys.goto_mem, InodeSys.setLock_mem, InodeSys.setMem_mem_self]
  have hothers : ∀ u, u ≠ t → s'.pc u = s.pc u := by
    intro u hut
    rw [← hs', InodeSys.take, InodeSys.goto_pc_of_ne _ _ _ _ hut]
    rfl
  have hpc : s'.pc t = .getLock ip no := by rw [← hs', InodeSys.take, InodeSys.goto_pc_self]
  obtain ⟨hlock, hhead, hheap, hdisk, hrefs⟩ : s'.lock = some t ∧ s'.head = s.head ∧
      s'.heap = s.heap ∧ s'.disk = s.disk ∧ s'.refs = s.refs := by
    subst hs'
    exact ⟨rfl, rfl, rfl, rfl, rfl⟩
  have hm : Moves sb s s' t ip := by
    refine .quiet hothers ?_ ?_ ?_ (Or.inl hrefs) hhead hheap hdisk
    · exact hidle ▸ InodePc.on_idle ip
    · exact InodePc.on_of_inode (by rw [hpc]; rfl)
    · intro jp hne
      rw [← hs']
      exact s.setMem_mem_of_ne _ _ _ hne
  have htaken : Taken sb s' ip no := by
    refine ⟨hhead ▸ hin, by rw [hmem], ?_, ?_, hdisk ▸ htype⟩
    · rw [hmem]
      simp only [hrc, zero_add]
    · rw [InodeSys.refCount, hrefs]
      exact hzero
  refine h.moves hm (lock_acquired h hothers hnone hlock (by rw [hpc]; trivial)) (hhead ▸ h.nodup)
    (hheap ▸ h.nodupHeap) ?_ ?_
  · intro jp hjp _ _ _ hrcj heq
    rw [hmem] at heq
    exact hfind jp hjp hrcj heq.symm
  · refine .of_taken (hheap ▸ (h.fine ip).heap hin) ?_ htaken (by rw [hpc]; rfl) ?_ ?_
    · rw [hmem]
      exact hno
    · rw [hpc]
      exact ⟨htaken, by rw [hmem]⟩
    · intro u hut
      rw [hothers u hut]
      exact hnobody u

/-- **A step of `inode_get` on the inode it has taken.** -/
theorem Refs.taking (h : Refs sb s) (hbefore : (s.pc t).taking = some ip)
    (hm : Moves sb s s' t ip) (hafter : (s'.pc t).taking = some ip) (hhead : s'.head = s.head)
    (hheap : s'.heap = s.heap) (hno : (s'.mem ip).inodeNo = (s.mem ip).inodeNo)
    (htaken : Taken sb s' ip no)
    (hknows : Knows sb s' t (s'.pc t)) (hlock : s'.lock = s.lock) : Refs sb s' := by
  obtain ⟨no', htaken'⟩ := (h.fine ip).taken hbefore
  have hpos : 0 < (s.mem ip).rc := by
    rw [htaken'.rc]
    decide
  refine h.moves hm (lock_same h hm.pc hlock ?_) (hhead ▸ h.nodup) (hheap ▸ h.nodupHeap) ?_ ?_
  · exact iff_of_true (InodePc.locking_of_taking hafter) (InodePc.locking_of_taking hbefore)
  · intro jp hjp hne _ _ hrcj heq
    exact hne (h.unique jp hjp ip ((h.fine ip).heap htaken'.mem_head) hrcj hpos
      (heq.symm.trans hno))
  · refine .of_taken (hheap ▸ (h.fine ip).heap htaken'.mem_head) ?_ htaken hafter hknows ?_
    · rw [hno]
      exact (h.fine ip).range htaken'.mem_head hpos
    · intro u hut hu
      rw [hm.pc u hut] at hu
      exact hut (h.taking_alone hbefore hu)

theorem sync_load (h : (s.mem ip).valid = false) : s.sync sb ip false =
    s.setMem ip { s.mem ip with
      valid := true
      entry := sb.diskEntry s.disk (s.mem ip).inodeNo } := by
  simp only [InodeSys.sync, inodeSync, h, Bool.false_and, Bool.not_false, if_true,
    Bool.false_eq_true, if_false]
  rfl

/-- `inode_get` gets the lock of the inode it has taken, or loads its entry. -/
theorem Refs.takingStep (h : Refs sb s) (htaking : (s.pc t).taking = some ip) {q : InodePc}
    {x : SharedInode} (hq : q.taking = some ip) (hrc : x.rc = (s.mem ip).rc)
    (hno : x.inodeNo = (s.mem ip).inodeNo) (htaken : Taken sb s ip no)
    (hknows : Taken sb ((s.setMem ip x).goto t q) ip no →
      Knows sb ((s.setMem ip x).goto t q) t q) : Refs sb ((s.setMem ip x).goto t q) := by
  have hmem : ((s.setMem ip x).goto t q).mem ip = x := s.setMem_mem_self _ _
  have hpc : ((s.setMem ip x).goto t q).pc t = q := InodeSys.goto_pc_self _ _ _
  have htaken' : Taken sb ((s.setMem ip x).goto t q) ip no := by
    refine ⟨htaken.mem_head, ?_, ?_, htaken.refCount, htaken.allocated⟩
    · rw [hmem]
      exact hno.trans htaken.inodeNo
    · rw [hmem]
      exact hrc.trans htaken.rc
  have hm : Moves sb s ((s.setMem ip x).goto t q) t ip :=
    .quiet (fun u hut => InodeSys.goto_pc_of_ne _ _ _ _ hut)
      (InodePc.on_of_inode (InodePc.inode_of_taking htaking))
      (hpc.symm ▸ InodePc.on_of_inode (InodePc.inode_of_taking hq))
      (fun jp hne => s.setMem_mem_of_ne _ _ _ hne) (Or.inl rfl) rfl rfl rfl
  refine h.taking htaking hm (hpc.symm ▸ hq) rfl rfl ?_ htaken' ?_ rfl
  · rw [hmem]
    exact hno
  · rw [hpc]
    exact hknows htaken'

/-- `inode_get` returns the inode. -/
theorem Refs.loaded (h : Refs sb s) (hpc : s.pc t = .loaded ip no) :
    Refs sb ((((s.setMem ip { s.mem ip with holder := none }).setLock none).setRefs
      ((t, ip) :: s.refs)).goto t .idle) := by
  have htake : (s.pc t).taking = some ip := by rw [hpc]; rfl
  have hknows := (h.fine ip).threads t (InodePc.inode_of_taking htake)
  rw [hpc] at hknows
  obtain ⟨htaken, hready⟩ := hknows
  have hin := htaken.mem_head
  have hpos : 0 < (s.mem ip).rc := by
    rw [htaken.rc]
    decide
  generalize hs' : (((s.setMem ip { s.mem ip with holder := none }).setLock none).setRefs
    ((t, ip) :: s.refs)).goto t .idle = s'
  have hmem : s'.mem ip = { s.mem ip with holder := none } := by
    rw [← hs', InodeSys.goto_mem, InodeSys.setRefs_mem, InodeSys.setLock_mem,
      InodeSys.setMem_mem_self]
  have hothers : ∀ u, u ≠ t → s'.pc u = s.pc u := by
    intro u hut
    rw [← hs', InodeSys.goto_pc_of_ne _ _ _ _ hut]
    rfl
  have hidle : s'.pc t = .idle := by rw [← hs', InodeSys.goto_pc_self]
  obtain ⟨hlock, hhead, hheap, hdisk, hrefs⟩ : s'.lock = none ∧ s'.head = s.head ∧
      s'.heap = s.heap ∧ s'.disk = s.disk ∧ s'.refs = (t, ip) :: s.refs := by
    subst hs'
    exact ⟨rfl, rfl, rfl, rfl, rfl⟩
  have hm : Moves sb s s' t ip := by
    refine .quiet hothers ?_ ?_ ?_ (Or.inr (Or.inl hrefs)) hhead hheap hdisk
    · exact InodePc.on_of_inode (by rw [hpc]; rfl)
    · exact hidle ▸ InodePc.on_idle ip
    · intro jp hne
      rw [← hs']
      exact s.setMem_mem_of_ne _ _ _ hne
  refine h.kept hm (lock_released h hothers (by rw [hpc]; trivial) hlock (by rw [hidle]; exact id))
    hin hhead hheap (by rw [hmem]) (fun _ => hpos) ?_ ?_ ?_
  · intro _
    have hzero := htaken.refCount
    rw [InodeSys.refCount] at hzero
    rw [hmem, InodeSys.refCount, hrefs, countP_cons_ref, if_pos rfl, hzero]
    exact htaken.rc
  · intro _ _
    exact hready.congr (by rw [hmem]) (by rw [hmem]) (by rw [hmem]) hdisk
  · intro u hu
    by_cases hut : u = t
    · rw [hut, hidle] at hu
      cases hu
    · rw [hothers u hut] at hu
      exact absurd (h.taking_alone htake hu) hut

/-- An inode that `inode_get(no)` finds in the list, where nobody is freeing that number. -/
theorem find_some (hundying : Undying s (t, .get no u))
    (hfind : s.head.find? (fun ip => (s.mem ip).inodeNo = no ∧ 0 < (s.mem ip).rc) = some ip) :
    ip ∈ s.head ∧ (s.mem ip).inodeNo = no ∧ 0 < (s.mem ip).rc ∧
      ∀ v, (s.pc v).freeing ≠ some ip := by
  have hprop := List.find?_some hfind
  simp only [decide_eq_true_eq] at hprop
  refine ⟨List.mem_of_find?_eq_some hfind, hprop.1, hprop.2, ?_⟩
  intro v hfree
  exact hundying v ip (InodePc.dying_of_freeing hfree) hprop.1

/-- The critical section of `inode_get`. -/
theorem Refs.getStep {a : ℕ} (h : Refs sb s) (hidle : s.pc t = .idle)
    (htype : (sb.diskEntry s.disk no).type ≠ inodeInvalid) (hundying : Undying s (t, .get no a))
    (hs : s.getStep sb t no a = some s') : Refs sb s' := by
  rw [InodeSys.getStep] at hs
  have hok : 0 < no ∧ no < sb.numInodes ∧ s.lock = none := by
    by_contra hnot
    rw [if_neg hnot] at hs
    cases hs
  rw [if_pos hok] at hs
  obtain ⟨-, hno, hnone⟩ := hok
  split at hs
  · rename_i ip hfind
    cases hs
    obtain ⟨hin, -, hrc, hfree⟩ := find_some hundying hfind
    exact h.more hnone hin hrc hfree hidle
  · rename_i hfind
    have hnot : ∀ jp ∈ s.heap, 0 < (s.mem jp).rc → (s.mem jp).inodeNo ≠ no := by
      intro jp hjp hrc heq
      rcases (h.fine jp).linked hjp with hin | ⟨u, hdrop⟩
      · have hfalse := List.find?_eq_none.mp hfind jp hin
        exact hfalse (decide_eq_true ⟨heq, hrc⟩)
      · -- unlinked, and its memory not freed yet
        exact hundying u jp (by rw [hdrop]; rfl) heq
    split at hs
    · rename_i ip hempty
      cases hs
      have hzero := List.find?_some hempty
      rw [decide_eq_true_eq] at hzero
      exact h.take hnone hidle (List.mem_of_find?_eq_some hempty) hzero hno htype hnot
    · split_ifs at hs with ha
      cases hs
      have hnew := h.new ha hidle
      have hself : (s.setMem a (InodeSys.initInode (s.mem a))).mem a =
          InodeSys.initInode (s.mem a) := s.setMem_mem_self _ _
      refine hnew.take hnone hidle List.mem_cons_self ?_ hno htype ?_
      · exact congrArg SharedInode.rc hself
      · intro jp hjp hrc
        by_cases hne : jp = a
        · rw [hne] at hrc
          rw [show (0 : ℤ) < _ ↔ 0 < ((s.setMem a (InodeSys.initInode (s.mem a))).mem a).rc from
            Iff.rfl, hself] at hrc
          exact absurd hrc (lt_irrefl _)
        · have hsame : (s.setMem a (InodeSys.initInode (s.mem a))).mem jp = s.mem jp :=
            s.setMem_mem_of_ne _ _ _ hne
          have hjp' : jp ∈ s.heap := (List.mem_cons.mp hjp).resolve_left hne
          exact hsame.symm ▸ hnot jp hjp' (hsame ▸ hrc)

end Steps

end OsLab
