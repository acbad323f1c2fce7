import OsLab.Fs.Files
import OsLab.Fs.InodeGet
import OsLab.Fs.InodePut

/-!
# In-memory inodes in every run

In every run in which `inode_get` is not called for the number of an inode that a thread is
freeing, the references are sound.  Without that condition they are not: the last `inode_put` does
not look at the count again, and frees an inode to which `inode_get` has handed out a reference in
between.

## Main definitions

* `inode_refs_sound` — the references in every run.
* `put_frees_shared` — a run that ends with a reference to a freed inode.
-/

namespace OsLab

/-! ## The steps -/

section Steps

variable {sb : SuperBlock} {s s' : InodeSys} {t u ip jp no : ℕ}

/-- A step that changes no inode, no reference and no lock. -/
theorem Refs.goto_none (h : Refs sb s) {q q' : InodePc} (hpc : s.pc t = q) (hq : q.inode = none)
    (hq' : q'.inode = none) {m : Disk}
    (hdisk : ∀ no, (sb.diskEntry s.disk no).type ≠ inodeInvalid →
      sb.diskEntry m no = sb.diskEntry s.disk no) :
    Refs sb ({ s with disk := m }.goto t q') := by
  have hpc' : ({ s with disk := m }.goto t q').pc t = q' := InodeSys.goto_pc_self _ _ _
  have hothers : ∀ u, u ≠ t → ({ s with disk := m }.goto t q').pc u = s.pc u := fun u hut =>
    InodeSys.goto_pc_of_ne _ _ _ _ hut
  have hon : ∀ {q : InodePc} ip, q.inode = none → q.On ip := by
    intro q ip hq jp hjp
    rw [hq] at hjp
    cases hjp
  refine h.moves_none (t := t) ?_ rfl rfl rfl (lock_same h hothers rfl ?_)
  · intro ip
    exact ⟨hothers, hpc.symm ▸ hon ip hq, hpc'.symm ▸ hon ip hq', fun _ _ => rfl,
      fun _ _ _ => Iff.rfl, fun _ _ => rfl, fun _ _ => Iff.rfl, fun _ _ => Iff.rfl,
      fun jp _ _ _ htype => hdisk _ htype⟩
  · rw [hpc', hpc]
    exact iff_of_false (InodePc.not_locking_of_none hq') (InodePc.not_locking_of_none hq)

/-- The next step of a call. -/
theorem Refs.runStep (hlay : sb.toBlockNo sb.numInodes < sb.bitmapStart) (h : Refs sb s)
    (hs : s.runStep sb t = some s') : Refs sb s' := by
  rw [InodeSys.runStep] at hs
  cases hpc : s.pc t with
  | idle =>
      rw [hpc] at hs
      cases hs
  | probe type no =>
      rw [hpc] at hs
      simp only at hs
      split_ifs at hs with hle hfree
      · cases hs
        refine h.goto_none hpc rfl rfl ?_
        intro no' htype
        refine SuperBlock.diskEntry_putDiskEntry_of_ne ?_
        rintro rfl
        exact htype hfree
      · cases hs
        exact h.goto_none (m := s.disk) hpc rfl rfl fun _ _ => rfl
  | getLock ip no =>
      have htaking : (s.pc t).taking = some ip := by rw [hpc]; rfl
      have hknows := (h.fine ip).threads t (InodePc.inode_of_taking htaking)
      rw [hpc] at hs hknows
      simp only at hs
      split_ifs at hs
      cases hs
      refine h.takingStep htaking rfl rfl rfl hknows.1 fun htaken => ⟨htaken, ?_⟩
      rw [InodeSys.goto_mem, InodeSys.setMem_mem_self]
      exact hknows.2
  | load ip no =>
      have htaking : (s.pc t).taking = some ip := by rw [hpc]; rfl
      have hknows := (h.fine ip).threads t (InodePc.inode_of_taking htaking)
      rw [hpc] at hs hknows
      cases hs
      rw [sync_load hknows.2]
      refine h.takingStep htaking rfl rfl rfl hknows.1 fun htaken => ⟨htaken, ?_⟩
      have hallocated := htaken.allocated
      rw [← htaken.inodeNo] at hallocated
      refine ⟨?_, ?_, hallocated⟩
      · rw [InodeSys.goto_mem, InodeSys.setMem_mem_self]
      · rw [InodeSys.goto_mem, InodeSys.setMem_mem_self]
        rfl
  | loaded ip no =>
      rw [hpc] at hs
      cases hs
      exact h.loaded hpc
  | put ip =>
      rw [hpc] at hs
      simp only at hs
      split_ifs at hs with hnone hlast
      · cases hs
        exact h.lastPut hnone hpc hlast.1
      · cases hs
        exact h.fewer hnone hpc
  | putLock ip =>
      have hbefore : (s.pc t).inode = some ip := by rw [hpc]; rfl
      have hknows := (h.fine ip).threads t hbefore
      rw [hpc] at hs hknows
      simp only at hs
      split_ifs at hs
      cases hs
      have hothers : ∀ u, u ≠ t → (((s.setMem ip { s.mem ip with holder := some t }).setLock
          none).goto t (.clear ip 0)).pc u = s.pc u := fun u hut =>
        InodeSys.goto_pc_of_ne _ _ _ _ hut
      refine h.frees hknows.1 hknows.2 hbefore (by rw [InodeSys.goto_pc_self]; rfl) hothers
        (fun jp hne => s.setMem_mem_of_ne _ _ _ hne) ?_ ?_ ⟨rfl, rfl, rfl⟩ (fun _ _ _ => rfl)
        (lock_released h hothers (by rw [hpc]; trivial) rfl ?_)
      · rw [InodeSys.goto_mem, InodeSys.setLock_mem, InodeSys.setMem_mem_self]
      · rw [InodeSys.goto_mem, InodeSys.setLock_mem, InodeSys.setMem_mem_self]
      · rw [InodeSys.goto_pc_self]
        exact id
  | clear ip k =>
      rw [hpc] at hs
      exact h.clearStep hlay (by rw [hpc]; rfl) hs
  | table ip k =>
      rw [hpc] at hs
      exact h.tableStep hlay (by rw [hpc]; rfl) hs
  | cleared ip | invalid ip =>
      rw [hpc] at hs
      cases hs
      exact h.writeBack (by rw [hpc]; rfl) rfl _
  | unlock ip =>
      rw [hpc] at hs
      simp only at hs
      split_ifs at hs
      cases hs
      exact h.freeStep (m := s.disk) (by rw [hpc]; rfl) rfl rfl rfl fun _ _ _ => rfl
  | detach ip =>
      rw [hpc] at hs
      simp only at hs
      split_ifs at hs
      cases hs
      exact h.detach hpc
  | drop ip =>
      rw [hpc] at hs
      cases hs
      exact h.drop hpc

/-- **One step keeps the invariant.** -/
theorem Refs.step {i : ℕ × InodeAct} (hlay : sb.toBlockNo sb.numInodes < sb.bitmapStart)
    (h : Refs sb s) (hlegal : InodeSys.Legal sb s i) (hundying : Undying s i)
    (hs : s.step sb i = some s') : Refs sb s' := by
  obtain ⟨t, a⟩ := i
  cases a with
  | alloc type =>
      simp only [InodeSys.step] at hs
      split_ifs at hs with hok
      cases hs
      exact h.goto_none (m := s.disk) hok.1 rfl rfl fun _ _ => rfl
  | get no a =>
      simp only [InodeSys.step] at hs
      split_ifs at hs with hidle
      exact h.getStep hidle hlegal hundying hs
  | share ip =>
      simp only [InodeSys.step] at hs
      split_ifs at hs with hok
      cases hs
      exact h.share hok.2.2 (List.contains_iff_mem.mp hok.2.1) hok.1
  | put ip =>
      simp only [InodeSys.step] at hs
      split_ifs at hs with hok
      cases hs
      exact h.startPut (List.contains_iff_mem.mp hok.2.1) hok.1
  | give u ip =>
      simp only [InodeSys.step] at hs
      split_ifs at hs with hok
      cases hs
      exact h.give (List.contains_iff_mem.mp hok.2) hok.1 u
  | run => exact h.runStep hlay hs

theorem Refs.start (sb : SuperBlock) (m : Disk) (mem : ℕ → SharedInode) :
    Refs sb (InodeSys.start m mem) where
  lock := fun _ => iff_of_false id nofun
  nodup := List.nodup_nil
  nodupHeap := List.nodup_nil
  unique := fun _ hip => absurd hip List.not_mem_nil
  fine := fun _ =>
    ⟨fun hip => absurd hip List.not_mem_nil, fun hip => absurd hip List.not_mem_nil,
      fun hip => absurd hip List.not_mem_nil, fun _ hu => absurd hu List.not_mem_nil, fun hip => absurd hip List.not_mem_nil,
      fun hip => absurd hip List.not_mem_nil, fun _ hu => nomatch hu⟩

/-- A thread that frees an inode has its only reference until the memory is freed. -/
theorem Refs.last_of_dying (h : Refs sb s) (hdying : (s.pc u).dying = some ip) : Last s u ip := by
  cases hq : s.pc u with
  | drop jp =>
      rw [hq] at hdying
      cases hdying
      have hknows := (h.fine ip).threads u (by rw [hq]; rfl)
      rw [hq] at hknows
      exact hknows.1
  | _ =>
      refine (h.last_of_freeing ?_).1
      rw [hq] at hdying ⊢
      exact hdying

theorem Refs.sound (h : Refs sb s) : s.Sound where
  counts := fun ip hin htake => (h.fine ip).counts hin htake
  taken := by
    intro ip _ t htake
    obtain ⟨no, htaken⟩ := (h.fine ip).taken htake
    rw [htaken.rc, htaken.refCount]
    rfl
  unique := h.unique
  kept := fun t ip ht => (h.fine ip).refs t ht

/-- What `inode_get` returns. -/
theorem Refs.returned {i : ℕ × InodeAct} (h : Refs sb s) (hundying : Undying s i)
    (hs : s.step sb i = some s') (hret : s.returns i = some (no, ip)) :
    InodeSys.Returned sb s' no ip := by
  obtain ⟨t, a⟩ := i
  cases a with
  | get no' a =>
      simp only [InodeSys.returns, Option.map_eq_some_iff] at hret
      obtain ⟨jp, hfind, heq⟩ := hret
      cases heq
      obtain ⟨hin, hno, hrc, hfree⟩ := find_some hundying hfind
      simp only [InodeSys.step] at hs
      split_ifs at hs
      rw [InodeSys.getStep, hfind] at hs
      have hok : 0 < no ∧ no < sb.numInodes ∧ s.lock = none := by
        by_contra hnot
        rw [if_neg hnot] at hs
        cases hs
      rw [if_pos hok] at hs
      cases hs
      have hready := (h.fine ip).ready hin hrc (fun u => h.not_taking hok.2.2 u ip) hfree
      rw [InodeSys.Returned, InodeSys.setRefs_mem, InodeSys.setMem_mem_self]
      refine ⟨hno, hready.valid, ?_⟩
      rw [← hno]
      exact hready.entry
  | run =>
      simp only [InodeSys.returns] at hret
      split at hret
      · rename_i jp no' hpc
        cases hret
        have hknows := (h.fine ip).threads t (by rw [hpc]; rfl)
        rw [hpc] at hknows
        simp only [InodeSys.step, InodeSys.runStep, hpc] at hs
        cases hs
        rw [InodeSys.Returned, InodeSys.goto_mem, InodeSys.setRefs_mem, InodeSys.setLock_mem,
          InodeSys.setMem_mem_self]
        refine ⟨hknows.1.inodeNo, hknows.2.valid, ?_⟩
        rw [← hknows.1.inodeNo]
        exact hknows.2.entry
      · cases hret
  | _ => cases hret

end Steps

/-! ## Every run -/

theorem Refs.of_reach {sb : SuperBlock} {m : Disk} {mem : ℕ → SharedInode} {s : InodeSys}
    (hlay : sb.toBlockNo sb.numInodes < sb.bitmapStart)
    (h : Reach (InodeSys.step sb) (fun s i => InodeSys.Legal sb s i ∧ Undying s i)
      (InodeSys.start m mem) s) : Refs sb s :=
  h.invariant (Refs.start sb m mem) fun _ _ _ hrefs hok hs => hrefs.step hlay hok.1 hok.2 hs

/-- **References are sound**, and `inode_get` returns a valid inode with the entry on the disk, in
every run in which it is called for no number that a thread is freeing.  The inode blocks lie before
the bitmap. -/
theorem inode_refs_sound {sb : SuperBlock} {m : Disk} {mem : ℕ → SharedInode} {s : InodeSys}
    (hlay : sb.toBlockNo sb.numInodes < sb.bitmapStart)
    (h : Reach (InodeSys.step sb) (fun s i => InodeSys.Legal sb s i ∧ Undying s i)
      (InodeSys.start m mem) s) :
    s.Sound ∧ ∀ i s' no ip, Undying s i → s.step sb i = some s' → s.returns i = some (no, ip) →
      InodeSys.Returned sb s' no ip := by
  have hrefs := Refs.of_reach hlay h
  exact ⟨hrefs.sound, fun i s' no ip hundying hs hret => hrefs.returned hundying hs hret⟩

/-- Memory before any inode is in it. -/
def InodeSys.noMem : ℕ → SharedInode := fun _ => ⟨none, 0, 0, false, InodeEntry.zero⟩

/-- A test for `InodeSys.Legal`. -/
def legalGet (sb : SuperBlock) (s : InodeSys) : ℕ × InodeAct → Bool
  | (_, .get no _) => decide ((sb.diskEntry s.disk no).type ≠ inodeInvalid)
  | _ => true

/-- A test for `Undying`: who frees an inode has a reference to it. -/
def undyingGet (s : InodeSys) : ℕ × InodeAct → Bool
  | (_, .get no _) => s.refs.all fun r => (s.mem r.2).inodeNo ≠ no || (s.pc r.1).dying.isNone
  | _ => true

theorem legal_of_test {sb : SuperBlock} (s : InodeSys) (i : ℕ × InodeAct)
    (h : legalGet sb s i = true) : InodeSys.Legal sb s i := by
  obtain ⟨t, a⟩ := i
  cases a with
  | get no a =>
      rw [legalGet, decide_eq_true_eq] at h
      exact h
  | _ => trivial

theorem Refs.undying_of_test {sb : SuperBlock} {s : InodeSys} (hrefs : Refs sb s)
    (i : ℕ × InodeAct) (h : undyingGet s i = true) : Undying s i := by
  obtain ⟨t, a⟩ := i
  cases a with
  | get no a =>
      intro u ip hdying heq
      have hmem := List.all_eq_true.mp h (u, ip) (hrefs.last_of_dying hdying).mem_refs
      simp [heq, hdying] at hmem
  | _ => trivial

/-- Threads 0 and 1 have got inode 1, and thread 1 has put it again.  Thread 0 frees it while
`inode_get(2)` of thread 1 is about to return. -/
theorem inode_refs_sound_freeing : ∃ s s', s.Sound ∧ s.pc 0 = .clear 5 1 ∧
    InodeSys.step Mkfs.sb s (1, .run) = some s' ∧ InodeSys.Returned Mkfs.sb s' 2 6 := by
  have hlay : Mkfs.sb.toBlockNo Mkfs.sb.numInodes < Mkfs.sb.bitmapStart := by decide
  have hinit : Reach (InodeSys.step Mkfs.sb) (fun s i => InodeSys.Legal Mkfs.sb s i ∧ Undying s i)
    (InodeSys.start Sample.disk InodeSys.noMem) (InodeSys.start Sample.disk InodeSys.noMem) := .init
  have hrun : (runs (fun s i => if legalGet Mkfs.sb s i && undyingGet s i then
      InodeSys.step Mkfs.sb s i else none) (InodeSys.start Sample.disk InodeSys.noMem)
      [(0, .alloc inodeRegular), (0, .run), (1, .alloc inodeRegular), (1, .run), (1, .run),
        (0, .get 1 5), (0, .run), (0, .run), (0, .run), (1, .get 1 6), (1, .put 5), (1, .run),
        (0, .put 5), (0, .run), (0, .run), (1, .get 2 6), (0, .run), (1, .run), (1, .run)]).map
        (fun s => (s.pc 0, s.pc 1)) = some (.clear 5 1, .loaded 6 2) := by decide +kernel
  obtain ⟨s, hs, hpcs⟩ := Option.map_eq_some_iff.mp hrun
  obtain ⟨hclear, hpc⟩ := Prod.mk.inj hpcs
  have hreach := hinit.of_checked ?_ _ hs
  · obtain ⟨hsound, hreturned⟩ := inode_refs_sound hlay hreach
    obtain ⟨s', hstep⟩ : ∃ s', InodeSys.step Mkfs.sb s (1, .run) = some s' :=
      ⟨_, by rw [InodeSys.step, InodeSys.runStep, hpc]⟩
    have hret : s.returns (1, .run) = some (2, 6) := by simp only [InodeSys.returns, hpc]
    exact ⟨s, s', hsound, hclear, hstep, hreturned (1, .run) s' 2 6 trivial hstep hret⟩
  · intro r i hr htest
    rw [Bool.and_eq_true] at htest
    exact ⟨legal_of_test r i htest.1, (Refs.of_reach hlay hr).undying_of_test i htest.2⟩

/-- **A reference to a freed inode.**  Thread 0 puts its last reference to inode 1, which has no
links, and begins to free the blocks.  Thread 1 gets the inode, which is still allocated on the
disk, and finds it in the list.  Thread 0 unlinks the inode and frees its memory. -/
theorem put_frees_shared : ∃ s,
    Reach (InodeSys.step Mkfs.sb) (InodeSys.Legal Mkfs.sb)
      (InodeSys.start Sample.disk InodeSys.noMem) s ∧
    (1, 5) ∈ s.refs ∧ 5 ∉ s.heap ∧ ¬ s.Sound := by
  have hinit : Reach (InodeSys.step Mkfs.sb) (InodeSys.Legal Mkfs.sb)
    (InodeSys.start Sample.disk InodeSys.noMem) (InodeSys.start Sample.disk InodeSys.noMem) := .init
  have hrun : (runs (fun s i => if legalGet Mkfs.sb s i then InodeSys.step Mkfs.sb s i else none)
      (InodeSys.start Sample.disk InodeSys.noMem) ([(0, .alloc inodeRegular), (0, .run),
        (0, .get 1 5), (0, .run), (0, .run), (0, .run), (0, .put 5), (0, .run), (0, .run),
        (1, .get 1 6)] ++ List.replicate 18 (0, .run))).map (fun s => (s.refs, s.heap)) =
      some ([(1, 5)], []) := by decide +kernel
  obtain ⟨s, hs, heq⟩ := Option.map_eq_some_iff.mp hrun
  obtain ⟨hrefs, hheap⟩ := Prod.mk.inj heq
  have hmem : (1, 5) ∈ s.refs := by
    rw [hrefs]
    exact List.mem_singleton.mpr rfl
  have hout : 5 ∉ s.heap := by
    rw [hheap]
    exact List.not_mem_nil
  exact ⟨s, hinit.of_tested legal_of_test _ hs, hmem, hout,
    fun hsound => hout (hsound.kept 1 5 hmem).2⟩

end OsLab
