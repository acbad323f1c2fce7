import OsLab.Fs.InodeRefs

/-!
# Putting references

`inode_put` keeps the invariant.  The thread that puts the last reference to an inode without links
is the only one that works on it until its memory is freed, and the blocks that it changes hold no
other inode.
-/

namespace OsLab

section Steps

variable {sb : SuperBlock} {s s' : InodeSys} {t u ip jp no : ℕ}

/-- `inode_put` starts. -/
theorem Refs.startPut (h : Refs sb s) (ht : (t, ip) ∈ s.refs) (hidle : s.pc t = .idle) :
    Refs sb (s.goto t (.put ip)) := by
  obtain ⟨hin, hput⟩ := h.idle_ref ht hidle
  have hothers : ∀ u, u ≠ t → (s.goto t (.put ip)).pc u = s.pc u := fun u hut =>
    s.goto_pc_of_ne t u _ hut
  have hpc : (s.goto t (.put ip)).pc t = .put ip := s.goto_pc_self t _
  have hm : Moves sb s (s.goto t (.put ip)) t ip :=
    .quiet hothers (hidle ▸ InodePc.on_idle ip) (InodePc.on_of_inode (by rw [hpc]; rfl))
      (fun _ _ => rfl) (Or.inl rfl) rfl rfl rfl
  obtain ⟨htake, hfree⟩ := h.idle_free ht hidle
  refine h.kept hm (lock_same h hothers rfl (by rw [hpc, hidle]; exact Iff.rfl)) hin rfl rfl rfl id
    ?_ ?_ ?_
  · intro _
    exact (h.fine ip).counts ((h.fine ip).heap hin) htake
  · intro hrc _
    exact ((h.fine ip).ready hin hrc htake hfree).congr rfl rfl rfl rfl
  · intro u hu
    by_cases hut : u = t
    · rw [hut, hpc]
      exact ht
    · rw [hothers u hut] at hu ⊢
      rw [(hput u hu).1]
      exact (hput u hu).2

/-- **One reference less**, which is not the last, or the inode has links. -/
theorem Refs.fewer (h : Refs sb s) (hnone : s.lock = none) (hpc : s.pc t = .put ip) :
    Refs sb (((s.setMem ip { s.mem ip with rc := (s.mem ip).rc - 1 }).setRefs
      (s.refs.erase (t, ip))).goto t .idle) := by
  have hmine : (s.pc t).inode = some ip := by rw [hpc]; rfl
  have ht : (t, ip) ∈ s.refs := by
    have hknows := (h.fine ip).threads t hmine
    rw [hpc] at hknows
    exact hknows
  have hin : ip ∈ s.head := ((h.fine ip).refs t ht).1.resolve_right (by rw [hpc]; exact nofun)
  have htake := fun u => h.not_taking hnone u ip
  have hfree : ∀ u, (s.pc u).freeing ≠ some ip := by
    intro u hfree
    have hut := (h.last_of_freeing hfree).1.alone h hmine
    rw [← hut, hpc] at hfree
    cases hfree
  have hcount : s.refs.countP (fun r => r.2 = ip) =
      (s.refs.erase (t, ip)).countP (fun r => r.2 = ip) + 1 := by
    rw [countP_erase_ref ht, if_pos rfl]
  generalize hs' : ((s.setMem ip { s.mem ip with rc := (s.mem ip).rc - 1 }).setRefs
    (s.refs.erase (t, ip))).goto t .idle = s'
  have hmem : s'.mem ip = { s.mem ip with rc := (s.mem ip).rc - 1 } := by
    rw [← hs', InodeSys.goto_mem, InodeSys.setRefs_mem, InodeSys.setMem_mem_self]
  have hothers : ∀ u, u ≠ t → s'.pc u = s.pc u := by
    intro u hut
    rw [← hs', InodeSys.goto_pc_of_ne _ _ _ _ hut]
    rfl
  have hidle : s'.pc t = .idle := by rw [← hs', InodeSys.goto_pc_self]
  obtain ⟨hlock, hhead, hheap, hdisk, hrefs⟩ : s'.lock = s.lock ∧ s'.head = s.head ∧
      s'.heap = s.heap ∧ s'.disk = s.disk ∧ s'.refs = s.refs.erase (t, ip) := by
    subst hs'
    exact ⟨rfl, rfl, rfl, rfl, rfl⟩
  have hm : Moves sb s s' t ip := by
    refine .quiet hothers ?_ ?_ ?_ (Or.inr (Or.inr ⟨ht, hrefs⟩)) hhead hheap hdisk
    · exact InodePc.on_of_inode hmine
    · exact hidle ▸ InodePc.on_idle ip
    · intro jp hne
      rw [← hs']
      exact s.setMem_mem_of_ne _ _ _ hne
  have hpos : 0 < (s'.mem ip).rc → 0 < (s.mem ip).rc := by
    intro hrc
    rw [hmem] at hrc
    simp only at hrc
    omega
  refine h.kept hm (lock_same h hothers hlock (by rw [hidle, hpc]; exact Iff.rfl)) hin hhead hheap
    (by rw [hmem]) hpos ?_ ?_ ?_
  · intro _
    have hrc := (h.fine ip).counts ((h.fine ip).heap hin) htake
    rw [InodeSys.refCount] at hrc
    rw [hmem, InodeSys.refCount, hrefs]
    simp only
    omega
  · intro hrc _
    exact ((h.fine ip).ready hin (hpos hrc) htake hfree).congr (by rw [hmem]) (by rw [hmem])
      (by rw [hmem]) hdisk
  · intro u hu
    have hut : u ≠ t := by
      rintro rfl
      rw [hidle] at hu
      cases hu
    rw [hothers u hut] at hu ⊢
    obtain ⟨hput, hother⟩ := h.pc_put hnone hin hfree hu
    rw [hput, Knows, hrefs]
    exact (List.mem_erase_of_ne fun heq => hut (congrArg Prod.fst heq)).mpr hother

/-- `inode_put` of the last reference keeps the spinlock until it has the lock of the inode. -/
theorem Refs.lastPut (h : Refs sb s) (hnone : s.lock = none) (hpc : s.pc t = .put ip)
    (hrc : (s.mem ip).rc = 1) : Refs sb ((s.setLock (some t)).goto t (.putLock ip)) := by
  have hmine : (s.pc t).inode = some ip := by rw [hpc]; rfl
  have ht : (t, ip) ∈ s.refs := by
    have hknows := (h.fine ip).threads t hmine
    rw [hpc] at hknows
    exact hknows
  have hin : ip ∈ s.head := ((h.fine ip).refs t ht).1.resolve_right (by rw [hpc]; exact nofun)
  have htake := fun u => h.not_taking hnone u ip
  have hlast : Last s t ip := by
    refine ⟨ht, ?_⟩
    have hcounts := (h.fine ip).counts ((h.fine ip).heap hin) htake
    rw [hrc] at hcounts
    exact (Nat.cast_eq_one.mp hcounts.symm)
  have hfree : ∀ u, (s.pc u).freeing ≠ some ip := by
    intro u hfree
    rw [hlast.alone h (InodePc.inode_of_freeing hfree), hpc] at hfree
    cases hfree
  generalize hs' : (s.setLock (some t)).goto t (.putLock ip) = s'
  have hothers : ∀ u, u ≠ t → s'.pc u = s.pc u := by
    intro u hut
    rw [← hs', InodeSys.goto_pc_of_ne _ _ _ _ hut]
    rfl
  have hput : s'.pc t = .putLock ip := by rw [← hs', InodeSys.goto_pc_self]
  obtain ⟨hlock, hhead, hheap, hdisk, hrefs, hmem⟩ : s'.lock = some t ∧ s'.head = s.head ∧
      s'.heap = s.heap ∧ s'.disk = s.disk ∧ s'.refs = s.refs ∧ s'.mem = s.mem := by
    subst hs'
    exact ⟨rfl, rfl, rfl, rfl, rfl, rfl⟩
  have hcount : s'.refCount ip = s.refCount ip := by rw [InodeSys.refCount, hrefs, InodeSys.refCount]
  have hm : Moves sb s s' t ip := by
    refine .quiet hothers ?_ ?_ (fun jp _ => by rw [hmem]) (Or.inl hrefs) hhead hheap hdisk
    · exact InodePc.on_of_inode hmine
    · exact InodePc.on_of_inode (by rw [hput]; rfl)
  refine h.kept hm (lock_acquired h hothers hnone hlock (by rw [hput]; trivial)) hin hhead hheap
    (by rw [hmem]) (by rw [hmem]; exact id) ?_ ?_ ?_
  · intro _
    rw [hmem, hcount]
    exact (h.fine ip).counts ((h.fine ip).heap hin) htake
  · intro hpos _
    rw [hmem] at hpos
    exact ((h.fine ip).ready hin hpos htake hfree).congr (by rw [hmem]) (by rw [hmem])
      (by rw [hmem]) hdisk
  · intro u hu
    by_cases hut : u = t
    · rw [hut, hput]
      exact ⟨⟨hrefs ▸ ht, hcount.trans hlast.refCount⟩, hhead ▸ hin⟩
    · rw [hothers u hut] at hu
      exact absurd (hlast.alone h hu) hut

theorem knows_of_freeing {q : InodePc} (hq : q.freeing = some ip) (hl : Last s t ip)
    (hin : ip ∈ s.head) : Knows sb s t q := by
  cases q
  all_goals cases hq
  all_goals exact ⟨hl, hin⟩

/-- **A step of a thread that is freeing its inode.** -/
theorem Refs.freeing (h : Refs sb s) (hl : Last s t ip) (hin : ip ∈ s.head)
    (hm : Moves sb s s' t ip) (hfree : (s'.pc t).freeing = some ip) (hrefs : s'.refs = s.refs)
    (hhead : s'.head = s.head) (hheap : s'.heap = s.heap)
    (hrc : (s'.mem ip).rc = (s.mem ip).rc) (hno : (s'.mem ip).inodeNo = (s.mem ip).inodeNo)
    (hlock : ∀ u, (s'.pc u).Locking ↔ s'.lock = some u) : Refs sb s' := by
  have hcount : s'.refCount ip = s.refCount ip := by rw [InodeSys.refCount, hrefs, InodeSys.refCount]
  have hl' : Last s' t ip := ⟨hrefs ▸ hl.mem_refs, hcount.trans hl.refCount⟩
  have hin' : ip ∈ s'.head := hhead ▸ hin
  refine h.kept hm hlock hin hhead hheap hno (by rw [hrc]; exact id) ?_ ?_ ?_
  · intro _
    rw [hrc, hl.rc h hin, hl'.refCount]
    rfl
  · intro _ hnot
    exact absurd hfree (hnot t)
  · intro u hu
    by_cases hut : u = t
    · rw [hut]
      exact knows_of_freeing hfree hl' hin'
    · rw [hm.pc u hut] at hu
      exact absurd (hl.alone h hu) hut

/-- A step of a thread that is freeing its inode, by what it does to the blocks. -/
theorem Refs.frees (h : Refs sb s) (hl : Last s t ip) (hin : ip ∈ s.head)
    (hbefore : (s.pc t).inode = some ip) (hfree : (s'.pc t).freeing = some ip)
    (hpc : ∀ u, u ≠ t → s'.pc u = s.pc u) (hmem : ∀ jp, jp ≠ ip → s'.mem jp = s.mem jp)
    (hrc : (s'.mem ip).rc = (s.mem ip).rc) (hno : (s'.mem ip).inodeNo = (s.mem ip).inodeNo)
    (hsame : s'.refs = s.refs ∧ s'.head = s.head ∧ s'.heap = s.heap)
    (hdisk : ∀ no, no < sb.numInodes → no ≠ (s.mem ip).inodeNo →
      sb.diskEntry s'.disk no = sb.diskEntry s.disk no)
    (hlock : ∀ u, (s'.pc u).Locking ↔ s'.lock = some u) : Refs sb s' := by
  obtain ⟨hrefs, hhead, hheap⟩ := hsame
  refine h.freeing hl hin ?_ hfree hrefs hhead hheap hrc hno hlock
  refine ⟨hpc, InodePc.on_of_inode hbefore,
    InodePc.on_of_inode (InodePc.inode_of_freeing hfree), hmem, fun u jp _ => by rw [hrefs],
    fun jp _ => by rw [InodeSys.refCount, hrefs, InodeSys.refCount], fun jp _ => by rw [hhead],
    fun jp _ => by rw [hheap], ?_⟩
  intro jp hjp hne hrcj _
  refine hdisk _ ((h.fine jp).range hjp hrcj) fun heq => hne ?_
  refine h.unique jp ((h.fine jp).heap hjp) ip ((h.fine ip).heap hin) hrcj ?_ heq
  rw [hl.rc h hin]
  decide

/-- The bits lie after the entries. -/
theorem diskEntry_cacheFree {m m' : Disk} {b : ℕ}
    (hlay : sb.toBlockNo sb.numInodes < sb.bitmapStart) (hno : no < sb.numInodes)
    (hfree : cacheFree sb m b = some m') : sb.diskEntry m' no = sb.diskEntry m no := by
  rw [cacheFree] at hfree
  split_ifs at hfree
  cases hfree
  refine SuperBlock.diskEntry_congr (Function.update_of_ne ?_ _ _)
  simp only [SuperBlock.toBlockNo, SuperBlock.bblock, inodePerBlock_eq, bitPerBlock_eq] at hlay ⊢
  omega

/-- `inode_sync` touches the entry of its inode only. -/
theorem sync_eq (sb : SuperBlock) (s : InodeSys) (ip : ℕ) (doWrite : Bool) : ∃ valid e m,
    s.sync sb ip doWrite =
      { s.setMem ip { s.mem ip with valid := valid, entry := e } with disk := m } ∧
    ∀ no, no ≠ (s.mem ip).inodeNo → sb.diskEntry m no = sb.diskEntry s.disk no := by
  rcases hsync : inodeSync sb s.disk (s.mem ip).inodeNo (s.mem ip).valid (s.mem ip).entry doWrite with
    ⟨valid, e, m⟩
  refine ⟨valid, e, m, by simp only [InodeSys.sync, hsync], ?_⟩
  intro no hne
  rw [inodeSync] at hsync
  split_ifs at hsync
  all_goals cases hsync
  · exact SuperBlock.diskEntry_putDiskEntry_of_ne hne
  · rfl
  · rfl

/-- A step that frees: only the entry of the inode and blocks that hold no other entry change. -/
theorem Refs.freeStep (h : Refs sb s) (hfreeing : (s.pc t).freeing = some ip) {q : InodePc}
    {x : SharedInode} {m : Disk} (hq : q.freeing = some ip) (hrc : x.rc = (s.mem ip).rc)
    (hno : x.inodeNo = (s.mem ip).inodeNo)
    (hdisk : ∀ no, no < sb.numInodes → no ≠ (s.mem ip).inodeNo →
      sb.diskEntry m no = sb.diskEntry s.disk no) :
    Refs sb ({ s.setMem ip x with disk := m }.goto t q) := by
  obtain ⟨hl, hin⟩ := h.last_of_freeing hfreeing
  generalize hs' : { s.setMem ip x with disk := m }.goto t q = s'
  have hmem : s'.mem ip = x := by
    rw [← hs', InodeSys.goto_mem]
    exact s.setMem_mem_self _ _
  have hothers : ∀ u, u ≠ t → s'.pc u = s.pc u := by
    intro u hut
    rw [← hs', InodeSys.goto_pc_of_ne _ _ _ _ hut]
    rfl
  have hpc : s'.pc t = q := by rw [← hs', InodeSys.goto_pc_self]
  obtain ⟨hlock, hsame, hdisk'⟩ : s'.lock = s.lock ∧
      (s'.refs = s.refs ∧ s'.head = s.head ∧ s'.heap = s.heap) ∧ s'.disk = m := by
    subst hs'
    exact ⟨rfl, ⟨rfl, rfl, rfl⟩, rfl⟩
  refine h.frees hl hin (InodePc.inode_of_freeing hfreeing) (by rw [hpc]; exact hq) hothers ?_
    (by rw [hmem]; exact hrc) (by rw [hmem]; exact hno) hsame (hdisk' ▸ hdisk)
    (lock_same h hothers hlock ?_)
  · intro jp hne
    rw [← hs']
    exact s.setMem_mem_of_ne _ _ _ hne
  · rw [hpc]
    exact iff_of_false (InodePc.not_locking_of_freeing hq)
      (InodePc.not_locking_of_freeing hfreeing)

/-- It goes on. -/
theorem Refs.freeGoto (h : Refs sb s) (hfreeing : (s.pc t).freeing = some ip) {q : InodePc}
    (hq : q.freeing = some ip) : Refs sb (s.goto t q) := by
  have hstep := h.freeStep (x := s.mem ip) (m := s.disk) hfreeing hq rfl rfl fun _ _ _ => rfl
  simp only [InodeSys.setMem_self] at hstep
  exact hstep

theorem free_some {b : ℕ} {s₁ : InodeSys} (hs : s.free sb b = some s₁) :
    ∃ m, cacheFree sb s.disk b = some m ∧ s₁ = { s with disk := m } := by
  obtain ⟨m, hm, rfl⟩ := Option.map_eq_some_iff.mp hs
  exact ⟨m, hm, rfl⟩

/-- The loops of `inode_clear`. -/
theorem Refs.clearStep {k : ℕ} (hlay : sb.toBlockNo sb.numInodes < sb.bitmapStart) (h : Refs sb s)
    (hfreeing : (s.pc t).freeing = some ip) (hs : s.clearStep sb t ip k = some s') :
    Refs sb s' := by
  simp only [InodeSys.clearStep] at hs
  split_ifs at hs
  · cases hs
    exact h.freeGoto hfreeing rfl
  · obtain ⟨s₁, hs₁, rfl⟩ := Option.map_eq_some_iff.mp hs
    obtain ⟨m, hm, rfl⟩ := free_some hs₁
    exact h.freeStep hfreeing rfl rfl rfl fun no hno _ => diskEntry_cacheFree hlay hno hm
  · cases hs
    exact h.freeGoto hfreeing rfl
  · cases hs
    exact h.freeGoto hfreeing rfl

theorem Refs.tableStep {k : ℕ} (hlay : sb.toBlockNo sb.numInodes < sb.bitmapStart) (h : Refs sb s)
    (hfreeing : (s.pc t).freeing = some ip) (hs : s.tableStep sb t ip k = some s') :
    Refs sb s' := by
  simp only [InodeSys.tableStep] at hs
  split_ifs at hs
  · cases hs
    exact h.freeGoto hfreeing rfl
  · obtain ⟨s₁, hs₁, rfl⟩ := Option.map_eq_some_iff.mp hs
    obtain ⟨m, hm, rfl⟩ := free_some hs₁
    have hstep := h.freeStep (x := s.mem ip) (q := .table ip (k + 1)) hfreeing rfl rfl rfl
      fun no hno _ => diskEntry_cacheFree hlay hno hm
    simp only [InodeSys.setMem_self] at hstep
    exact hstep
  · obtain ⟨s₁, hs₁, rfl⟩ := Option.map_eq_some_iff.mp hs
    obtain ⟨m, hm, rfl⟩ := free_some hs₁
    exact h.freeStep hfreeing rfl rfl rfl fun no hno _ => diskEntry_cacheFree hlay hno hm

/-- Writing the entry back. -/
theorem Refs.writeBack (h : Refs sb s) (hfreeing : (s.pc t).freeing = some ip) {q : InodePc}
    (hq : q.freeing = some ip) (e : InodeEntry) :
    Refs sb (((s.setEntry ip e).sync sb ip true).goto t q) := by
  obtain ⟨valid, e', m, hsync, hdisk⟩ := sync_eq sb (s.setEntry ip e) ip true
  have hself : (s.setEntry ip e).mem ip = { s.mem ip with entry := e } := s.setMem_mem_self _ _
  rw [hself] at hsync hdisk
  have htwice : ∀ x, (s.setEntry ip e).setMem ip x = s.setMem ip x := by
    intro x
    rw [InodeSys.setEntry, InodeSys.setMem, InodeSys.setMem, Function.update_idem]
    rfl
  rw [hsync, htwice]
  exact h.freeStep hfreeing hq rfl rfl fun no _ hne => hdisk no hne

/-- The inode is unlinked. -/
theorem Refs.detach (h : Refs sb s) (hpc : s.pc t = .detach ip) :
    Refs sb ({ s with head := s.head.erase ip }.goto t (.drop ip)) := by
  have hfree : (s.pc t).freeing = some ip := by rw [hpc]; rfl
  obtain ⟨hlast, hin⟩ := h.last_of_freeing hfree
  generalize hs' : { s with head := s.head.erase ip }.goto t (.drop ip) = s'
  have hothers : ∀ u, u ≠ t → s'.pc u = s.pc u := by
    intro u hut
    rw [← hs', InodeSys.goto_pc_of_ne _ _ _ _ hut]
  have hdrop : s'.pc t = .drop ip := by rw [← hs', InodeSys.goto_pc_self]
  obtain ⟨hlock, hhead, hheap, hrefs, hmem, hdisk⟩ : s'.lock = s.lock ∧
      s'.head = s.head.erase ip ∧ s'.heap = s.heap ∧ s'.refs = s.refs ∧ s'.mem = s.mem ∧
      s'.disk = s.disk := by
    subst hs'
    exact ⟨rfl, rfl, rfl, rfl, rfl, rfl⟩
  have hout : ip ∉ s'.head := by
    rw [hhead]
    exact h.nodup.not_mem_erase
  have hcount : ∀ jp, s'.refCount jp = s.refCount jp := fun jp => by
    rw [InodeSys.refCount, hrefs, InodeSys.refCount]
  have hm : Moves sb s s' t ip := by
    refine ⟨hothers, ?_, ?_, fun jp _ => by rw [hmem], fun u jp _ => by rw [hrefs],
      fun jp _ => hcount jp, fun jp hne => ?_, fun jp _ => by rw [hheap],
      fun jp _ _ _ _ => by rw [hdisk]⟩
    · exact InodePc.on_of_inode (by rw [hpc]; rfl)
    · exact InodePc.on_of_inode (by rw [hdrop]; rfl)
    · rw [hhead]
      exact List.mem_erase_of_ne hne
  have hrc := hlast.rc h hin
  refine h.moves hm (lock_same h hothers hlock (by rw [hdrop, hpc]; exact Iff.rfl))
    (hhead ▸ h.nodup.erase ip) (hheap ▸ h.nodupHeap) ?_ ?_
  · intro jp hjp hne _ hpos hrcj heq
    rw [hmem] at hpos heq
    exact hne (h.unique jp hjp ip ((h.fine ip).heap hin) hrcj hpos heq.symm)
  constructor
  · exact fun hip => absurd hip hout
  · exact fun _ => Or.inr ⟨t, hdrop⟩
  · exact fun hip => absurd hip hout
  · intro u hu
    rw [hrefs] at hu
    have hut := InodeSys.eq_of_refCount_one hlast.refCount hlast.mem_refs hu
    exact ⟨Or.inr (hut ▸ hdrop), hheap ▸ (h.fine ip).heap hin⟩
  · intro _ _
    rw [hmem, hcount, hrc, hlast.refCount]
    rfl
  · exact fun hip => absurd hip hout
  · intro u hu
    by_cases hut : u = t
    · rw [hut, hdrop]
      exact ⟨⟨hrefs ▸ hlast.mem_refs, (hcount ip).trans hlast.refCount⟩, hout⟩
    · rw [hothers u hut] at hu
      exact absurd (hlast.alone h hu) hut

/-- The reference is dropped and the memory freed. -/
theorem Refs.drop (h : Refs sb s) (hpc : s.pc t = .drop ip) :
    Refs sb ({ s.setMem ip { s.mem ip with rc := (s.mem ip).rc - 1 } with
      heap := s.heap.erase ip
      refs := s.refs.erase (t, ip) }.goto t .idle) := by
  have hmine : (s.pc t).inode = some ip := by rw [hpc]; rfl
  have hknows := (h.fine ip).threads t hmine
  rw [hpc] at hknows
  obtain ⟨hlast, hout⟩ := hknows
  generalize hs' : { s.setMem ip { s.mem ip with rc := (s.mem ip).rc - 1 } with
    heap := s.heap.erase ip
    refs := s.refs.erase (t, ip) }.goto t .idle = s'
  have hothers : ∀ u, u ≠ t → s'.pc u = s.pc u := by
    intro u hut
    rw [← hs', InodeSys.goto_pc_of_ne _ _ _ _ hut]
    rfl
  have hidle : s'.pc t = .idle := by rw [← hs', InodeSys.goto_pc_self]
  obtain ⟨hlock, hhead, hheap, hrefs, hdisk⟩ : s'.lock = s.lock ∧ s'.head = s.head ∧
      s'.heap = s.heap.erase ip ∧ s'.refs = s.refs.erase (t, ip) ∧ s'.disk = s.disk := by
    subst hs'
    exact ⟨rfl, rfl, rfl, rfl, rfl⟩
  have hout' : ip ∉ s'.head := hhead ▸ hout
  have hfreed : ip ∉ s'.heap := hheap ▸ h.nodupHeap.not_mem_erase
  have hm : Moves sb s s' t ip := by
    refine ⟨hothers, ?_, ?_, ?_, ?_, ?_, fun jp _ => by rw [hhead], ?_,
      fun jp _ _ _ _ => by rw [hdisk]⟩
    · exact InodePc.on_of_inode hmine
    · exact hidle ▸ InodePc.on_idle ip
    · intro jp hne
      rw [← hs']
      exact s.setMem_mem_of_ne _ _ _ hne
    · intro u jp hne
      rw [hrefs]
      exact mem_erase_ref hne
    · intro jp hne
      rw [InodeSys.refCount, InodeSys.refCount, hrefs, countP_erase_ref hlast.mem_refs, if_neg hne,
        Nat.add_zero]
    · intro jp hne
      rw [hheap]
      exact List.mem_erase_of_ne hne
  refine h.moves hm (lock_same h hothers hlock (by rw [hidle, hpc]; exact Iff.rfl))
    (hhead ▸ h.nodup) (hheap ▸ h.nodupHeap.erase ip) (fun _ _ _ hip => absurd hip hfreed) ?_
  constructor
  · exact fun hip => absurd hip hout'
  · exact fun hip => absurd hip hfreed
  · exact fun hip => absurd hip hout'
  · intro u hu
    have hpos : 0 < s'.refCount ip := InodeSys.refCount_pos hu
    have hone := hlast.refCount
    rw [InodeSys.refCount, countP_erase_ref hlast.mem_refs, if_pos rfl] at hone
    rw [InodeSys.refCount, hrefs] at hpos
    omega
  · exact fun hip => absurd hip hfreed
  · exact fun hip => absurd hip hout'
  · intro u hu
    by_cases hut : u = t
    · rw [hut, hidle] at hu
      cases hu
    · rw [hothers u hut] at hu
      exact absurd (hlast.alone h hu) hut

end Steps

end OsLab
