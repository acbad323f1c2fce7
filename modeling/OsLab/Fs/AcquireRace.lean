import OsLab.Fs.BlockLock
import OsLab.Lib.Run

/-!
# Held blocks, over all interleavings

`Sound` is the invariant of the cache under any number of threads, in runs whose
steps are all orderly: every cached block is as `BlockOk` has it, and a number
whose block is not pinned has its content on disk, unless it is dirty: changed by
its holder and not synced yet.  It gives `AcqSys.Keeps`.

Two interleavings are not orderly, and each breaks `Keeps`.  `cache_release`
clears `acquired` although another thread may be waiting for the block, so the
block can be taken over while that thread holds it (`taken_over`).  And a thread
that finds a block cached may get its lock before the thread that has just taken
the block from another number has read it.

## Main definitions

* `Sound`, `Sound.step` — the invariant, kept by every orderly step.
* `orderly_keeps` — the result over runs.
-/

namespace OsLab

/-- The invariant of orderly runs. -/
structure Sound (dirty : ℕ → Bool) (s : AcqSys) : Prop where
  nodup : s.cache.head.Nodup
  lt_brk : ∀ p ∈ s.cache.head, p < s.cache.brk
  inj : ∀ p ∈ s.cache.head, ∀ q ∈ s.cache.head,
    (s.cache.mem p).blockNo = (s.cache.mem q).blockNo → p = q
  block : ∀ p ∈ s.cache.head,
    BlockOk s.cur (s.cache.mem p) (fun u => (s.pc u).role p) (fun u => s.hold u p)
  outside : ∀ p, p ∉ s.cache.head → ∀ u, (s.pc u).role p = .none ∧ s.hold u p = none
  clean : ∀ b, dirty b = false →
    (∀ p ∈ s.cache.head, (s.cache.mem p).blockNo = b → (s.cache.mem p).pinned = false) →
    s.cur b = s.cache.disk b

variable {dirty dirty' : ℕ → Bool} {s s' : AcqSys} {t u p q b : ℕ} {d : Sector}

/-- The step may load the block with this number from the device. -/
def AcqSys.Loads (s : AcqSys) : ℕ × AcqAct → ℕ → Prop
  | (_, .acquire b), c => c = b
  | (t, .run), c => ∃ p, s.pc t = .reading p c
  | _, _ => False

/-- The number is not dirty, or somebody holds its block. -/
def AcqSys.Loadable (s : AcqSys) (dirty : ℕ → Bool) (b : ℕ) : Prop :=
  dirty b = true → ∃ t p d, s.hold t p = some (b, d)

/-- The roles in a block after one thread has moved. -/
theorem role_update (pc : ℕ → AcqPc) (t p : ℕ) (r : AcqPc) :
    (fun u => (Function.update pc t r u).role p) =
      Function.update (fun u => (pc u).role p) t (r.role p) := by
  funext u
  by_cases hu : u = t
  · simp [hu]
  · simp [hu]

/-- The holders of a block after one thread has acquired or released it. -/
theorem hold_update (hold : ℕ → ℕ → Option (ℕ × Sector)) (t p : ℕ) (x : Option (ℕ × Sector)) :
    (fun u => Function.update hold t (Function.update (hold t) p x) u p) =
      Function.update (fun u => hold u p) t x := by
  funext u
  by_cases hu : u = t
  · simp [hu]
  · simp [hu]

theorem hold_update_of_ne (hold : ℕ → ℕ → Option (ℕ × Sector)) (t u : ℕ)
    (x : Option (ℕ × Sector)) (hq : q ≠ p) :
    Function.update hold t (Function.update (hold t) p x) u q = hold u q := by
  by_cases hu : u = t
  · simp [hu, hq]
  · simp [hu]

/-- A point that has to do with `p` has no part in another block. -/
def AcqPc.About (p : ℕ) (r : AcqPc) : Prop := ∀ q, q ≠ p → r.role q = .none

theorem AcqPc.about_idle : AcqPc.idle.About p := fun _ _ => rfl

/-- A thread has a part in one block at most. -/
theorem AcqPc.about_of_role {r : AcqPc} (h : r.role p ≠ .none) : r.About p := by
  intro q hq
  cases r
  all_goals grind [AcqPc.role]

theorem AcqPc.eq_of_asleep {r : AcqPc} (h : (r.role p).asleep = true) :
    (∃ b, r = .hitAsleep p b) ∨ ∃ b, r = .evictAsleep p b := by
  cases r
  all_goals grind [AcqPc.role, Role.asleep]

theorem role_update_of_about {pc : ℕ → AcqPc} {r : AcqPc} (ht : (pc t).About p) (hr : r.About p)
    (hq : q ≠ p) : (Function.update pc t r u).role q = (pc u).role q := by
  by_cases hu : u = t
  · rw [hu, Function.update_self, ht q hq, hr q hq]
  · rw [Function.update_of_ne hu]

namespace Sound

/-- **A step that concerns one cached block.** -/
theorem of_block (h : Sound dirty s) (hp : p ∈ s.cache.head)
    (hhead : s'.cache.head.Perm s.cache.head) (hbrk : s'.cache.brk = s.cache.brk)
    (hmem : ∀ q, q ≠ p → s'.cache.mem q = s.cache.mem q)
    (hno : ∀ q ∈ s.cache.head, q ≠ p → (s.cache.mem q).blockNo ≠ (s'.cache.mem p).blockNo)
    (hrole : ∀ q, q ≠ p → ∀ u, (s'.pc u).role q = (s.pc u).role q)
    (hhold : ∀ q, q ≠ p → ∀ u, s'.hold u q = s.hold u q)
    (hcur : ∀ c, c ≠ (s'.cache.mem p).blockNo → s'.cur c = s.cur c)
    (hclean : ∀ b, dirty' b = false → (∀ q ∈ s.cache.head, (s'.cache.mem q).blockNo = b →
      (s'.cache.mem q).pinned = false) → s'.cur b = s'.cache.disk b)
    (hblock : BlockOk s'.cur (s'.cache.mem p) (fun u => (s'.pc u).role p)
      (fun u => s'.hold u p)) : Sound dirty' s' := by
  constructor
  · exact hhead.nodup_iff.mpr h.nodup
  · intro q hq
    rw [hbrk]
    exact h.lt_brk q (hhead.mem_iff.mp hq)
  · intro q hq r hr hqr
    have hq' := hhead.mem_iff.mp hq
    have hr' := hhead.mem_iff.mp hr
    by_cases hqp : q = p
    · by_cases hrp : r = p
      · rw [hqp, hrp]
      · rw [hqp, hmem r hrp] at hqr
        exact absurd hqr.symm (hno r hr' hrp)
    · by_cases hrp : r = p
      · rw [hrp, hmem q hqp] at hqr
        exact absurd hqr (hno q hq' hqp)
      · rw [hmem q hqp, hmem r hrp] at hqr
        exact h.inj q hq' r hr' hqr
  · intro q hq
    have hq' := hhead.mem_iff.mp hq
    by_cases hqp : q = p
    · rw [hqp]
      exact hblock
    · simp only [hrole q hqp, hhold q hqp, hmem q hqp]
      refine { h.block q hq' with loaded := ?_ }
      intro hl
      rw [hcur _ (hno q hq' hqp)]
      exact (h.block q hq').loaded hl
  · intro q hq u
    have hq' : q ∉ s.cache.head := fun hmem => hq (hhead.mem_iff.mpr hmem)
    have hqp : q ≠ p := by
      rintro rfl
      exact hq' hp
    rw [hrole q hqp, hhold q hqp]
    exact h.outside q hq' u
  · intro b hd hb
    exact hclean b hd fun q hq => hb q (hhead.mem_iff.mpr hq)

/-- The numbers of the other cached blocks are different. -/
theorem no_ne (h : Sound dirty s) (hp : p ∈ s.cache.head) :
    ∀ q ∈ s.cache.head, q ≠ p → (s.cache.mem q).blockNo ≠ (s.cache.mem p).blockNo :=
  fun q hq hqp hno => hqp (h.inj q hq p hp hno)

/-- A step that leaves the number of one block and its pin alone. -/
theorem of_set (h : Sound dirty s) (hp : p ∈ s.cache.head) {blk : Block} {pc' : ℕ → AcqPc}
    {hold' : ℕ → ℕ → Option (ℕ × Sector)} (hno : blk.blockNo = (s.cache.mem p).blockNo)
    (hpin : blk.pinned = (s.cache.mem p).pinned)
    (hrole : ∀ q, q ≠ p → ∀ u, (pc' u).role q = (s.pc u).role q)
    (hhold : ∀ q, q ≠ p → ∀ u, hold' u q = s.hold u q)
    (hblock : BlockOk s.cur blk (fun u => (pc' u).role p) (fun u => hold' u p)) :
    Sound dirty ⟨s.cache.set p blk, pc', hold', s.cur⟩ := by
  refine h.of_block hp (List.Perm.refl _) rfl ?_ ?_ hrole hhold (fun _ _ => rfl) ?_ ?_
  · intro q hq
    exact Bcache.set_mem_of_ne _ _ hq
  · rw [Bcache.set_mem_self, hno]
    exact h.no_ne hp
  · intro c hd hc
    apply h.clean c hd
    intro q hq hqc
    have hq' := hc q hq
    by_cases hqp : q = p
    · rw [hqp] at hq' hqc ⊢
      rw [Bcache.set_mem_self, hno, hpin] at hq'
      exact hq' hqc
    · rw [Bcache.set_mem_of_ne _ _ hqp] at hq'
      exact hq' hqc
  · rw [Bcache.set_mem_self]
    exact hblock

/-- A block in which a thread has a part is cached. -/
theorem mem_of_role (h : Sound dirty s) (hr : (s.pc t).role p ≠ .none) : p ∈ s.cache.head := by
  by_contra hp
  exact hr (h.outside p hp t).1

/-- A block that a thread holds is cached. -/
theorem mem_of_hold (h : Sound dirty s) (hh : s.hold t p ≠ none) : p ∈ s.cache.head := by
  by_contra hp
  exact hh (h.outside p hp t).2

/-! ### The critical section of `cache_acquire` -/

theorem acquire_hit (h : Sound dirty s) (hpc : s.pc t = .idle) (hl : s.cache.lookup b = some p) :
    Sound dirty (({ s with cache := s.cache.set p { s.cache.mem p with acquired := true } } :
      AcqSys).goto t (.hitWait p b)) := by
  obtain ⟨hp, hb⟩ := Bcache.mem_of_lookup hl
  refine h.of_set hp rfl rfl ?_ (fun _ _ _ => rfl) ?_
  · intro q hq u
    exact role_update_of_about (hpc ▸ AcqPc.about_idle) (AcqPc.about_of_role (by simp [AcqPc.role])) hq
  · rw [role_update]
    have := ((h.block p hp).hit (t := t) (by rw [hpc]; rfl)).congr
      { s.cache.mem p with acquired := true } rfl rfl rfl rfl
    rw [hb] at this
    simpa [AcqPc.role] using this

theorem acquire_evict (h : Sound dirty s) (hpc : s.pc t = .idle) (hl : s.cache.lookup b = none)
    (hv : s.cache.victim = some p) (hfree : ∀ u, ¬ s.Uses u p) :
    Sound dirty (({ s with
      cache := s.cache.set p { s.cache.mem p with blockNo := b, acquired := true } } :
        AcqSys).goto t (.evictWait p b)) := by
  obtain ⟨hp, hpin, -⟩ := Bcache.mem_of_victim hv
  have hno := Bcache.lookup_eq_none.mp hl
  refine h.of_block hp (List.Perm.refl _) rfl ?_ ?_ ?_ (fun _ _ _ => rfl) (fun _ _ => rfl) ?_ ?_
  · intro q hq
    exact Bcache.set_mem_of_ne _ _ hq
  · intro q hq hqp
    simpa [AcqSys.goto] using hno q hq
  · intro q hq u
    exact role_update_of_about (hpc ▸ AcqPc.about_idle) (AcqPc.about_of_role (by simp [AcqPc.role])) hq
  · intro c hd hc
    -- the block taken over was not pinned, so its old number is on disk
    apply h.clean c hd
    intro q hq hqc
    by_cases hqp : q = p
    · rw [hqp]
      exact hpin
    · have := hc q hq
      simp only [AcqSys.goto, Bcache.set_mem_of_ne _ _ hqp] at this
      exact this hqc
  · have hnone : ∀ u, s.hold u p = none ∧ ((s.pc u).role p).number = none := by
      intro u
      have hu := hfree u
      simp only [AcqSys.Uses, not_or, not_exists, ne_eq, not_not] at hu
      refine ⟨hu.1, ?_⟩
      cases hr : s.pc u
      all_goals grind [AcqPc.role, Role.number]
    simp only [AcqSys.goto, Bcache.set_mem_self, role_update]
    have := (h.block p hp).evict (t := t) (b := b)
      { s.cache.mem p with blockNo := b, acquired := true } hnone rfl hpin rfl
    simpa [AcqPc.role] using this

/-- A number that is not cached is not dirty. -/
theorem not_dirty_of_lookup (h : Sound dirty s) (hload : s.Loadable dirty b)
    (hl : s.cache.lookup b = none) : dirty b = false := by
  by_contra hd
  obtain ⟨u, q, e, hu⟩ := hload (by simpa using hd)
  have hq : q ∈ s.cache.head := by
    by_contra hq
    rw [(h.outside q hq u).2] at hu
    cases hu
  exact Bcache.lookup_eq_none.mp hl q hq ((h.block q hq).held u b e hu).1

theorem acquire_fresh (h : Sound dirty s) (hload : s.Loadable dirty b) (hpc : s.pc t = .idle)
    (hl : s.cache.lookup b = none) :
    Sound dirty (({ s with
      cache := { s.cache.set s.cache.brk (Bcache.freshBlock b (s.cache.disk b)) with
        head := s.cache.brk :: s.cache.head
        brk := s.cache.brk + 1 } } : AcqSys).ret t s.cache.brk b) := by
  have hno := Bcache.lookup_eq_none.mp hl
  have hbrk : s.cache.brk ∉ s.cache.head := fun hp => lt_irrefl _ (h.lt_brk _ hp)
  have hne : ∀ q ∈ s.cache.head, q ≠ s.cache.brk := fun q hq => (h.lt_brk q hq).ne
  have hmem : ∀ q ∈ s.cache.head,
      (s.cache.set s.cache.brk (Bcache.freshBlock b (s.cache.disk b))).mem q = s.cache.mem q :=
    fun q hq => Bcache.set_mem_of_ne _ _ (hne q hq)
  have hpc' : Function.update s.pc t .idle = s.pc := by
    rw [← hpc]
    exact Function.update_eq_self t s.pc
  have hclean : s.cur b = s.cache.disk b :=
    h.clean b (h.not_dirty_of_lookup hload hl) fun p hp hpb => absurd hpb (hno p hp)
  simp only [AcqSys.ret, AcqSys.goto, AcqSys.setHold, hpc']
  constructor
  case nodup => exact List.nodup_cons.mpr ⟨hbrk, h.nodup⟩
  case lt_brk =>
    intro p hp
    rcases List.mem_cons.mp hp with rfl | hp
    · exact Nat.lt_succ_self _
    · exact Nat.lt_succ_of_lt (h.lt_brk p hp)
  case inj =>
    intro p hp q hq hpq
    rcases List.mem_cons.mp hp with rfl | hp'
    · rcases List.mem_cons.mp hq with rfl | hq'
      · rfl
      · simp only [Bcache.set_mem_self, hmem q hq'] at hpq
        exact absurd hpq.symm (hno q hq')
    · rcases List.mem_cons.mp hq with rfl | hq'
      · simp only [Bcache.set_mem_self, hmem p hp'] at hpq
        exact absurd hpq (hno p hp')
      · simp only [hmem p hp', hmem q hq'] at hpq
        exact h.inj p hp' q hq' hpq
  case block =>
    intro p hp
    rcases List.mem_cons.mp hp with rfl | hp'
    · simp only [Bcache.set_mem_self, hold_update]
      exact BlockOk.fresh (fun u => (h.outside _ hbrk u).1) (fun u => (h.outside _ hbrk u).2)
        rfl rfl hclean.symm
    · simp only [hmem p hp', hold_update_of_ne _ _ _ _ (hne p hp')]
      exact h.block p hp'
  case outside =>
    intro p hp u
    obtain ⟨hpb, hp'⟩ := not_or.mp fun h => hp (List.mem_cons.mpr h)
    simp only [hold_update_of_ne _ _ _ _ hpb]
    exact h.outside p hp' u
  case clean =>
    intro c hd hc
    apply h.clean c hd
    intro p hp hpc
    have := hc p (List.mem_cons_of_mem _ hp)
    simp only [hmem p hp] at this
    exact this hpc

/-! ### The lock of a block -/

theorem hit_wait (h : Sound dirty s) (hpc : s.pc t = .hitWait p b)
    (hno : ∀ u c, s.pc u ≠ .evictWait p c) (hs : s.runStep t = some s') : Sound dirty s' := by
  have hp : p ∈ s.cache.head := h.mem_of_role (t := t) (by simp [hpc, AcqPc.role])
  have hr : (s.pc t).role p = .hitWait b := by simp [hpc, AcqPc.role]
  have hnone : ∀ u c, (s.pc u).role p ≠ .evictWait c := by
    intro u c hc
    cases hu : s.pc u
    all_goals grind [AcqPc.role]
  have ht : (s.pc t).About p := AcqPc.about_of_role (by simp [hr])
  have hB := h.block p hp
  rcases hB.lock with ⟨hfree, -⟩ | hbal
  · have hw : (s.lock p).waitSem t = (true, ⟨0, []⟩) := by
      rw [AcqSys.lock, hfree]
      rfl
    simp only [AcqSys.runStep, hpc, hw, Option.some.injEq] at hs
    subst hs
    refine h.of_set hp rfl rfl ?_ ?_ ?_
    · intro q hq u
      exact role_update_of_about ht AcqPc.about_idle hq
    · intro q hq u
      exact hold_update_of_ne _ _ _ _ hq
    · simp only [AcqSys.setHold, AcqSys.setLock, role_update, hold_update]
      exact hB.hit_lock hr hfree hnone
  · have hw := Semaphore.waitSem_of_balanced hbal t
    simp only [AcqSys.runStep, hpc, AcqSys.lock, hw, Option.some.injEq] at hs
    subst hs
    refine h.of_set hp rfl rfl ?_ (fun _ _ _ => rfl) ?_
    · intro q hq u
      exact role_update_of_about ht (AcqPc.about_of_role (by simp [AcqPc.role])) hq
    · simp only [AcqSys.setLock, role_update]
      have := hB.hit_sleep hr hbal hnone
      simpa [AcqPc.role] using this

theorem evict_wait (h : Sound dirty s) (hpc : s.pc t = .evictWait p b) (hs : s.runStep t = some s') :
    Sound dirty s' := by
  have hp : p ∈ s.cache.head := h.mem_of_role (t := t) (by simp [hpc, AcqPc.role])
  have hr : (s.pc t).role p = .evictWait b := by simp [hpc, AcqPc.role]
  have ht : (s.pc t).About p := AcqPc.about_of_role (by simp [hr])
  have hB := h.block p hp
  rcases hB.lock with ⟨hfree, -⟩ | hbal
  · have hw : (s.lock p).waitSem t = (true, ⟨0, []⟩) := by
      rw [AcqSys.lock, hfree]
      rfl
    simp only [AcqSys.runStep, hpc, hw, Option.some.injEq] at hs
    subst hs
    refine h.of_set hp rfl rfl ?_ (fun _ _ _ => rfl) ?_
    · intro q hq u
      exact role_update_of_about ht (AcqPc.about_of_role (by simp [AcqPc.role])) hq
    · simp only [AcqSys.setLock, role_update]
      have := hB.evict_lock hr hfree
      simpa [AcqPc.role] using this
  · have hw := Semaphore.waitSem_of_balanced hbal t
    simp only [AcqSys.runStep, hpc, AcqSys.lock, hw, Option.some.injEq] at hs
    subst hs
    refine h.of_set hp rfl rfl ?_ (fun _ _ _ => rfl) ?_
    · intro q hq u
      exact role_update_of_about ht (AcqPc.about_of_role (by simp [AcqPc.role])) hq
    · simp only [AcqSys.setLock, role_update]
      have := hB.evict_sleep hr hbal
      simpa [AcqPc.role] using this

/-- The device read of an eviction. -/
theorem read (h : Sound dirty s) (hload : s.Loadable dirty b) (hpc : s.pc t = .reading p b) :
    Sound dirty (({ s with cache := s.cache.deviceRead p } : AcqSys).ret t p b) := by
  have hp : p ∈ s.cache.head := h.mem_of_role (t := t) (by simp [hpc, AcqPc.role])
  have hr : (s.pc t).role p = .reading b := by simp [hpc, AcqPc.role]
  have ht : (s.pc t).About p := AcqPc.about_of_role (by simp [hr])
  have hB := h.block p hp
  have hb : (s.cache.mem p).blockNo = b := hB.number t b (by rw [hr]; rfl)
  -- nobody holds the block, so the number is not dirty
  have hd : dirty b = false := by
    by_contra hd
    obtain ⟨u, q, e, hu⟩ := hload (by simpa using hd)
    have hq := h.mem_of_hold (t := u) (p := q) (by rw [hu]; simp)
    obtain rfl : q = p := h.inj q hq p hp (((h.block q hq).held u b e hu).1.trans hb.symm)
    rw [hB.hold_eq_none (t := t) (by rw [hr]; rfl) u] at hu
    cases hu
  -- the block is not pinned, and no other has this number
  have hdisk : s.cur b = s.cache.disk b := by
    apply h.clean b hd
    intro q hq hqb
    rw [h.inj q hq p hp (hqb.trans hb.symm)]
    exact hB.unpinned t (by rw [hr]; rfl)
  refine h.of_set hp rfl rfl ?_ ?_ ?_
  · intro q hq u
    exact role_update_of_about ht AcqPc.about_idle hq
  · intro q hq u
    exact hold_update_of_ne _ _ _ _ hq
  · simp only [AcqSys.setHold, role_update, hold_update]
    rw [hb, hdisk]
    have := hB.load hr hdisk.symm
    rw [hb] at this
    exact this

/-- The post of a release. -/
theorem post (h : Sound dirty s) (hpc : s.pc t = .releasing p) (hs : s.runStep t = some s') :
    Sound dirty s' := by
  have hp : p ∈ s.cache.head := h.mem_of_role (t := t) (by simp [hpc, AcqPc.role])
  have hr : (s.pc t).role p = .releasing := by simp [hpc, AcqPc.role]
  have ht : (s.pc t).About p := AcqPc.about_of_role (by simp [hr])
  have hB := h.block p hp
  have hbal := hB.balanced_of_locking (t := t) (by rw [hr]; rfl)
  rcases List.eq_nil_or_concat (s.cache.mem p).lock.sleeplist with hnil | ⟨l, u, hl⟩
  · have hpost : (s.lock p).postSem = some (none, ⟨1, []⟩) := by
      have hv : (s.cache.mem p).lock = ⟨0, []⟩ := by
        rcases hlock : (s.cache.mem p).lock with ⟨v, l⟩
        simp_all [Semaphore.Balanced]
      rw [AcqSys.lock, hv]
      rfl
    simp only [AcqSys.runStep, hpc, hpost, Option.some.injEq] at hs
    subst hs
    refine h.of_set hp rfl rfl ?_ (fun _ _ _ => rfl) ?_
    · intro q hq u
      exact role_update_of_about ht AcqPc.about_idle hq
    · simp only [AcqSys.setLock, role_update]
      exact hB.post_free hr hnil
  · rw [List.concat_eq_append] at hl
    have hpost : (s.lock p).postSem = some (some u, ⟨(s.cache.mem p).lock.val + 1, l⟩) :=
      hbal.postSem hl
    have hu : ((s.pc u).role p).asleep = true := by
      rw [← hB.asleep u, hl]
      simp
    have hut : u ≠ t := by
      rintro rfl
      rw [hr] at hu
      cases hu
    simp only [AcqSys.runStep, hpc, hpost, Option.some.injEq] at hs
    rcases AcqPc.eq_of_asleep hu with ⟨c, hc⟩ | ⟨c, hc⟩
    · have hru : (s.pc u).role p = .hitAsleep c := by simp [hc, AcqPc.role]
      have hwake : Function.update s.pc t .idle u = .hitAsleep p c := by
        rw [Function.update_of_ne hut, hc]
      have hua : (Function.update s.pc t .idle u).About p := by
        rw [hwake]
        exact AcqPc.about_of_role (by simp [AcqPc.role])
      simp only [AcqSys.wake, AcqSys.goto, AcqSys.setLock, hwake] at hs
      subst hs
      refine h.of_set hp rfl rfl ?_ ?_ ?_
      · intro q hq v
        exact (role_update_of_about hua AcqPc.about_idle hq).trans
          (role_update_of_about ht AcqPc.about_idle hq)
      · intro q hq v
        exact hold_update_of_ne _ _ _ _ hq
      · simp only [AcqSys.setHold, role_update, hold_update]
        exact hB.post_hit hr hl hru
    · have hru : (s.pc u).role p = .evictAsleep c := by simp [hc, AcqPc.role]
      have hwake : Function.update s.pc t .idle u = .evictAsleep p c := by
        rw [Function.update_of_ne hut, hc]
      have hua : (Function.update s.pc t .idle u).About p := by
        rw [hwake]
        exact AcqPc.about_of_role (by simp [AcqPc.role])
      simp only [AcqSys.wake, AcqSys.goto, AcqSys.setLock, hwake] at hs
      subst hs
      refine h.of_set hp rfl rfl ?_ (fun _ _ _ => rfl) ?_
      · intro q hq v
        exact (role_update_of_about hua (AcqPc.about_of_role (by simp [AcqPc.role])) hq).trans
          (role_update_of_about ht AcqPc.about_idle hq)
      · simp only [role_update]
        have := hB.post_evict hr hl hru
        simpa [AcqPc.role] using this

/-! ### Held blocks -/

/-- The critical section of `cache_release`. -/
theorem release (h : Sound dirty s) (hpc : s.pc t = .idle) (hh : s.hold t p ≠ none) :
    Sound dirty (({ s.setHold t p none with cache := s.cache.releaseLocked p } : AcqSys).goto t
      (.releasing p)) := by
  have hp : p ∈ s.cache.head := h.mem_of_hold hh
  have hB := h.block p hp
  have hset : Sound dirty ⟨s.cache.set p { s.cache.mem p with acquired := false },
      Function.update s.pc t (.releasing p),
      Function.update s.hold t (Function.update (s.hold t) p none), s.cur⟩ := by
    refine h.of_set hp rfl rfl ?_ ?_ ?_
    · intro q hq u
      exact role_update_of_about (hpc ▸ AcqPc.about_idle) (AcqPc.about_of_role (by simp [AcqPc.role])) hq
    · intro q hq u
      exact hold_update_of_ne _ _ _ _ hq
    · simp only [role_update, hold_update]
      have := (hB.release hh (by rw [hpc]; rfl)).congr
        { s.cache.mem p with acquired := false } rfl rfl rfl rfl
      simpa [AcqPc.role] using this
  -- only the order of the list has changed
  have hperm : (p :: s.cache.head.erase p).Perm s.cache.head := (List.perm_cons_erase hp).symm
  refine hset.of_block hp hperm rfl (fun _ _ => rfl) (hset.no_ne hp) (fun _ _ _ => rfl)
    (fun _ _ _ => rfl) (fun _ _ => rfl) hset.clean (hset.block p hp)

/-- The holder of a block changes it and syncs it. -/
theorem put (h : Sound dirty s) {e : Sector} (hh : s.hold t p = some (b, e)) (d : Sector)
    (kind : SyncKind) : Sound dirty (s.put t p b d kind) := by
  have hp : p ∈ s.cache.head := h.mem_of_hold (t := t) (by rw [hh]; simp)
  have hB := h.block p hp
  have hb : (s.cache.mem p).blockNo = b := (hB.held t b e hh).1
  obtain ⟨c, hc⟩ : ∃ c, c = (s.put t p b d kind).cache := ⟨_, rfl⟩
  obtain ⟨hhead, hbrk, hmem, hno, hlock, hdata, hdisk, hpin⟩ : c.head = s.cache.head ∧ c.brk = s.cache.brk ∧
      (∀ q, q ≠ p → c.mem q = s.cache.mem q) ∧ (c.mem p).blockNo = b ∧
      (c.mem p).lock = (s.cache.mem p).lock ∧ (c.mem p).data = d ∧
      (∀ q, q ≠ b → c.disk q = s.cache.disk q) ∧
      ((c.mem p).pinned = false → c.disk b = d) := by
    rw [hc]
    cases kind
    all_goals
      refine ⟨rfl, rfl, ?_, ?_, ?_, ?_, ?_, ?_⟩
      all_goals simp +contextual [AcqSys.put, Bcache.setPinned, Bcache.setData, Bcache.set_mem_of_ne,
        Bcache.deviceWrite, Bcache.devWrite, hb]
  have hput : s.put t p b d kind = ⟨c, s.pc,
      Function.update s.hold t (Function.update (s.hold t) p (some (b, d))),
      Function.update s.cur b d⟩ := by
    rw [hc]
    rfl
  rw [hput]
  refine h.of_block hp ?_ hbrk hmem ?_ (fun _ _ _ => rfl) ?_ ?_ ?_ ?_
  · rw [hhead]
  · rw [hno, ← hb]
    exact h.no_ne hp
  · intro q hq u
    exact hold_update_of_ne _ _ _ _ hq
  · intro a ha
    rw [hno] at ha
    exact Function.update_of_ne ha _ _
  · intro a hd ha
    by_cases hab : a = b
    · rw [hab]
      simp only [Function.update_self]
      exact (hpin (ha p hp (hno.trans hab.symm))).symm
    · simp only [Function.update_of_ne hab, hdisk a hab]
      apply h.clean a hd
      intro q hq hqa
      have hqp : q ≠ p := by
        rintro rfl
        exact hab (hqa.symm.trans hb)
      have := ha q hq
      simp only [hmem q hqp] at this
      exact this hqa
  · simp only [hold_update]
    exact hB.put hh (hno.trans hb.symm) hlock hdata

/-- **The invariant is kept** by every orderly step. -/
theorem step {i : ℕ × AcqAct} (h : Sound dirty s) (hload : ∀ b, s.Loads i b → s.Loadable dirty b)
    (ho : Orderly s i) (hs : s.step i = some s') : Sound dirty s' := by
  obtain ⟨t, a⟩ := i
  cases a with
  | acquire b =>
      simp only [AcqSys.step] at hs
      split_ifs at hs with hpc
      cases hl : s.cache.lookup b with
      | some p =>
          simp only [Bcache.acquireLocked, hl, Option.some.injEq] at hs
          rw [← hs]
          exact h.acquire_hit hpc hl
      | none =>
          cases hv : (if s.cache.getNumCachedBlocks ≥ evictionThreshold then s.cache.victim
              else none) with
          | some p =>
              have hacq : s.cache.acquireLocked b = (.evict p, s.cache.set p
                  { s.cache.mem p with blockNo := b, acquired := true }) := by
                simp only [Bcache.acquireLocked, hl, hv]
              have hvic : s.cache.victim = some p := by
                split_ifs at hv
                exact hv
              simp only [hacq, Option.some.injEq] at hs
              rw [← hs]
              exact h.acquire_evict hpc hl hvic (ho p _ hacq)
          | none =>
              simp only [Bcache.acquireLocked, hl, hv, Option.some.injEq] at hs
              rw [← hs]
              exact h.acquire_fresh (hload b rfl) hpc hl
  | put p d kind =>
      simp only [AcqSys.step] at hs
      split at hs
      · rename_i hpc hh
        cases hs
        exact h.put hh d kind
      · cases hs
  | release p =>
      simp only [AcqSys.step] at hs
      split at hs
      · rename_i hpc hh
        cases hs
        exact h.release hpc (by rw [hh]; simp)
      · cases hs
  | run =>
      have hrun : s.runStep t = some s' := hs
      cases hpc : s.pc t with
      | hitWait p b => exact h.hit_wait hpc (fun u c => ho p b hpc u c) hrun
      | evictWait p b => exact h.evict_wait hpc hrun
      | reading p b =>
          simp only [AcqSys.runStep, hpc, Option.some.injEq] at hrun
          rw [← hrun]
          exact h.read (hload b ⟨p, hpc⟩) hpc
      | releasing p => exact h.post hpc hrun
      | _ =>
          simp only [AcqSys.runStep, hpc] at hrun
          cases hrun

/-- Between two calls of a cache in which nothing is held. -/
theorem start {ls : ℕ} {c : Bcache} (hc : Bcache.Coherent ls c) (hfree : ∀ b, ¬ c.abs.held b) :
    Sound dirty (AcqSys.start c) := by
  have hacq : ∀ p ∈ c.head, (c.mem p).acquired = false := by
    intro p hp
    by_contra ha
    exact hfree _ ⟨p, hp, rfl, by simpa using ha⟩
  refine ⟨hc.nodup, hc.lt_brk, hc.inj, ?_, fun _ _ _ => ⟨rfl, rfl⟩, ?_⟩
  · intro p hp
    have hlock : (c.mem p).lock = ⟨1, []⟩ := by
      rw [hc.lock p hp, hacq p hp]
      rfl
    constructor
    case lock => exact Or.inl ⟨hlock, fun _ => ⟨rfl, rfl⟩⟩
    case loaded => exact fun _ => (hc.view_eq hp rfl).symm
    all_goals simp [AcqSys.start, AcqPc.role, hlock, Role.asleep, Role.locking, Role.number,
      Role.loading, Role.evicting]
  · intro b _ hb
    apply hc.view_eq_disk (hfree b)
    rintro ⟨p, hp, hpb, hpin⟩
    have hpin' : (c.mem p).pinned = false := hb p hp hpb
    rw [hpin'] at hpin
    cases hpin

theorem keeps (h : Sound dirty s) : s.Keeps := by
  intro t p b d hh
  have hp := h.mem_of_hold (t := t) (by rw [hh]; simp)
  exact (h.block p hp).held t b d hh

/-- What a thread holds is changed by its own steps only. -/
theorem hold_of_ne {i : ℕ × AcqAct} (h : Sound dirty s) (hs : s.step i = some s') (ht : t ≠ i.1)
    (hh : s.hold t p ≠ none) : s'.hold t p = s.hold t p := by
  obtain ⟨u, a⟩ := i
  have hu : t ≠ u := ht
  cases a with
  | acquire b =>
      simp only [AcqSys.step] at hs
      split_ifs at hs
      split at hs
      all_goals
        cases hs
        simp [AcqSys.goto, AcqSys.ret, AcqSys.setHold, hu]
  | put q d kind =>
      simp only [AcqSys.step] at hs
      split at hs
      all_goals
        cases hs
      simp [AcqSys.put, AcqSys.setHold, hu]
  | release q =>
      simp only [AcqSys.step] at hs
      split at hs
      all_goals
        cases hs
      simp [AcqSys.goto, AcqSys.setHold, hu]
  | run =>
      have hrun : s.runStep u = some s' := hs
      cases hpc : s.pc u with
      | hitWait q b =>
          simp only [AcqSys.runStep, hpc] at hrun
          split at hrun
          all_goals
            cases hrun
            simp [AcqSys.goto, AcqSys.ret, AcqSys.setHold, AcqSys.setLock, hu]
      | evictWait q b =>
          simp only [AcqSys.runStep, hpc] at hrun
          split at hrun
          all_goals
            cases hrun
            rfl
      | reading q b =>
          simp only [AcqSys.runStep, hpc] at hrun
          cases hrun
          simp [AcqSys.goto, AcqSys.ret, AcqSys.setHold, hu]
      | releasing q =>
          have hr : (s.pc u).role q = .releasing := by simp [hpc, AcqPc.role]
          have hB := h.block q (h.mem_of_role (t := u) (by simp [hr]))
          simp only [AcqSys.runStep, hpc] at hrun
          split at hrun
          · cases hrun
          · cases hrun
            rfl
          · rename_i v l hpost
            cases hrun
            have hv : ((s.pc v).role q).asleep = true := by
              apply (hB.asleep v).mp
              exact Semaphore.mem_of_postSem hpost
            by_cases hvt : v = t
            · -- a sleeper on the lock does not hold the block
              have hqp : q ≠ p := by
                rintro rfl
                have := hB.excl t u hh
                rw [hr] at this
                cases this
              have hut : Function.update s.pc u .idle t = s.pc t := Function.update_of_ne hu _ _
              rw [hvt] at hv ⊢
              simp only [AcqSys.wake, AcqSys.goto, AcqSys.setLock, hut]
              rcases AcqPc.eq_of_asleep hv with ⟨c, hc⟩ | ⟨c, hc⟩
              · simp [hc, AcqSys.ret, AcqSys.goto, AcqSys.setHold, hqp.symm]
              · simp [hc]
            · simp only [AcqSys.wake]
              split
              · simp [AcqSys.ret, AcqSys.goto, AcqSys.setHold, AcqSys.setLock, Ne.symm hvt]
              · rfl
              · rfl
      | _ =>
          simp only [AcqSys.runStep, hpc] at hrun
          cases hrun

end Sound

/-- **Held blocks keep their identity and content** in every run whose steps are orderly: a block
is evicted only while no thread holds it, waits for it or loads it, and a thread that found a
block cached waits on its lock only while no thread that has just taken it over has yet to. -/
theorem orderly_keeps {ls : ℕ} {c : Bcache} (hc : Bcache.Coherent ls c)
    (hfree : ∀ b, ¬ c.abs.held b) (hs : Reach AcqSys.step Orderly (AcqSys.start c) s) :
    s.Keeps ∧ s.Current ∧ s.Undisturbed := by
  have hnone : ∀ (s : AcqSys) b, s.Loadable (fun _ => false) b := fun _ _ hb => by cases hb
  have h : Sound (fun _ => false) s :=
    hs.invariant (Sound.start hc hfree) fun s _ _ h ho hs => Sound.step h (fun b _ => hnone s b) ho hs
  refine ⟨h.keeps, fun b hb => h.clean b rfl hb, ?_⟩
  intro i s' ho hstep t p ht hh
  have hhold := h.hold_of_ne hstep ht hh
  obtain ⟨⟨b, d⟩, hbd⟩ := Option.ne_none_iff_exists'.mp hh
  have hold := h.keeps t p b d hbd
  have hnew := (h.step (fun b _ => hnone s b) ho hstep).keeps t p b d (hhold.trans hbd)
  exact ⟨hnew.1.trans hold.1.symm, hnew.2.trans hold.2.symm⟩

/-- A step that neither evicts nor waits. -/
private def plainStep (s : AcqSys) : ℕ × AcqAct → Bool
  | (_, .acquire b) =>
      match s.cache.acquireLocked b with
      | (.evict _, _) => false
      | _ => true
  | (t, .run) =>
      match s.pc t with
      | .hitWait _ _ => false
      | _ => true
  | _ => true

private theorem orderly_of_plainStep (s : AcqSys) (i : ℕ × AcqAct) (h : plainStep s i = true) :
    Orderly s i := by
  obtain ⟨t, a⟩ := i
  cases a with
  | acquire b =>
      intro p c hacq
      simp [plainStep, hacq] at h
  | run =>
      intro p b hpc
      simp [plainStep, hpc] at h
  | _ => exact trivial

/-- Thread 1 waits for block 1 while thread 0 changes it. -/
theorem orderly_keeps_waiter : ∃ s, Reach AcqSys.step Orderly
    (AcqSys.start (Bcache.boot fun _ => Bytes.zero)) s ∧
      s.hold 1 0 = some (1, Bytes.ofFn fun _ => 7) ∧
      (s.cache.mem 0).blockNo = 1 ∧ (s.cache.mem 0).data = Bytes.ofFn fun _ => 7 := by
  have hc : Bcache.Coherent 0 (Bcache.boot fun _ => Bytes.zero) := by
    constructor <;> simp [Bcache.boot]
  have hfree : ∀ b, ¬ (Bcache.boot fun _ => Bytes.zero).abs.held b := by
    simp [Bcache.boot, Bcache.abs]
  have hfound : Reach AcqSys.step Orderly (AcqSys.start (Bcache.boot fun _ => Bytes.zero)) _ :=
    Reach.init.of_tested orderly_of_plainStep
      [(0, .acquire 1), (0, .put 0 (Bytes.ofFn fun _ => 7) .ctx), (1, .acquire 1)] rfl
  have hasleep := hfound.step (i := (1, .run)) (by
    intro p b _ u c
    show Function.update (Function.update (fun _ => AcqPc.idle) 0 .idle) 1 (.hitWait 0 1) u ≠ _
    simp only [Function.update_apply]
    split_ifs <;> simp) rfl
  have hwoken := hasleep.of_tested orderly_of_plainStep [(0, .release 0), (0, .run)] rfl
  refine ⟨_, hwoken, rfl, ?_⟩
  exact (orderly_keeps hc hfree hwoken).1 1 0 1 _ rfl

/-- **A block can be taken over while a thread holds it.**  Thread 1 sleeps on the lock of block 1
until thread 0 posts it.  `cache_release` has cleared `acquired`, so the next thread to find the
cache full takes the block for number 100. -/
theorem taken_over : ∃ s, Reach AcqSys.step (fun _ _ => True)
    (AcqSys.start (Bcache.boot fun _ => Bytes.zero)) s ∧ ¬ s.Keeps := by
  refine ⟨_, Reach.init.of_runs ([(0, .acquire 1), (1, .acquire 1), (1, .run)] ++
    ((List.range 19).map fun i => (2, .acquire (i + 2))) ++
    [(0, .release 0), (0, .run), (2, .acquire 100)]) rfl, ?_⟩
  intro h
  have hno := (h 1 0 1 _ rfl).1
  revert hno
  decide

/-- **A block can be handed out before it is loaded.**  Thread 0 takes a block over for number 100
and is about to wait for its lock when thread 1 finds number 100 cached and gets the lock. -/
theorem handed_out_unloaded : ∃ s, Reach AcqSys.step (fun _ _ => True)
    (AcqSys.start (Bcache.boot fun _ => Bytes.zero)) s ∧ ¬ s.Keeps := by
  refine ⟨_, Reach.init.of_runs ([(0, .acquire 1), (0, .put 0 (Bytes.ofFn fun _ => 1) .null),
    (0, .release 0), (0, .run)] ++ ((List.range 19).map fun i => (2, .acquire (i + 2))) ++
    [(0, .acquire 100), (1, .acquire 100), (1, .run)]) rfl, ?_⟩
  intro h
  have hdata := congrArg (fun d => Bytes.get d 0) (h 1 0 100 _ rfl).2
  revert hdata
  decide

end OsLab
