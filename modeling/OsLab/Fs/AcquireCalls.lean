import OsLab.Fs.AcquireRace

/-!
# The calls of a thread, from the outside

What the users of the cache see of one step of `cache_acquire` or `cache_release`:
which thread gets its block (`AcqSys.Returned`), and that contents, device, log and
pinned blocks stay as they are (`AcqSys.Frame`).  A step returns to one thread at
most, which need not be the one that takes it: the post of a release wakes a
sleeper.

## Main definitions

* `AcqPc.call` — the block a thread waits for in `cache_acquire`, and its number.
* `AcqSys.Frame`, `AcqSys.Returned` — what a step keeps, and the return of a call.
* `Sound.run_cases`, `Sound.acquire_cases`, `release_cases` — all that a step can do.
-/

namespace OsLab

/-- The block the thread is about to return from `cache_acquire`, and the number it asked for. -/
def AcqPc.call : AcqPc → Option (ℕ × ℕ)
  | .hitWait p b | .hitAsleep p b | .evictWait p b | .evictAsleep p b | .reading p b => some (p, b)
  | .idle | .releasing _ => none

namespace AcqSys

/-- What the steps of a call leave alone. -/
structure Frame (s s' : AcqSys) : Prop where
  cur : s'.cur = s.cur
  disk : s'.cache.disk = s.cache.disk
  log : s'.cache.log = s.cache.log
  pinned : ∀ p ∈ s.cache.head, (s.cache.mem p).pinned = true → p ∈ s'.cache.head ∧
    (s'.cache.mem p).blockNo = (s.cache.mem p).blockNo ∧ (s'.cache.mem p).pinned = true

/-- No thread has got its block. -/
structure Silent (s s' : AcqSys) : Prop where
  hold : s'.hold = s.hold
  call : ∀ v, (s'.pc v).call = (s.pc v).call

/-- `cache_acquire(b)` has returned `p` to `u`, and nobody held the block or its number. -/
structure Returned (s s' : AcqSys) (u p b : ℕ) : Prop where
  hold : s'.hold = (s.setHold u p (some (b, s.cur b))).hold
  call : (s'.pc u).call = none
  others : ∀ v, v ≠ u → (s'.pc v).call = (s.pc v).call
  free : ∀ v, s.hold v p = none
  unheld : ∀ v q d, s.hold v q ≠ some (b, d)

variable {s s' : AcqSys} {t u p b : ℕ}

/-- A change of one cached block that keeps its number and its pin. -/
theorem frame_set {blk : Block} {pc : ℕ → AcqPc} {hold : ℕ → ℕ → Option (ℕ × Sector)}
    (hpin : (s.cache.mem p).pinned = true →
      blk.blockNo = (s.cache.mem p).blockNo ∧ blk.pinned = true) :
    Frame s ⟨s.cache.set p blk, pc, hold, s.cur⟩ := by
  refine ⟨rfl, rfl, rfl, ?_⟩
  intro q hq hqpin
  refine ⟨hq, ?_⟩
  by_cases hqp : q = p
  · subst hqp
    rw [Bcache.set_mem_self]
    exact hpin hqpin
  · rw [Bcache.set_mem_of_ne _ _ hqp]
    exact ⟨rfl, hqpin⟩

/-- One thread goes on, still in the same call or in none. -/
theorem call_update {pc : ℕ → AcqPc} {q : AcqPc} (h : q.call = (pc t).call) (v : ℕ) :
    (Function.update pc t q v).call = (pc v).call := by
  by_cases hv : v = t
  · rw [hv, Function.update_self, h]
  · rw [Function.update_of_ne hv]

theorem call_update_of_ne {pc : ℕ → AcqPc} {q : AcqPc} {v : ℕ} (h : v ≠ t) :
    (Function.update pc t q v).call = (pc v).call := by
  rw [Function.update_of_ne h]

end AcqSys

namespace Sound

variable {dirty : ℕ → Bool} {s s' : AcqSys} {t u p b : ℕ}

open AcqSys

/-- A thread asks for the number of a cached block. -/
theorem call_mem (h : Sound dirty s) (hc : (s.pc t).call = some (p, b)) :
    p ∈ s.cache.head ∧ (s.cache.mem p).blockNo = b := by
  have hr : ((s.pc t).role p).number = some b := by
    cases hpc : s.pc t <;> rw [hpc] at hc <;> cases hc <;> simp [AcqPc.role, Role.number]
  have hp : p ∈ s.cache.head := h.mem_of_role (t := t) (by
    intro hn
    rw [hn] at hr
    cases hr)
  exact ⟨hp, (h.block p hp).number t b hr⟩

/-- Two blocks held under one number are the same, and so are their holders. -/
theorem hold_unique (h : Sound dirty s) {v q : ℕ} {d e : Sector} (ht : s.hold t p = some (b, d))
    (hv : s.hold v q = some (b, e)) : v = t ∧ q = p := by
  have hp := h.mem_of_hold (t := t) (p := p) (by rw [ht]; simp)
  have hq := h.mem_of_hold (t := v) (p := q) (by rw [hv]; simp)
  have hqp : q = p := by
    apply h.inj q hq p hp
    rw [((h.block q hq).held v b e hv).1, ((h.block p hp).held t b d ht).1]
  subst hqp
  exact ⟨(h.block q hq).one_holder v t (by rw [hv]; simp) (by rw [ht]; simp), rfl⟩

/-- A block that nobody holds is the only one with its number. -/
theorem unheld (h : Sound dirty s) (hp : p ∈ s.cache.head) (hb : (s.cache.mem p).blockNo = b)
    (hfree : ∀ v, s.hold v p = none) (v q : ℕ) (d : Sector) : s.hold v q ≠ some (b, d) := by
  intro hv
  have hq := h.mem_of_hold (t := v) (p := q) (by rw [hv]; simp)
  obtain rfl : q = p := h.inj q hq p hp (((h.block q hq).held v b d hv).1.trans hb.symm)
  rw [hfree v] at hv
  cases hv

/-- **A step inside a call** returns a block to a thread that has asked for it, or to nobody. -/
theorem run_cases (h : Sound dirty s) (hs : s.runStep t = some s') : Frame s s' ∧
    (Silent s s' ∨ ∃ u p b, (s.pc u).call = some (p, b) ∧ Returned s s' u p b) := by
  cases hpc : s.pc t with
  | idle | hitAsleep | evictAsleep =>
      simp only [AcqSys.runStep, hpc] at hs
      cases hs
  | hitWait p b =>
      obtain ⟨hp, hb⟩ := h.call_mem (t := t) (p := p) (b := b) (by rw [hpc]; rfl)
      simp only [AcqSys.runStep, hpc] at hs
      split at hs
      · rename_i l hw
        cases hs
        have hfree : ∀ v, s.hold v p = none := by
          rcases (h.block p hp).lock with ⟨-, hfree⟩ | hbal
          · exact fun v => (hfree v).1
          · rw [AcqSys.lock, Semaphore.waitSem_of_balanced hbal] at hw
            cases hw
        refine ⟨frame_set fun hpin => ⟨rfl, hpin⟩, Or.inr ⟨t, p, b, by rw [hpc]; rfl, ?_⟩⟩
        exact ⟨rfl, by simp [AcqSys.ret, AcqSys.goto, AcqPc.call],
          fun v hv => call_update_of_ne hv, hfree, h.unheld hp hb hfree⟩
      · cases hs
        refine ⟨frame_set fun hpin => ⟨rfl, hpin⟩, Or.inl ⟨rfl, call_update ?_⟩⟩
        rw [AcqSys.setLock, hpc]
        rfl
  | evictWait p b =>
      simp only [AcqSys.runStep, hpc] at hs
      split at hs
      all_goals
        cases hs
        refine ⟨frame_set fun hpin => ⟨rfl, hpin⟩, Or.inl ⟨rfl, call_update ?_⟩⟩
        rw [AcqSys.setLock, hpc]
        rfl
  | reading p b =>
      obtain ⟨hp, hb⟩ := h.call_mem (t := t) (p := p) (b := b) (by rw [hpc]; rfl)
      have hfree : ∀ v, s.hold v p = none :=
        (h.block p hp).hold_eq_none (t := t) (by simp [hpc, AcqPc.role, Role.locking])
      simp only [AcqSys.runStep, hpc, Option.some.injEq] at hs
      subst hs
      refine ⟨frame_set fun hpin => ⟨rfl, hpin⟩, Or.inr ⟨t, p, b, by rw [hpc]; rfl, ?_⟩⟩
      exact ⟨rfl, by simp [AcqSys.ret, AcqSys.goto, AcqPc.call],
        fun v hv => call_update_of_ne hv, hfree, h.unheld hp hb hfree⟩
  | releasing p =>
      have hr : (s.pc t).role p = .releasing := by simp [hpc, AcqPc.role]
      have hp : p ∈ s.cache.head := h.mem_of_role (t := t) (by simp [hr])
      have hB := h.block p hp
      have hidle : ∀ v, (Function.update s.pc t AcqPc.idle v).call = (s.pc v).call :=
        call_update (by rw [hpc]; rfl)
      simp only [AcqSys.runStep, hpc] at hs
      split at hs
      · cases hs
      · cases hs
        exact ⟨frame_set fun hpin => ⟨rfl, hpin⟩, Or.inl ⟨rfl, hidle⟩⟩
      · -- the oldest sleeper is woken
        rename_i u l hpost
        cases hs
        have hu : ((s.pc u).role p).asleep = true := (hB.asleep u).mp (Semaphore.mem_of_postSem hpost)
        have hut : u ≠ t := by
          rintro rfl
          rw [hr] at hu
          cases hu
        have hpu : Function.update s.pc t AcqPc.idle u = s.pc u := Function.update_of_ne hut _ _
        have hfree : ∀ v, s.hold v p = none := hB.hold_eq_none (t := t) (by simp [hr, Role.locking])
        rcases AcqPc.eq_of_asleep hu with ⟨c, hc⟩ | ⟨c, hc⟩
        · obtain ⟨-, hb⟩ := h.call_mem (t := u) (p := p) (b := c) (by rw [hc]; rfl)
          simp only [AcqSys.wake, AcqSys.goto, AcqSys.setLock, hpu, hc]
          refine ⟨frame_set fun hpin => ⟨rfl, hpin⟩, Or.inr ⟨u, p, c, by rw [hc]; rfl, ?_⟩⟩
          exact ⟨rfl, by simp [AcqSys.ret, AcqSys.goto, AcqPc.call],
            fun v hv => (call_update_of_ne hv).trans (hidle v), hfree, h.unheld hp hb hfree⟩
        · simp only [AcqSys.wake, AcqSys.goto, AcqSys.setLock, hpu, hc]
          refine ⟨frame_set fun hpin => ⟨rfl, hpin⟩, Or.inl ⟨rfl, fun v => ?_⟩⟩
          rw [call_update (by rw [hpu, hc]; rfl), hidle v]

/-- **The critical section of `cache_acquire`** puts the thread into a call, or returns a block
that is new in the cache. -/
theorem acquire_cases (h : Sound dirty s) (hs : s.step (t, .acquire b) = some s') :
    (s.pc t).call = none ∧ Frame s s' ∧
      ((s'.hold = s.hold ∧ (s'.pc t).call = some ((s.cache.acquireLocked b).1.ptr, b) ∧
          ∀ v, v ≠ t → (s'.pc v).call = (s.pc v).call) ∨
        Returned s s' t (s.cache.acquireLocked b).1.ptr b) := by
  simp only [AcqSys.step] at hs
  split_ifs at hs with hpc
  have hcall : (s.pc t).call = none := by
    rw [hpc]
    rfl
  cases hl : s.cache.lookup b with
  | some p =>
      have hacq : s.cache.acquireLocked b =
          (.hit p, s.cache.set p { s.cache.mem p with acquired := true }) := by
        simp only [Bcache.acquireLocked, hl]
      simp only [hacq, Option.some.injEq] at hs ⊢
      subst hs
      exact ⟨hcall, frame_set fun hpin => ⟨rfl, hpin⟩, Or.inl ⟨rfl,
        by simp [AcqSys.goto, AcqPc.call, Found.ptr], fun v hv => call_update_of_ne hv⟩⟩
  | none =>
      cases hv : (if s.cache.getNumCachedBlocks ≥ evictionThreshold then s.cache.victim
          else none) with
      | some p =>
          have hacq : s.cache.acquireLocked b = (.evict p, s.cache.set p
              { s.cache.mem p with blockNo := b, acquired := true }) := by
            simp only [Bcache.acquireLocked, hl, hv]
          have hvic : s.cache.victim = some p := by
            split_ifs at hv
            exact hv
          obtain ⟨-, hunpinned, -⟩ := Bcache.mem_of_victim hvic
          simp only [hacq, Option.some.injEq] at hs ⊢
          subst hs
          refine ⟨hcall, frame_set fun hpin => ?_, Or.inl ⟨rfl,
            by simp [AcqSys.goto, AcqPc.call, Found.ptr], fun v hv => call_update_of_ne hv⟩⟩
          rw [hunpinned] at hpin
          cases hpin
      | none =>
          have hacq : s.cache.acquireLocked b = (.fresh s.cache.brk,
              { s.cache.set s.cache.brk (Bcache.freshBlock b (s.cache.disk b)) with
                head := s.cache.brk :: s.cache.head
                brk := s.cache.brk + 1 }) := by
            simp only [Bcache.acquireLocked, hl, hv]
          have hbrk : s.cache.brk ∉ s.cache.head := fun hp => lt_irrefl _ (h.lt_brk _ hp)
          simp only [hacq, Option.some.injEq] at hs ⊢
          subst hs
          refine ⟨hcall, ⟨rfl, rfl, rfl, ?_⟩, Or.inr ⟨rfl,
            by simp [AcqSys.ret, AcqSys.goto, AcqPc.call],
            fun v hv => call_update_of_ne hv, fun v => (h.outside _ hbrk v).2, ?_⟩⟩
          · intro q hq hpin
            have hne : q ≠ s.cache.brk := (h.lt_brk q hq).ne
            refine ⟨List.mem_cons_of_mem _ hq, ?_⟩
            simp only [AcqSys.ret, AcqSys.goto, AcqSys.setHold, Bcache.set_mem_of_ne _ _ hne]
            exact ⟨trivial, hpin⟩
          · intro v q d hv
            have hq := h.mem_of_hold (t := v) (p := q) (by rw [hv]; simp)
            exact Bcache.lookup_eq_none.mp hl q hq ((h.block q hq).held v b d hv).1

/-- **The critical section of `cache_release`** gives up one held block. -/
theorem release_cases (h : Sound dirty s) (hs : s.step (t, .release p) = some s') :
    (s.pc t).call = none ∧ s.hold t p ≠ none ∧ Frame s s' ∧
      s'.hold = (s.setHold t p none).hold ∧ ∀ v, (s'.pc v).call = (s.pc v).call := by
  simp only [AcqSys.step] at hs
  split at hs
  · rename_i x hpc hh
    cases hs
    have hp : p ∈ s.cache.head := h.mem_of_hold (t := t) (by rw [hh]; simp)
    have hperm : (p :: s.cache.head.erase p).Perm s.cache.head := (List.perm_cons_erase hp).symm
    refine ⟨by rw [hpc]; rfl, by rw [hh]; simp, ⟨rfl, rfl, rfl, ?_⟩, rfl,
      call_update (by rw [AcqSys.setHold, hpc]; rfl)⟩
    intro q hq hpin
    have hframe : Frame s ⟨s.cache.set p { s.cache.mem p with acquired := false }, s.pc, s.hold,
        s.cur⟩ := frame_set fun hpin => ⟨rfl, hpin⟩
    exact ⟨hperm.mem_iff.mpr hq, (hframe.pinned q hq hpin).2⟩
  · cases hs

end Sound

end OsLab
