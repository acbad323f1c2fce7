import OsLab.Fs.AcquireSys
import OsLab.Lib.Recency
import Mathlib.Data.Set.Card

/-!
# The size of the cache and the order of evictions

A block that is not cached takes the structure of another one, or a new structure if
fewer than `EVICTION_THRESHOLD` blocks are cached or all of them are pinned or
acquired.  `acquired` is true only while some thread holds the block or waits for it,
in every interleaving, so the new structures are bounded by the blocks in use.

`cache_release` moves a block to the front of the list, and nothing else moves one.
In runs of one call after the other the blocks that are not held are therefore in the
order of their releases, and the one the search from the end finds is the one released
longest ago.

## Main definitions

* `AcqSys.busy`, `AcqSys.Tidy` — the blocks in use, and what every interleaving keeps.
* `SerialCache`, `SerialCache.Ordered` — calls one after the other.
* `cache_size_and_order` — the size, and the block that is evicted.
-/

namespace OsLab

/-! ## The critical section of `cache_acquire` -/

namespace Bcache

variable {s : Bcache} {b p : ℕ}

/-- A new block, in front of the list. -/
def addFresh (s : Bcache) (b : ℕ) : Bcache :=
  { s.set s.brk (freshBlock b (s.disk b)) with
    head := s.brk :: s.head
    brk := s.brk + 1 }

/-- The three ways through the critical section. -/
theorem acquireLocked_cases (s : Bcache) (b : ℕ) :
    (∃ p, s.lookup b = some p ∧
      s.acquireLocked b = (.hit p, s.set p { s.mem p with acquired := true })) ∨
    (∃ p, s.lookup b = none ∧ evictionThreshold ≤ s.head.length ∧ s.victim = some p ∧
      s.acquireLocked b =
        (.evict p, s.set p { s.mem p with blockNo := b, acquired := true })) ∨
    (s.lookup b = none ∧ (s.head.length < evictionThreshold ∨ s.victim = none) ∧
      s.acquireLocked b = (.fresh s.brk, s.addFresh b)) := by
  rcases hl : s.lookup b with - | p
  · by_cases ht : evictionThreshold ≤ s.head.length
    · have ht' : s.getNumCachedBlocks ≥ evictionThreshold := ht
      rcases hv : s.victim with - | p
      · refine Or.inr (Or.inr ⟨rfl, Or.inr rfl, ?_⟩)
        simp only [acquireLocked, hl, if_pos ht', hv]
        rfl
      · refine Or.inr (Or.inl ⟨p, rfl, ht, rfl, ?_⟩)
        simp only [acquireLocked, hl, if_pos ht', hv]
    · have ht' : ¬ s.getNumCachedBlocks ≥ evictionThreshold := ht
      refine Or.inr (Or.inr ⟨rfl, Or.inl (Nat.lt_of_not_le ht), ?_⟩)
      simp only [acquireLocked, hl, if_neg ht']
      rfl
  · refine Or.inl ⟨p, rfl, ?_⟩
    simp only [acquireLocked, hl]

/-- Without a victim every block is pinned or acquired. -/
theorem of_victim_none (h : s.victim = none) (hp : p ∈ s.head) :
    (s.mem p).pinned = true ∨ (s.mem p).acquired = true := by
  have := List.find?_eq_none.mp h p (List.mem_reverse.mpr hp)
  simp only [Bool.and_eq_true, Bool.not_eq_true', not_and, Bool.not_eq_false] at this
  rcases hpin : (s.mem p).pinned with - | -
  · exact Or.inr (this hpin)
  · exact Or.inl rfl

/-- A call of `cache_acquire` that returns. -/
theorem cacheAcquire_cases {s' : Bcache} (h : s.cacheAcquire b = some (p, s')) :
    (p ∈ s.head ∧ s'.head = s.head ∧ s'.brk = s.brk ∧ (∀ q, q ≠ p → s'.mem q = s.mem q) ∧
      (s'.mem p).acquired = true ∧ ((s'.mem p).blockNo = (s.mem p).blockNo ∨
        s.lookup b = none ∧ evictionThreshold ≤ s.head.length ∧ s.victim = some p)) ∨
    (p = s.brk ∧ s' = s.addFresh b) := by
  rw [cacheAcquire] at h
  rcases s.acquireLocked_cases b with ⟨r, hl, hc⟩ | ⟨r, hl, ht, hv, hc⟩ | ⟨-, -, hc⟩
  · rw [hc] at h
    obtain ⟨c, hw, hr⟩ := Option.map_eq_some_iff.mp h
    cases hr
    rw [waitLock] at hw
    split at hw
    · cases hw
      refine Or.inl ⟨(mem_of_lookup hl).1, rfl, rfl, ?_, ?_, Or.inl ?_⟩
      · intro q hq
        rw [set_mem_of_ne _ _ hq, set_mem_of_ne _ _ hq]
      · rw [set_mem_self, set_mem_self]
      · rw [set_mem_self, set_mem_self]
    · cases hw
  · rw [hc] at h
    obtain ⟨c, hw, hr⟩ := Option.map_eq_some_iff.mp h
    cases hr
    rw [waitLock] at hw
    split at hw
    · cases hw
      refine Or.inl ⟨(mem_of_victim hv).1, rfl, rfl, ?_, ?_, Or.inr ⟨hl, ht, hv⟩⟩
      · intro q hq
        rw [deviceRead, set_mem_of_ne _ _ hq, set_mem_of_ne _ _ hq, set_mem_of_ne _ _ hq]
      · rw [deviceRead, set_mem_self, set_mem_self, set_mem_self]
    · cases hw
  · rw [hc] at h
    cases h
    exact Or.inr ⟨rfl, rfl⟩

/-- A call of `cache_release` that returns. -/
theorem cacheRelease_cases {s' : Bcache} (h : s.cacheRelease p = some s') :
    s'.head = p :: s.head.erase p ∧ s'.brk = s.brk ∧ (∀ q, q ≠ p → s'.mem q = s.mem q) ∧
      (s'.mem p).acquired = false ∧ (s'.mem p).blockNo = (s.mem p).blockNo := by
  rw [cacheRelease, postLock] at h
  obtain ⟨r, -, hr⟩ := Option.map_eq_some_iff.mp h
  cases hr
  refine ⟨rfl, rfl, ?_, ?_, ?_⟩
  · intro q hq
    rw [set_mem_of_ne _ _ hq]
    exact set_mem_of_ne _ _ hq
  · rw [set_mem_self]
    show (Function.update s.mem p _ p).acquired = false
    rw [Function.update_self]
  · rw [set_mem_self]
    show (Function.update s.mem p _ p).blockNo = _
    rw [Function.update_self]

end Bcache

/-! ## Interleavings -/

/-- The thread waits for the lock of `p`, or is about to load `p`. -/
def AcqPc.Waits (q : AcqPc) (p : ℕ) : Prop :=
  ∃ b, q = .hitWait p b ∨ q = .hitAsleep p b ∨ q = .evictWait p b ∨ q = .evictAsleep p b ∨
    q = .reading p b

namespace AcqPc

variable {p q b : ℕ}

@[simp] theorem waits_idle : AcqPc.idle.Waits p ↔ False := by simp [Waits]
@[simp] theorem waits_releasing : (AcqPc.releasing q).Waits p ↔ False := by simp [Waits]
@[simp] theorem waits_hitWait : (AcqPc.hitWait q b).Waits p ↔ q = p := by simp [Waits]
@[simp] theorem waits_hitAsleep : (AcqPc.hitAsleep q b).Waits p ↔ q = p := by simp [Waits]
@[simp] theorem waits_evictWait : (AcqPc.evictWait q b).Waits p ↔ q = p := by simp [Waits]
@[simp] theorem waits_evictAsleep : (AcqPc.evictAsleep q b).Waits p ↔ q = p := by simp [Waits]
@[simp] theorem waits_reading : (AcqPc.reading q b).Waits p ↔ q = p := by simp [Waits]

end AcqPc

namespace AcqSys

/-- The cached blocks that are pinned, held or waited for. -/
def busy (s : AcqSys) : Set ℕ :=
  { p | p ∈ s.cache.head ∧ ((s.cache.mem p).pinned = true ∨ ∃ u, s.Uses u p) }

/-- What every interleaving keeps: no two cached blocks have a number in common, the blocks in use
are cached, and an acquired block is in use. -/
structure Tidy (s : AcqSys) : Prop where
  nodup : s.cache.head.Nodup
  lt_brk : ∀ p ∈ s.cache.head, p < s.cache.brk
  inj : ∀ p ∈ s.cache.head, ∀ q ∈ s.cache.head,
    (s.cache.mem p).blockNo = (s.cache.mem q).blockNo → p = q
  cached : ∀ u p, s.Uses u p → p ∈ s.cache.head
  used : ∀ p ∈ s.cache.head, (s.cache.mem p).acquired = true → ∃ u, s.Uses u p

variable {s s' : AcqSys} {t u p b N : ℕ}

theorem uses_iff : s.Uses u p ↔ s.hold u p ≠ none ∨ (s.pc u).Waits p := Iff.rfl

theorem uses_goto {q : AcqPc} : (s.goto t q).Uses u p ↔
    s.hold u p ≠ none ∨ (if u = t then q else s.pc u).Waits p := by
  have hpc : (s.goto t q).pc u = if u = t then q else s.pc u := Function.update_apply ..
  rw [uses_iff, hpc]
  rfl

theorem hold_setHold {q : ℕ} {x : Option (ℕ × Sector)} :
    (s.setHold t p x).hold u q = if u = t ∧ q = p then x else s.hold u q := by
  show Function.update s.hold t (Function.update (s.hold t) p x) u q = _
  by_cases hut : u = t
  · by_cases hqp : q = p
    · simp [hut, hqp]
    · simp [hut, hqp]
  · simp [hut]

theorem uses_setHold {q : ℕ} {x : ℕ × Sector} :
    (s.setHold t p (some x)).Uses u q ↔ u = t ∧ q = p ∨ s.Uses u q := by
  rw [uses_iff, uses_iff, hold_setHold]
  show _ ∨ (s.pc u).Waits q ↔ _
  by_cases hq : u = t ∧ q = p
  · simp [hq]
  · simp [hq]

/-- A thread that gets what it waited for, or that waited for nothing. -/
theorem uses_ret {q : ℕ} (hw : ∀ q, (s.pc t).Waits q → p = q) :
    (s.ret t p b).Uses u q ↔ u = t ∧ q = p ∨ s.Uses u q := by
  rw [ret, uses_goto, hold_setHold]
  show _ ∨ (if u = t then AcqPc.idle else s.pc u).Waits q ↔ _
  by_cases hut : u = t
  · by_cases hqp : q = p
    · simp [hut, hqp]
    · have hnot : ¬ (s.pc t).Waits q := fun h => hqp (hw q h).symm
      simp [hut, hqp, uses_iff, hnot]
  · simp [hut, uses_iff]

namespace Tidy

/-- A block is stored under a number that no other one has; if it is acquired, it is in use. -/
theorem set (h : Tidy s) {blk : Block}
    (hno : p ∈ s.cache.head → ∀ q ∈ s.cache.head, q ≠ p → (s.cache.mem q).blockNo ≠ blk.blockNo)
    (hacq : p ∈ s.cache.head → blk.acquired = true → ∃ u, s.Uses u p) :
    Tidy { s with cache := s.cache.set p blk } := by
  refine ⟨h.nodup, h.lt_brk, ?_, h.cached, ?_⟩
  · intro q hq r hr hqr
    by_cases hqp : q = p
    · by_cases hrp : r = p
      · rw [hqp, hrp]
      · rw [hqp, Bcache.set_mem_self, Bcache.set_mem_of_ne _ _ hrp] at hqr
        exact absurd hqr.symm (hno (hqp ▸ hq) r hr hrp)
    · by_cases hrp : r = p
      · rw [hrp, Bcache.set_mem_self, Bcache.set_mem_of_ne _ _ hqp] at hqr
        exact absurd hqr (hno (hrp ▸ hr) q hq hqp)
      · rw [Bcache.set_mem_of_ne _ _ hqp, Bcache.set_mem_of_ne _ _ hrp] at hqr
        exact h.inj q hq r hr hqr
  · intro q hq ha
    by_cases hqp : q = p
    · rw [hqp, Bcache.set_mem_self] at ha
      rw [hqp]
      exact hacq (hqp ▸ hq) ha
    · rw [Bcache.set_mem_of_ne _ _ hqp] at ha
      exact h.used q hq ha

/-- The other cached blocks have other numbers. -/
theorem no_ne (h : Tidy s) : p ∈ s.cache.head → ∀ q ∈ s.cache.head, q ≠ p →
    (s.cache.mem q).blockNo ≠ (s.cache.mem p).blockNo :=
  fun hp q hq hqp hno => hqp (h.inj q hq p hp hno)

theorem setLock (h : Tidy s) (p : ℕ) (l : Semaphore) : Tidy (s.setLock p l) :=
  h.set h.no_ne (h.used p)

/-- A thread moves on without giving up a block. -/
theorem goto (h : Tidy s) {q : AcqPc} (hq : ∀ p, q.Waits p → p ∈ s.cache.head)
    (hkeep : ∀ p, (s.pc t).Waits p → q.Waits p ∨ s.hold t p ≠ none) : Tidy (s.goto t q) := by
  refine ⟨h.nodup, h.lt_brk, h.inj, ?_, ?_⟩
  · intro u p hu
    rcases uses_goto.mp hu with hu | hu
    · exact h.cached u p (Or.inl hu)
    · split at hu
      · exact hq p hu
      · exact h.cached u p (Or.inr hu)
  · intro p hp ha
    obtain ⟨u, hu⟩ := h.used p hp ha
    refine ⟨u, uses_goto.mpr ?_⟩
    rcases hu with hu | hu
    · exact Or.inl hu
    · by_cases hut : u = t
      · rw [hut] at hu ⊢
        rw [if_pos rfl]
        exact (hkeep p hu).symm
      · rw [if_neg hut]
        exact Or.inr hu

/-- A thread gets hold of a cached block. -/
theorem setHold (h : Tidy s) (hp : p ∈ s.cache.head) (t : ℕ) (x : ℕ × Sector) :
    Tidy (s.setHold t p (some x)) := by
  refine ⟨h.nodup, h.lt_brk, h.inj, ?_, ?_⟩
  · intro u q hu
    rcases uses_setHold.mp hu with ⟨-, rfl⟩ | hu
    · exact hp
    · exact h.cached u q hu
  · intro q hq ha
    obtain ⟨u, hu⟩ := h.used q hq ha
    exact ⟨u, uses_setHold.mpr (Or.inr hu)⟩

/-- `cache_acquire` returns the block the thread has waited for. -/
theorem ret (h : Tidy s) (hw : ∀ q, (s.pc t).Waits q ↔ p = q) : Tidy (s.ret t p b) := by
  have hp : p ∈ s.cache.head := h.cached t p (Or.inr ((hw p).mpr rfl))
  refine (h.setHold hp t _).goto (by simp) ?_
  intro q hq
  have hpq : p = q := (hw q).mp hq
  refine Or.inr ?_
  show Function.update s.hold t (Function.update (s.hold t) p (some (b, s.cur b))) t q ≠ none
  rw [Function.update_self, hpq, Function.update_self]
  simp

/-- The thread a post has woken. -/
theorem wake (h : Tidy s) (u : ℕ) : Tidy (s.wake u) := by
  rw [AcqSys.wake]
  split
  · rename_i p b hpc
    exact h.ret (by simp [hpc])
  · rename_i p b hpc
    refine h.goto ?_ (by simp [hpc])
    intro q hq
    exact h.cached u q (Or.inr (by simpa [hpc] using hq))
  · exact h

/-- The next step of a call. -/
theorem run (h : Tidy s) (hs : s.runStep t = some s') : Tidy s' := by
  have hnext : ∀ {q : AcqPc} {l : Semaphore} {r : ℕ}, (∀ p, (s.pc t).Waits p ↔ r = p) →
      (∀ p, q.Waits p ↔ r = p) → Tidy ((s.setLock r l).goto t q) := by
    intro q l r hr hq
    refine (h.setLock r l).goto ?_ ?_
    · intro p hp
      exact h.cached t p (Or.inr ((hr p).mpr ((hq p).mp hp)))
    · intro p hp
      exact Or.inl ((hq p).mpr ((hr p).mp hp))
  rw [AcqSys.runStep] at hs
  split at hs
  · rename_i p b hpc
    split at hs
    · cases hs
      exact (h.setLock p _).ret (by simp [AcqSys.setLock, hpc])
    · cases hs
      exact hnext (by simp [hpc]) (by simp)
  · rename_i p b hpc
    split at hs
    · cases hs
      exact hnext (by simp [hpc]) (by simp)
    · cases hs
      exact hnext (by simp [hpc]) (by simp)
  · rename_i p b hpc
    cases hs
    have hd : Tidy { s with cache := s.cache.deviceRead p } := h.set h.no_ne (h.used p)
    exact hd.ret (by simp [hpc])
  · rename_i p hpc
    have hidle : ∀ l, Tidy ((s.setLock p l).goto t .idle) :=
      fun l => (h.setLock p l).goto (by simp) (by simp [AcqSys.setLock, hpc])
    split at hs
    · cases hs
    · cases hs
      exact hidle _
    · cases hs
      exact (hidle _).wake _
  all_goals cases hs

/-- A thread at rest starts to wait for a cached block. -/
theorem wait (h : Tidy s) (hpc : s.pc t = .idle) (hp : p ∈ s.cache.head) {q : AcqPc}
    (hq : ∀ r, q.Waits r ↔ p = r) : Tidy (s.goto t q) ∧ (s.goto t q).Uses t p := by
  refine ⟨h.goto ?_ (by simp [hpc]), uses_goto.mpr (Or.inr ?_)⟩
  · intro r hr
    rw [← (hq r).mp hr]
    exact hp
  · rw [if_pos rfl, hq]

/-- A new block is locked before it is handed out. -/
theorem fresh (h : Tidy s) (hpc : s.pc t = .idle) (hl : s.cache.lookup b = none) :
    Tidy (({ s with cache := s.cache.addFresh b } : AcqSys).ret t s.cache.brk b) := by
  have hno := Bcache.lookup_eq_none.mp hl
  have hbrk : s.cache.brk ∉ s.cache.head := fun hp => lt_irrefl _ (h.lt_brk _ hp)
  have hmem : ∀ q ∈ s.cache.head, (s.cache.addFresh b).mem q = s.cache.mem q :=
    fun q hq => Function.update_of_ne (h.lt_brk q hq).ne _ _
  have hself : (s.cache.addFresh b).mem s.cache.brk = Bcache.freshBlock b (s.cache.disk b) :=
    Function.update_self ..
  have huses : ∀ u q, (({ s with cache := s.cache.addFresh b } : AcqSys).ret t s.cache.brk b).Uses u q ↔
      u = t ∧ q = s.cache.brk ∨ s.Uses u q := fun u q => uses_ret (by simp [hpc])
  refine ⟨List.nodup_cons.mpr ⟨hbrk, h.nodup⟩, ?_, ?_, ?_, ?_⟩
  · intro p hp
    rcases List.mem_cons.mp hp with rfl | hp
    · exact Nat.lt_succ_self _
    · exact Nat.lt_succ_of_lt (h.lt_brk p hp)
  · intro p hp q hq hpq
    have hpq' : ((s.cache.addFresh b).mem p).blockNo = ((s.cache.addFresh b).mem q).blockNo := hpq
    rcases List.mem_cons.mp hp with rfl | hp
    · rcases List.mem_cons.mp hq with rfl | hq
      · rfl
      · rw [hself, hmem q hq] at hpq'
        exact absurd hpq'.symm (hno q hq)
    · rcases List.mem_cons.mp hq with rfl | hq
      · rw [hself, hmem p hp] at hpq'
        exact absurd hpq' (hno p hp)
      · rw [hmem p hp, hmem q hq] at hpq'
        exact h.inj p hp q hq hpq'
  · intro u q hu
    rcases (huses u q).mp hu with ⟨-, rfl⟩ | hu
    · exact List.mem_cons_self
    · exact List.mem_cons_of_mem _ (h.cached u q hu)
  · intro q hq ha
    rcases List.mem_cons.mp hq with rfl | hq
    · exact ⟨t, (huses t _).mpr (Or.inl ⟨rfl, rfl⟩)⟩
    · have ha' : ((s.cache.addFresh b).mem q).acquired = true := ha
      rw [hmem q hq] at ha'
      obtain ⟨u, hu⟩ := h.used q hq ha'
      exact ⟨u, (huses u q).mpr (Or.inr hu)⟩

/-- **The critical section of `cache_acquire`.** -/
theorem acquire (h : Tidy s) (hs : s.step (t, .acquire b) = some s') : Tidy s' := by
  rw [AcqSys.step] at hs
  split at hs
  case isFalse => cases hs
  rename_i hpc
  rcases s.cache.acquireLocked_cases b with ⟨p, hl, hc⟩ | ⟨p, hl, -, hv, hc⟩ | ⟨hl, -, hc⟩
  · rw [hc] at hs
    cases hs
    obtain ⟨hw, hu⟩ := h.wait hpc (Bcache.mem_of_lookup hl).1 (q := .hitWait p b) (by simp)
    exact hw.set hw.no_ne fun _ _ => ⟨t, hu⟩
  · rw [hc] at hs
    cases hs
    obtain ⟨hw, hu⟩ := h.wait hpc (Bcache.mem_of_victim hv).1 (q := .evictWait p b) (by simp)
    exact hw.set (fun _ q hq _ => Bcache.lookup_eq_none.mp hl q hq) fun _ _ => ⟨t, hu⟩
  · rw [hc] at hs
    cases hs
    exact h.fresh hpc hl

/-- A holder changes its block. -/
theorem put (h : Tidy s) {d : Sector} {kind : SyncKind}
    (hs : s.step (t, .put p d kind) = some s') : Tidy s' := by
  rw [AcqSys.step] at hs
  split at hs
  case h_2 => cases hs
  rename_i b x hpc hh
  cases hs
  have hp : p ∈ s.cache.head := h.cached t p (Or.inl (by rw [hh]; simp))
  have hd : Tidy { s with cache := s.cache.setData p d } := h.set h.no_ne (h.used p)
  have hw : Tidy { s with cache := (s.cache.setData p d).deviceWrite p } :=
    ⟨hd.nodup, hd.lt_brk, hd.inj, hd.cached, hd.used⟩
  -- the contents that are recorded do not matter
  have hcur : ∀ {c : Bcache}, Tidy { s with cache := c } → p ∈ c.head →
      Tidy { s.setHold t p (some (b, d)) with cache := c, cur := Function.update s.cur b d } := by
    intro c hc hpc
    have hc' := hc.setHold hpc t (b, d)
    exact ⟨hc'.nodup, hc'.lt_brk, hc'.inj, hc'.cached, hc'.used⟩
  cases kind with
  | ctx =>
      refine hcur ?_ hp
      exact hd.set hd.no_ne (hd.used p)
  | null => exact hcur hw hp
  | install =>
      refine hcur ?_ hp
      exact hw.set hw.no_ne (hw.used p)

/-- **The critical section of `cache_release`.** -/
theorem release (h : Tidy s) (hs : s.step (t, .release p) = some s') : Tidy s' := by
  rw [AcqSys.step] at hs
  split at hs
  case h_2 => cases hs
  rename_i x hpc hh
  cases hs
  have hp : p ∈ s.cache.head := h.cached t p (Or.inl (by rw [hh]; simp))
  have hperm : (p :: s.cache.head.erase p).Perm s.cache.head := (List.perm_cons_erase hp).symm
  have hset : Tidy { s with cache := s.cache.set p { s.cache.mem p with acquired := false } } :=
    h.set h.no_ne (by simp)
  have huses : ∀ u q, (({ s.setHold t p none with cache := s.cache.releaseLocked p } :
      AcqSys).goto t (.releasing p)).Uses u q ↔ ¬ (u = t ∧ q = p) ∧ s.Uses u q := by
    intro u q
    rw [uses_goto, uses_iff]
    show (s.setHold t p none).hold u q ≠ none ∨
      (if u = t then AcqPc.releasing p else s.pc u).Waits q ↔ _
    rw [hold_setHold]
    by_cases hut : u = t
    · by_cases hqp : q = p
      · simp [hut, hqp]
      · simp [hut, hqp, hpc]
    · simp [hut]
  refine ⟨hperm.nodup_iff.mpr h.nodup, ?_, ?_, ?_, ?_⟩
  · intro q hq
    exact h.lt_brk q (hperm.mem_iff.mp hq)
  · intro q hq r hr hqr
    exact hset.inj q (hperm.mem_iff.mp hq) r (hperm.mem_iff.mp hr) hqr
  · intro u q hu
    exact hperm.mem_iff.mpr (h.cached u q ((huses u q).mp hu).2)
  · intro q hq ha
    have hqp : q ≠ p := by
      rintro rfl
      have ha' : (Function.update s.cache.mem q { s.cache.mem q with acquired := false }
        q).acquired = true := ha
      simp at ha'
    obtain ⟨u, hu⟩ := hset.used q (hperm.mem_iff.mp hq) ha
    exact ⟨u, (huses u q).mpr ⟨fun hut => hqp hut.2, hu⟩⟩

/-- **Every step.** -/
theorem step {i : ℕ × AcqAct} (h : Tidy s) (hs : s.step i = some s') : Tidy s' := by
  obtain ⟨t, a⟩ := i
  cases a with
  | acquire b => exact h.acquire hs
  | put p d kind => exact h.put hs
  | release p => exact h.release hs
  | run => exact h.run hs

theorem boot (disk : ℕ → Sector) : Tidy (AcqSys.start (Bcache.boot disk)) where
  nodup := List.nodup_nil
  lt_brk := fun _ hp => absurd hp List.not_mem_nil
  inj := fun _ hp => absurd hp List.not_mem_nil
  cached := fun _ _ hu => by
    rcases hu with hu | ⟨b, hu⟩
    · exact absurd rfl hu
    · simp [AcqSys.start] at hu
  used := fun _ hp => absurd hp List.not_mem_nil

/-- If every block is pinned or acquired, the cached blocks are the busy ones. -/
theorem length_le_busy (h : Tidy s) (hv : s.cache.victim = none) :
    s.cache.head.length ≤ s.busy.ncard := by
  have hfin : s.busy.Finite := by
    refine Set.Finite.subset (List.finite_toSet s.cache.head) ?_
    intro p hp
    exact hp.1
  have hsub : (↑s.cache.head.toFinset : Set ℕ) ⊆ s.busy := by
    intro p hp
    rw [Finset.mem_coe, List.mem_toFinset] at hp
    refine ⟨hp, ?_⟩
    rcases Bcache.of_victim_none hv hp with hpin | ha
    · exact Or.inl hpin
    · exact Or.inr (h.used p hp ha)
  have hcard := Set.ncard_le_ncard hsub hfin
  rw [Set.ncard_coe_finset, List.toFinset_card_of_nodup h.nodup] at hcard
  exact hcard

/-- The steps of a call in progress leave the list alone. -/
theorem run_head (hs : s.runStep t = some s') : s'.cache.head = s.cache.head := by
  have hwake : ∀ (r : AcqSys) (u : ℕ), (r.wake u).cache.head = r.cache.head := by
    intro r u
    rw [AcqSys.wake]
    split
    all_goals rfl
  rw [AcqSys.runStep] at hs
  split at hs
  · split at hs
    all_goals
      cases hs
      rfl
  · split at hs
    all_goals
      cases hs
      rfl
  · cases hs
    rfl
  · split at hs
    · cases hs
    · cases hs
      rfl
    · cases hs
      rw [hwake]
      rfl
  all_goals cases hs

/-- **The cache grows** only where it is small or where all its blocks are busy. -/
theorem length {i : ℕ × AcqAct} (h : Tidy s) (hs : s.step i = some s') :
    s'.cache.head.length = s.cache.head.length ∨
      (s.cache.head.length < evictionThreshold ∨ s.cache.head.length ≤ s.busy.ncard) ∧
        s'.cache.head.length = s.cache.head.length + 1 := by
  obtain ⟨t, a⟩ := i
  cases a with
  | acquire b =>
      rw [AcqSys.step] at hs
      split at hs
      case isFalse => cases hs
      rcases s.cache.acquireLocked_cases b with ⟨p, -, hc⟩ | ⟨p, -, -, -, hc⟩ | ⟨-, hfull, hc⟩
      · rw [hc] at hs
        cases hs
        exact Or.inl rfl
      · rw [hc] at hs
        cases hs
        exact Or.inl rfl
      · rw [hc] at hs
        cases hs
        exact Or.inr ⟨hfull.imp_right h.length_le_busy, List.length_cons⟩
  | put p d kind =>
      rw [AcqSys.step] at hs
      split at hs
      case h_2 => cases hs
      cases hs
      cases kind
      all_goals exact Or.inl rfl
  | release p =>
      rw [AcqSys.step] at hs
      split at hs
      case h_2 => cases hs
      rename_i x hpc hh
      cases hs
      have hp : p ∈ s.cache.head := h.cached t p (Or.inl (by rw [hh]; simp))
      exact Or.inl (List.perm_cons_erase hp).symm.length_eq
  | run => exact Or.inl (congrArg List.length (run_head hs))

end Tidy

/-- **The size of the cache.**  While at most `N` blocks are busy at any time, no more than
`N + 1` or `EVICTION_THRESHOLD` blocks are cached. -/
theorem length_of_reach {disk : ℕ → Sector}
    (h : Reach AcqSys.step (fun s _ => s.busy.ncard ≤ N) (AcqSys.start (Bcache.boot disk)) s) :
    Tidy s ∧ s.cache.head.length ≤ max evictionThreshold (1 + N) := by
  refine h.invariant (P := fun s => Tidy s ∧ s.cache.head.length ≤ max evictionThreshold (1 + N))
    ⟨Tidy.boot disk, Nat.zero_le _⟩ ?_
  intro s i s' hP hbusy hs
  obtain ⟨hT, hlen⟩ := hP
  refine ⟨hT.step hs, ?_⟩
  have hle := le_max_left evictionThreshold (1 + N)
  have hle' := le_max_right evictionThreshold (1 + N)
  rcases hT.length hs with hsame | ⟨hgrow, hsucc⟩
  · omega
  · omega

end AcqSys

/-! ## One call after the other -/

/-- What a caller does. -/
inductive SerialAct
  | acquire (b : ℕ)
  | release (p : ℕ)
  | put (p : ℕ) (d : Sector) (kind : SyncKind)

/-- The cache, and which blocks are held and when each was released last. -/
structure SerialCache where
  cache : Bcache
  held : ℕ → Bool
  released : ℕ → ℕ
  clock : ℕ

namespace SerialCache

/-- One call, of a holder where the call is on a block. -/
def step (s : SerialCache) : SerialAct → Option SerialCache
  | .acquire b => (s.cache.cacheAcquire b).map fun r =>
      { s with cache := r.2, held := Function.update s.held r.1 true }
  | .release p =>
      if s.held p then (s.cache.cacheRelease p).map fun c =>
        { cache := c
          held := Function.update s.held p false
          released := Function.update s.released p s.clock
          clock := s.clock + 1 }
      else none
  | .put p d kind =>
      if s.held p then
        let c := s.cache.setData p d
        some { s with cache := match kind with
          | .ctx => c.setPinned p true
          | .null => c.deviceWrite p
          | .install => (c.deviceWrite p).setPinned p false }
      else none

def start (disk : ℕ → Sector) : SerialCache := ⟨Bcache.boot disk, fun _ => false, fun _ => 0, 0⟩

/-- `acquired` says which blocks are held, and the others are in the order of their releases. -/
structure Ordered (c : Bcache) (held : ℕ → Bool) (released : ℕ → ℕ) (clock : ℕ) : Prop where
  nodup : c.head.Nodup
  lt_brk : ∀ p ∈ c.head, p < c.brk
  acquired : ∀ p ∈ c.head, (c.mem p).acquired = held p
  cached : ∀ p, held p = true → p ∈ c.head
  order : Recency (fun p => held p = false) released c.head
  past : ∀ p, held p = false → p ∈ c.head → released p < clock

namespace Ordered

variable {c c' : Bcache} {held : ℕ → Bool} {released : ℕ → ℕ} {clock p b : ℕ}

theorem held_mono {q : ℕ} (h : Function.update held p true q = false) : held q = false := by
  by_cases hqp : q = p
  · simp [hqp] at h
  · rwa [Function.update_of_ne hqp] at h

/-- A block that is cached is handed out: it keeps its place. -/
theorem hold (h : Ordered c held released clock) (hp : p ∈ c.head) (hhead : c'.head = c.head)
    (hbrk : c'.brk = c.brk) (hmem : ∀ q, q ≠ p → c'.mem q = c.mem q)
    (ha : (c'.mem p).acquired = true) :
    Ordered c' (Function.update held p true) released clock := by
  constructor
  case nodup =>
    rw [hhead]
    exact h.nodup
  case lt_brk =>
    rw [hhead, hbrk]
    exact h.lt_brk
  case acquired =>
    rw [hhead]
    intro q hq
    by_cases hqp : q = p
    · rw [hqp, ha, Function.update_self]
    · rw [hmem q hqp, Function.update_of_ne hqp]
      exact h.acquired q hq
  case cached =>
    rw [hhead]
    intro q hq
    by_cases hqp : q = p
    · rw [hqp]
      exact hp
    · rw [Function.update_of_ne hqp] at hq
      exact h.cached q hq
  case order =>
    rw [hhead]
    exact h.order.mono fun q _ => held_mono
  case past =>
    rw [hhead]
    exact fun q hq => h.past q (held_mono hq)

/-- A new block is handed out: it comes in front. -/
theorem fresh (h : Ordered c held released clock) :
    Ordered (c.addFresh b) (Function.update held c.brk true) released clock := by
  have hbrk : c.brk ∉ c.head := fun hp => lt_irrefl _ (h.lt_brk _ hp)
  have hne : ∀ q ∈ c.head, q ≠ c.brk := fun q hq => (h.lt_brk q hq).ne
  refine ⟨List.nodup_cons.mpr ⟨hbrk, h.nodup⟩, ?_, ?_, ?_, ?_, ?_⟩
  · intro q hq
    rcases List.mem_cons.mp hq with rfl | hq
    · exact Nat.lt_succ_self _
    · exact Nat.lt_succ_of_lt (h.lt_brk q hq)
  · intro q hq
    rcases List.mem_cons.mp hq with rfl | hq
    · rw [Function.update_self]
      exact congrArg Block.acquired (Bcache.set_mem_self ..)
    · rw [Function.update_of_ne (hne q hq), ← h.acquired q hq]
      exact congrArg Block.acquired (Bcache.set_mem_of_ne _ _ (hne q hq))
  · intro q hq
    by_cases hqp : q = c.brk
    · rw [hqp]
      exact List.mem_cons_self
    · rw [Function.update_of_ne hqp] at hq
      exact List.mem_cons_of_mem _ (h.cached q hq)
  · refine (h.order.mono fun q _ => held_mono).cons ?_
    simp
  · intro q hq hmem
    rcases List.mem_cons.mp hmem with rfl | hmem
    · simp at hq
    · exact h.past q (held_mono hq) hmem

/-- A block that is given back goes to the front. -/
theorem release (h : Ordered c held released clock) (hheld : held p = true)
    (hhead : c'.head = p :: c.head.erase p) (hbrk : c'.brk = c.brk)
    (hmem : ∀ q, q ≠ p → c'.mem q = c.mem q) (ha : (c'.mem p).acquired = false) :
    Ordered c' (Function.update held p false) (Function.update released p clock) (clock + 1) := by
  have hperm : c'.head.Perm c.head := by
    rw [hhead]
    exact (List.perm_cons_erase (h.cached p hheld)).symm
  refine ⟨hperm.nodup_iff.mpr h.nodup, ?_, ?_, ?_, ?_, ?_⟩
  · intro q hq
    rw [hbrk]
    exact h.lt_brk q (hperm.mem_iff.mp hq)
  · intro q hq
    by_cases hqp : q = p
    · rw [hqp, ha, Function.update_self]
    · rw [hmem q hqp, Function.update_of_ne hqp]
      exact h.acquired q (hperm.mem_iff.mp hq)
  · intro q hq
    by_cases hqp : q = p
    · simp [hqp] at hq
    · rw [Function.update_of_ne hqp] at hq
      exact hperm.mem_iff.mpr (h.cached q hq)
  · rw [hhead]
    refine h.order.moveToFront h.nodup (fun q hq hfree => h.past q hfree hq) ?_
    intro q hqp hq
    rwa [Function.update_of_ne hqp] at hq
  · intro q hq hq'
    by_cases hqp : q = p
    · rw [hqp, Function.update_self]
      exact Nat.lt_succ_self _
    · rw [Function.update_of_ne hqp] at hq ⊢
      exact Nat.lt_succ_of_lt (h.past q hq (hperm.mem_iff.mp hq'))

/-- A change of the contents, the pins or the disk. -/
theorem congr (h : Ordered c held released clock) (hhead : c'.head = c.head)
    (hbrk : c'.brk = c.brk) (ha : ∀ q, (c'.mem q).acquired = (c.mem q).acquired) :
    Ordered c' held released clock := by
  constructor
  case nodup =>
    rw [hhead]
    exact h.nodup
  case lt_brk =>
    rw [hhead, hbrk]
    exact h.lt_brk
  case acquired =>
    rw [hhead]
    intro q hq
    rw [ha]
    exact h.acquired q hq
  case cached =>
    rw [hhead]
    exact h.cached
  case order =>
    rw [hhead]
    exact h.order
  case past =>
    rw [hhead]
    exact h.past

/-- **The victim** is the block released longest ago of those neither pinned nor held. -/
theorem oldest (h : Ordered c held released clock) (hv : c.victim = some p) :
    (c.mem p).pinned = false ∧ held p = false ∧ ∀ q ∈ c.head, q ≠ p →
      (c.mem q).pinned = false → held q = false → released p < released q := by
  obtain ⟨hp, hpin, ha⟩ := Bcache.mem_of_victim hv
  refine ⟨hpin, (h.acquired p hp).symm.trans ha, ?_⟩
  intro q hq hqp hqpin hqfree
  have horder : Recency (fun q => q ∈ c.head → held q = false) released c.head :=
    h.order.mono fun q hq hfree => hfree hq
  refine horder.find_reverse hv ?_ q hq hqp ?_
  · intro r hr hmem
    rw [← h.acquired r hmem]
    simp only [Bool.and_eq_true, Bool.not_eq_true'] at hr
    exact hr.2
  · rw [hqpin, h.acquired q hq, hqfree]
    rfl

end Ordered

variable {s s' : SerialCache} {a : SerialAct}

/-- What a change by a holder leaves alone. -/
theorem put_cases {p : ℕ} {d : Sector} {kind : SyncKind} (hs : s.step (.put p d kind) = some s') :
    s'.cache.head = s.cache.head ∧ s'.cache.brk = s.cache.brk ∧
      (∀ q, (s'.cache.mem q).acquired = (s.cache.mem q).acquired ∧
        (s'.cache.mem q).blockNo = (s.cache.mem q).blockNo) ∧
      s'.held = s.held ∧ s'.released = s.released ∧ s'.clock = s.clock := by
  have hset : ∀ (c : Bcache) (d : Sector) (v : Bool) (q : ℕ),
      (((c.setData p d).setPinned p v).mem q).acquired = (c.mem q).acquired ∧
      (((c.setData p d).setPinned p v).mem q).blockNo = (c.mem q).blockNo ∧
      ((c.setData p d).mem q).acquired = (c.mem q).acquired ∧
      ((c.setData p d).mem q).blockNo = (c.mem q).blockNo := by
    intro c d v q
    by_cases hq : q = p
    · simp [Bcache.setPinned, Bcache.setData, Bcache.set, hq]
    · simp [Bcache.setPinned, Bcache.setData, Bcache.set, hq]
  rw [SerialCache.step] at hs
  split at hs
  case isFalse => cases hs
  cases hs
  cases kind with
  | ctx =>
      refine ⟨rfl, rfl, fun q => ?_, rfl, rfl, rfl⟩
      exact ⟨(hset s.cache d true q).1, (hset s.cache d true q).2.1⟩
  | null =>
      refine ⟨rfl, rfl, fun q => ?_, rfl, rfl, rfl⟩
      exact (hset s.cache d true q).2.2
  | install =>
      refine ⟨rfl, rfl, fun q => ?_, rfl, rfl, rfl⟩
      exact ⟨(hset s.cache d false q).1, (hset s.cache d false q).2.1⟩

theorem Ordered.step (h : Ordered s.cache s.held s.released s.clock) (hs : s.step a = some s') :
    Ordered s'.cache s'.held s'.released s'.clock := by
  cases a with
  | acquire b =>
      obtain ⟨⟨p, c⟩, hc, rfl⟩ := Option.map_eq_some_iff.mp hs
      rcases Bcache.cacheAcquire_cases hc with ⟨hp, hhead, hbrk, hmem, ha, -⟩ | ⟨rfl, rfl⟩
      · exact h.hold hp hhead hbrk hmem ha
      · exact h.fresh
  | release p =>
      rw [SerialCache.step] at hs
      split at hs
      case isFalse => cases hs
      rename_i hheld
      obtain ⟨c, hc, rfl⟩ := Option.map_eq_some_iff.mp hs
      obtain ⟨hhead, hbrk, hmem, ha, -⟩ := Bcache.cacheRelease_cases hc
      exact h.release hheld hhead hbrk hmem ha
  | put p d kind =>
      obtain ⟨hhead, hbrk, hmem, hheld, hrel, hclock⟩ := put_cases hs
      rw [hheld, hrel, hclock]
      exact h.congr hhead hbrk fun q => (hmem q).1

theorem ordered_start (disk : ℕ → Sector) :
    Ordered (start disk).cache (start disk).held (start disk).released (start disk).clock where
  nodup := List.nodup_nil
  lt_brk := fun _ hp => absurd hp List.not_mem_nil
  acquired := fun _ hp => absurd hp List.not_mem_nil
  cached := fun _ hp => absurd hp (by simp [start])
  order := Recency.nil
  past := fun _ _ hp => absurd hp List.not_mem_nil

/-- The call takes the structure `p` from the number it had: it is a miss, the cache is full, and
`p` is the block released longest ago among those neither pinned nor held. -/
def EvictsOldest (s : SerialCache) (a : SerialAct) (p : ℕ) : Prop :=
  (∃ b, a = .acquire b ∧ ∀ q ∈ s.cache.head, (s.cache.mem q).blockNo ≠ b) ∧
    evictionThreshold ≤ s.cache.head.length ∧
    (s.cache.mem p).pinned = false ∧ s.held p = false ∧
    ∀ q ∈ s.cache.head, q ≠ p → (s.cache.mem q).pinned = false → s.held q = false →
      s.released p < s.released q

/-- A cached block stays cached, and another number comes to its structure by eviction only. -/
theorem Ordered.evicts (h : Ordered s.cache s.held s.released s.clock) (hs : s.step a = some s')
    {p : ℕ} (hp : p ∈ s.cache.head) : p ∈ s'.cache.head ∧
      ((s'.cache.mem p).blockNo ≠ (s.cache.mem p).blockNo → s.EvictsOldest a p) := by
  cases a with
  | acquire b =>
      obtain ⟨⟨r, c⟩, hc, rfl⟩ := Option.map_eq_some_iff.mp hs
      rcases Bcache.cacheAcquire_cases hc with ⟨-, hhead, -, hmem, -, hno⟩ | ⟨rfl, rfl⟩
      · refine ⟨hhead ▸ hp, ?_⟩
        intro hne
        have hpr : p = r := by
          by_contra hpr
          exact hne (congrArg Block.blockNo (hmem p hpr))
        subst hpr
        rcases hno with hno | ⟨hl, ht, hv⟩
        · exact absurd hno hne
        · obtain ⟨hpin, hfree, hold⟩ := h.oldest hv
          exact ⟨⟨b, rfl, Bcache.lookup_eq_none.mp hl⟩, ht, hpin, hfree, hold⟩
      · refine ⟨List.mem_cons_of_mem _ hp, ?_⟩
        intro hne
        exact absurd (congrArg Block.blockNo (Bcache.set_mem_of_ne _ _ (h.lt_brk p hp).ne)) hne
  | release r =>
      rw [SerialCache.step] at hs
      split at hs
      case isFalse => cases hs
      rename_i hheld
      obtain ⟨c, hc, rfl⟩ := Option.map_eq_some_iff.mp hs
      obtain ⟨hhead, -, hmem, -, hno⟩ := Bcache.cacheRelease_cases hc
      refine ⟨?_, ?_⟩
      · show p ∈ c.head
        rw [hhead]
        exact (List.perm_cons_erase (h.cached r hheld)).mem_iff.mp hp
      · intro hne
        by_cases hpr : p = r
        · rw [hpr] at hne
          exact absurd hno hne
        · exact absurd (congrArg Block.blockNo (hmem p hpr)) hne
  | put r d kind =>
      obtain ⟨hhead, -, hmem, -⟩ := put_cases hs
      exact ⟨hhead ▸ hp, fun hne => absurd (hmem p).2 hne⟩

end SerialCache

/-- **The cache stays small and evicts the least recently used block.**  In every interleaving the
cached blocks have different numbers, and while at most `N` of them are pinned, held or waited for
at any time, at most `EVICTION_THRESHOLD` or `N + 1` blocks are cached.  In runs of one call after
the other a block is evicted on a miss with a full cache only, and it is the one released longest
ago of those neither pinned nor held. -/
theorem cache_size_and_order (disk : ℕ → Sector) :
    (∀ s, Reach AcqSys.step (fun _ _ => True) (AcqSys.start (Bcache.boot disk)) s →
      ∀ p ∈ s.cache.head, ∀ q ∈ s.cache.head,
        (s.cache.mem p).blockNo = (s.cache.mem q).blockNo → p = q) ∧
    (∀ N s, Reach AcqSys.step (fun s _ => s.busy.ncard ≤ N) (AcqSys.start (Bcache.boot disk)) s →
      s.cache.head.length ≤ max evictionThreshold (1 + N)) ∧
    ∀ s, Reach SerialCache.step (fun _ _ => True) (SerialCache.start disk) s →
      ∀ a s', s.step a = some s' → ∀ p ∈ s.cache.head, p ∈ s'.cache.head ∧
        ((s'.cache.mem p).blockNo ≠ (s.cache.mem p).blockNo → s.EvictsOldest a p) := by
  refine ⟨?_, ?_, ?_⟩
  · intro s hr
    have hT : s.Tidy := hr.invariant (P := AcqSys.Tidy) (AcqSys.Tidy.boot disk)
      fun _ _ _ hT _ hs => hT.step hs
    exact hT.inj
  · intro N s hr
    exact (AcqSys.length_of_reach hr).2
  · intro s hr a s' hs p hp
    have hO : SerialCache.Ordered s.cache s.held s.released s.clock :=
      hr.invariant (P := fun s : SerialCache => SerialCache.Ordered s.cache s.held s.released s.clock)
        (SerialCache.ordered_start disk) fun _ _ _ hO _ hs => hO.step hs
    exact hO.evicts hs hp

end OsLab
