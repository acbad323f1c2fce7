import OsLab.Fs.AcquireSys

/-!
# The lock of one cached block

What the threads do to one `Block` structure, on its own.  `Role` is a thread's
part in it, as far as its program counter tells, and `BlockOk` the invariant: who
may have the lock, who is asleep on it, and when the data has been loaded.  Each
theorem is one step of one thread, with the condition under which it keeps the
invariant.

## Main definitions

* `Role`, `AcqPc.role` — the part of a thread in one block.
* `BlockOk` — the invariant of a block.
-/

namespace OsLab

/-- The part of a thread in one block. -/
inductive Role
  | none
  | hitWait (b : ℕ)
  | hitAsleep (b : ℕ)
  | evictWait (b : ℕ)
  | evictAsleep (b : ℕ)
  | reading (b : ℕ)
  | releasing
  deriving DecidableEq, Repr

namespace Role

/-- The number the thread is after. -/
def number : Role → Option ℕ
  | hitWait b | hitAsleep b | evictWait b | evictAsleep b | reading b => some b
  | none | releasing => .none

/-- On the sleep list of the lock. -/
def asleep : Role → Bool
  | hitAsleep _ | evictAsleep _ => true
  | _ => false

/-- Has taken the block from another number and does not have its lock yet. -/
def evicting : Role → Bool
  | evictWait _ | evictAsleep _ => true
  | _ => false

/-- Has taken the block from another number and not loaded it yet. -/
def loading : Role → Bool
  | evictWait _ | evictAsleep _ | reading _ => true
  | _ => false

/-- Has the lock. -/
def locking : Role → Bool
  | reading _ | releasing => true
  | _ => false

end Role

/-- The part of a thread at this point in the block at `p`. -/
def AcqPc.role (p : ℕ) : AcqPc → Role
  | .idle => .none
  | .hitWait q b => if q = p then .hitWait b else .none
  | .hitAsleep q b => if q = p then .hitAsleep b else .none
  | .evictWait q b => if q = p then .evictWait b else .none
  | .evictAsleep q b => if q = p then .evictAsleep b else .none
  | .reading q b => if q = p then .reading b else .none
  | .releasing q => if q = p then .releasing else .none

variable {cur : ℕ → Sector} {blk blk' : Block} {role role' : ℕ → Role}
  {hold hold' : ℕ → Option (ℕ × Sector)} {t u b : ℕ} {d : Sector}

/-- The invariant of a cached block. -/
structure BlockOk (cur : ℕ → Sector) (blk : Block) (role : ℕ → Role)
    (hold : ℕ → Option (ℕ × Sector)) : Prop where
  /-- the lock is free, or its counter says how many are asleep -/
  lock : (blk.lock = ⟨1, []⟩ ∧ ∀ t, hold t = none ∧ (role t).locking = false) ∨
    blk.lock.Balanced
  nodup : blk.lock.sleeplist.Nodup
  asleep : ∀ u, u ∈ blk.lock.sleeplist ↔ (role u).asleep = true
  /-- at most one thread has the lock -/
  one_holder : ∀ t u, hold t ≠ none → hold u ≠ none → t = u
  one_locking : ∀ t u, (role t).locking = true → (role u).locking = true → t = u
  excl : ∀ t u, hold t ≠ none → (role u).locking = false
  number : ∀ t b, (role t).number = some b → blk.blockNo = b
  held : ∀ t b d, hold t = some (b, d) → blk.blockNo = b ∧ blk.data = d
  one_loading : ∀ t u, (role t).loading = true → (role u).loading = true → t = u
  /-- the thread that takes a block over is the next one to have the lock -/
  evicting : ∀ u, (role u).evicting = true → ∀ v, hold v = none
  evictWait : ∀ u b, role u = .evictWait b → blk.lock.sleeplist = []
  evictAsleep : ∀ u b, role u = .evictAsleep b → blk.lock.sleeplist.getLast? = some u
  unpinned : ∀ u, (role u).loading = true → blk.pinned = false
  loaded : (∀ u, (role u).loading = false) → blk.data = cur blk.blockNo

attribute [grind] Role.number Role.asleep Role.evicting Role.loading Role.locking

@[grind →] theorem Role.loading_of_evicting {r : Role} (h : r.evicting = true) :
    r.loading = true := by
  cases r <;> simp_all [Role.evicting, Role.loading]

/-- A thread that loads the block waits for its lock, sleeps on it or has it. -/
theorem Role.loading_cases {r : Role} (h : r.loading = true) :
    (∃ b, r = .evictWait b) ∨ r.asleep = true ∨ r.locking = true := by
  cases r <;> simp_all [Role.asleep, Role.loading, Role.locking]

theorem Role.of_number_eq_none {r : Role} (h : r.number = .none) :
    r.asleep = false ∧ r.loading = false := by
  cases r <;> simp_all [Role.number, Role.asleep, Role.loading]

namespace BlockOk

/-- Where one thread that does not load the block changes its part. -/
theorem loading_of_update {r : Role} (ht : (role t).loading = false)
    (h : ∀ u, (Function.update role t r u).loading = false) : ∀ u, (role u).loading = false := by
  intro u
  by_cases hu : u = t
  · rw [hu]
    exact ht
  · have := h u
    rwa [Function.update_of_ne hu] at this

/-- A thread that goes on to load the block leaves it unloaded. -/
theorem not_loaded_of_update {r : Role} (hr : r.loading = true) :
    ¬ ∀ u, (Function.update role t r u).loading = false := by
  intro h
  have := h t
  rw [Function.update_self, hr] at this
  cases this

/-- A thread that has the lock finds it taken. -/
theorem balanced_of_locking (h : BlockOk cur blk role hold) (hr : (role t).locking = true) :
    blk.lock.Balanced := by
  rcases h.lock with hf | hb
  · rw [(hf.2 t).2] at hr
    cases hr
  · exact hb

/-- Nobody holds a block whose lock a thread has on its way in or out. -/
theorem hold_eq_none (h : BlockOk cur blk role hold) (hr : (role t).locking = true) :
    ∀ u, hold u = none := by
  intro u
  by_contra hu
  rw [h.excl u t hu] at hr
  cases hr

/-- A block that somebody holds has been loaded. -/
theorem loaded_of_hold (h : BlockOk cur blk role hold) (ht : hold t ≠ none) :
    ∀ u, (role u).loading = false := by
  intro u
  by_contra hu
  rcases hr : role u with _ | _ | _ | b | b | b | _
  case evictWait => exact ht (h.evicting u (by rw [hr]; rfl) t)
  case evictAsleep => exact ht (h.evicting u (by rw [hr]; rfl) t)
  case reading =>
    have := h.excl t u ht
    rw [hr] at this
    cases this
  all_goals
    rw [hr] at hu
    exact hu rfl

/-- Nobody has or waits for a lock that is free. -/
theorem of_free (h : BlockOk cur blk role hold) (hl : blk.lock = ⟨1, []⟩) :
    ∀ u, hold u = none ∧ (role u).locking = false ∧ (role u).asleep = false := by
  have hasleep := h.asleep
  rcases h.lock with hf | hb
  · grind
  · rw [hl] at hb
    simp [Semaphore.Balanced] at hb

/-- The flags `acquired` and `valid` do not matter. -/
theorem congr (h : BlockOk cur blk role hold) (blk' : Block)
    (hno : blk'.blockNo = blk.blockNo) (hpin : blk'.pinned = blk.pinned)
    (hlock : blk'.lock = blk.lock) (hdata : blk'.data = blk.data) :
    BlockOk cur blk' role hold := by
  obtain ⟨h1, h2, h3, h4, h5, h6, h7, h8, h9, h10, h11, h12, h13, h14⟩ := h
  constructor <;> grind

/-- `cache_acquire` finds the block cached. -/
theorem hit (h : BlockOk cur blk role hold) (hr : role t = .none) :
    BlockOk cur blk (Function.update role t (.hitWait blk.blockNo)) hold := by
  obtain ⟨h1, h2, h3, h4, h5, h6, h7, h8, h9, h10, h11, h12, h13, h14⟩ := h
  constructor
  case loaded => exact fun hl => h14 (loading_of_update (by rw [hr]; rfl) hl)
  all_goals grind [Function.update_apply]

/-- The lock was free: `cache_acquire` returns a cached block. -/
theorem hit_lock (h : BlockOk cur blk role hold) (hr : role t = .hitWait b)
    (hl : blk.lock = ⟨1, []⟩) (hno : ∀ u c, role u ≠ .evictWait c) :
    BlockOk cur { blk with lock := ⟨0, []⟩ } (Function.update role t .none)
      (Function.update hold t (some (b, cur b))) := by
  have hfree := h.of_free hl
  -- nobody is about to load the block
  have hload : ∀ u, (role u).loading = false := by
    intro u
    by_contra hu
    rcases Role.loading_cases (by simpa using hu) with ⟨c, hc⟩ | ha | hk
    · exact hno u c hc
    · rw [(hfree u).2.2] at ha
      cases ha
    · rw [(hfree u).2.1] at hk
      cases hk
  have hdata := h.loaded hload
  have hnum := h.number t b (by rw [hr]; rfl)
  obtain ⟨h1, h2, h3, h4, h5, h6, h7, h8, h9, h10, h11, h12, h13, h14⟩ := h
  constructor
  case lock => exact Or.inr rfl
  case loaded => exact fun _ => hdata
  all_goals grind [Function.update_apply]

/-- The lock was taken: the thread goes to sleep. -/
theorem hit_sleep (h : BlockOk cur blk role hold) (hr : role t = .hitWait b)
    (hl : blk.lock.Balanced) (hno : ∀ u c, role u ≠ .evictWait c) :
    BlockOk cur { blk with lock := ⟨blk.lock.val - 1, t :: blk.lock.sleeplist⟩ }
      (Function.update role t (.hitAsleep b)) hold := by
  have hnot : t ∉ blk.lock.sleeplist := by
    rw [h.asleep t, hr]
    simp [Role.asleep]
  obtain ⟨h1, h2, h3, h4, h5, h6, h7, h8, h9, h10, h11, h12, h13, h14⟩ := h
  constructor
  case lock => exact Or.inr (hl.sleep t)
  case loaded => exact fun hl => h14 (loading_of_update (by rw [hr]; rfl) hl)
  all_goals grind [Function.update_apply]

/-- The thread that has taken the block over gets its lock. -/
theorem evict_lock (h : BlockOk cur blk role hold) (hr : role t = .evictWait b)
    (hl : blk.lock = ⟨1, []⟩) :
    BlockOk cur { blk with lock := ⟨0, []⟩ } (Function.update role t (.reading b)) hold := by
  have hfree := h.of_free hl
  obtain ⟨h1, h2, h3, h4, h5, h6, h7, h8, h9, h10, h11, h12, h13, h14⟩ := h
  constructor
  case lock => exact Or.inr rfl
  case loaded => exact fun hload => absurd hload (not_loaded_of_update rfl)
  all_goals grind [Function.update_apply]

/-- It goes to sleep while its last holder has yet to post. -/
theorem evict_sleep (h : BlockOk cur blk role hold) (hr : role t = .evictWait b)
    (hl : blk.lock.Balanced) :
    BlockOk cur { blk with lock := ⟨blk.lock.val - 1, t :: blk.lock.sleeplist⟩ }
      (Function.update role t (.evictAsleep b)) hold := by
  have hnil := h.evictWait t b hr
  obtain ⟨h1, h2, h3, h4, h5, h6, h7, h8, h9, h10, h11, h12, h13, h14⟩ := h
  constructor
  case lock => exact Or.inr (hl.sleep t)
  case loaded => exact fun hload => absurd hload (not_loaded_of_update rfl)
  all_goals grind [Function.update_apply]

/-- The device read of the thread that has taken the block over. -/
theorem load (h : BlockOk cur blk role hold) (hr : role t = .reading b) (hd : d = cur b) :
    BlockOk cur { blk with data := d } (Function.update role t .none)
      (Function.update hold t (some (b, d))) := by
  have hnum := h.number t b (by rw [hr]; rfl)
  have hlock : (role t).locking = true := by rw [hr]; rfl
  have hload : (role t).loading = true := by rw [hr]; rfl
  have hbal := h.balanced_of_locking hlock
  have hfree := h.hold_eq_none hlock
  obtain ⟨h1, h2, h3, h4, h5, h6, h7, h8, h9, h10, h11, h12, h13, h14⟩ := h
  constructor
  case lock => exact Or.inr hbal
  case loaded => exact fun _ => by rw [hd, hnum]
  all_goals grind [Function.update_apply]

/-- The critical section of `cache_release`. -/
theorem release (h : BlockOk cur blk role hold) (ht : hold t ≠ none) (hr : role t = .none) :
    BlockOk cur blk (Function.update role t .releasing) (Function.update hold t none) := by
  have hexcl := h.excl t
  have hbal : blk.lock.Balanced := by
    rcases h.lock with hf | hb
    · exact absurd (hf.2 t).1 ht
    · exact hb
  obtain ⟨h1, h2, h3, h4, h5, h6, h7, h8, h9, h10, h11, h12, h13, h14⟩ := h
  constructor
  case lock => exact Or.inr hbal
  case loaded => exact fun hl => h14 (loading_of_update (by rw [hr]; rfl) hl)
  all_goals grind [Function.update_apply]

/-- The post of a release with nobody asleep. -/
theorem post_free (h : BlockOk cur blk role hold) (hr : role t = .releasing)
    (hl : blk.lock.sleeplist = []) :
    BlockOk cur { blk with lock := ⟨1, []⟩ } (Function.update role t .none) hold := by
  have hlock : (role t).locking = true := by rw [hr]; rfl
  have hload : (role t).loading = false := by rw [hr]; rfl
  obtain ⟨h1, h2, h3, h4, h5, h6, h7, h8, h9, h10, h11, h12, h13, h14⟩ := h
  constructor
  case lock => grind [Function.update_apply]
  case loaded => exact fun hl => h14 (loading_of_update hload hl)
  all_goals grind [Function.update_apply]

/-- The post of a release wakes the oldest sleeper, which found the block cached. -/
theorem post_hit (h : BlockOk cur blk role hold) (hr : role t = .releasing) {l : List ℕ}
    (hl : blk.lock.sleeplist = l ++ [u]) (hu : role u = .hitAsleep b) :
    BlockOk cur { blk with lock := ⟨blk.lock.val + 1, l⟩ }
      (Function.update (Function.update role t .none) u .none)
      (Function.update hold u (some (b, cur b))) := by
  have hlock : (role t).locking = true := by rw [hr]; rfl
  have hbal := (h.balanced_of_locking hlock).wake hl
  have hfree := h.hold_eq_none hlock
  -- a thread that had taken the block over would be the oldest sleeper
  have hload : ∀ v, (role v).loading = false := by
    intro v
    by_contra hv
    rcases hrv : role v with _ | _ | _ | c | c | c | _
    case evictWait =>
      have := h.evictWait v c hrv
      rw [hl] at this
      simp at this
    case evictAsleep =>
      have := h.evictAsleep v c hrv
      rw [hl, List.getLast?_append, List.getLast?_singleton, Option.some_or] at this
      rw [Option.some.inj this, hrv] at hu
      cases hu
    case reading =>
      have := h.one_locking t v hlock (by rw [hrv]; rfl)
      rw [this, hrv] at hr
      cases hr
    all_goals
      rw [hrv] at hv
      exact hv rfl
  have hdata := h.loaded hload
  have hnum := h.number u b (by rw [hu]; rfl)
  obtain ⟨h1, h2, h3, h4, h5, h6, h7, h8, h9, h10, h11, h12, h13, h14⟩ := h
  constructor
  case lock => exact Or.inr hbal
  case loaded => exact fun _ => hdata
  all_goals grind [Function.update_apply]

/-- The post of a release wakes the thread that has taken the block over. -/
theorem post_evict (h : BlockOk cur blk role hold) (hr : role t = .releasing) {l : List ℕ}
    (hl : blk.lock.sleeplist = l ++ [u]) (hu : role u = .evictAsleep b) :
    BlockOk cur { blk with lock := ⟨blk.lock.val + 1, l⟩ }
      (Function.update (Function.update role t .none) u (.reading b)) hold := by
  have hlock : (role t).locking = true := by rw [hr]; rfl
  have hbal := (h.balanced_of_locking hlock).wake hl
  have hload : (role u).loading = true := by rw [hu]; rfl
  obtain ⟨h1, h2, h3, h4, h5, h6, h7, h8, h9, h10, h11, h12, h13, h14⟩ := h
  constructor
  case lock => exact Or.inr hbal
  case loaded => exact fun hload => absurd hload (not_loaded_of_update rfl)
  all_goals grind [Function.update_apply]

/-- The holder changes the block and syncs it. -/
theorem put (h : BlockOk cur blk role hold) {e : Sector} (ht : hold t = some (b, e))
    (hno : blk'.blockNo = blk.blockNo) (hlock : blk'.lock = blk.lock) (hdata : blk'.data = d) :
    BlockOk (Function.update cur b d) blk' role (Function.update hold t (some (b, d))) := by
  have hload := h.loaded_of_hold (t := t) (by rw [ht]; simp)
  have hnum := (h.held t b e ht).1
  obtain ⟨h1, h2, h3, h4, h5, h6, h7, h8, h9, h10, h11, h12, h13, h14⟩ := h
  constructor
  case loaded =>
    intro _
    rw [hno, hnum, Function.update_self]
    exact hdata
  all_goals grind [Function.update_apply]

/-- A block that nobody uses is taken over for another number. -/
theorem evict (h : BlockOk cur blk role hold) (blk' : Block)
    (hfree : ∀ u, hold u = none ∧ (role u).number = none)
    (hno : blk'.blockNo = b) (hpin' : blk'.pinned = false) (hlock : blk'.lock = blk.lock) :
    BlockOk cur blk' (Function.update role t (.evictWait b)) hold := by
  have hsleep : blk.lock.sleeplist = [] := by
    rw [List.eq_nil_iff_forall_not_mem]
    intro u hu
    have := (h.asleep u).mp hu
    rw [(Role.of_number_eq_none (hfree u).2).1] at this
    cases this
  have hload : ∀ u, (role u).loading = false := fun u => (Role.of_number_eq_none (hfree u).2).2
  obtain ⟨h1, h2, h3, h4, h5, h6, h7, h8, h9, h10, h11, h12, h13, h14⟩ := h
  constructor
  case loaded => exact fun hload => absurd hload (not_loaded_of_update rfl)
  all_goals grind [Function.update_apply]

/-- A new block, locked and loaded. -/
theorem fresh (hr : ∀ u, role u = .none) (hh : ∀ u, hold u = none) (hno : blk.blockNo = b)
    (hlock : blk.lock = ⟨0, []⟩) (hdata : blk.data = cur b) :
    BlockOk cur blk role (Function.update hold t (some (b, cur b))) := by
  constructor
  case lock =>
    right
    rw [hlock]
    rfl
  case loaded =>
    intro _
    rw [hno]
    exact hdata
  all_goals grind [Function.update_apply]

end BlockOk

end OsLab
