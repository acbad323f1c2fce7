import OsLab.Lib.Atomic
import OsLab.Lib.Run

/-!
# Spin locks

`common/spinlock.c`.  `_try_acquire_spinlock` first loads `lock->locked` and, if it is clear, does
an atomic test-and-set; `_acquire_spinlock` tries until it succeeds.  Between any two of these
steps, and between any two accesses of a section that the lock guards, the other CPUs may take
steps of their own.

What a section does is nevertheless what it would do alone: between a call and its return there
is one moment, the release, at which the whole section takes effect (`SpinSys.Guards.next`).

## Main definitions

* `SpinLock` — with `initSpinlock`, `testAndSet` and `releaseSpinlock`.
* `SpinPc`, `SpinSys`, `SpinSys.step` — sections under one lock, access by access.
* `SpinSys.Guards` — who has the lock, and what is left of its section.
* `SpinSys.Guards.next` — one step keeps it, and what the step does to the calls.
-/

namespace OsLab

structure SpinLock where
  locked : Bool

def initSpinlock : SpinLock := ⟨false⟩

/-- `__atomic_test_and_set(&lock->locked)`: what was there, and the lock afterwards. -/
def SpinLock.testAndSet (lock : SpinLock) : Bool × SpinLock := (lock.locked, ⟨true⟩)

/-- `_release_spinlock`, which does not look at the lock. -/
def SpinLock.releaseSpinlock (_ : SpinLock) : SpinLock := ⟨false⟩

/-- Where a CPU is in a call `i` whose body the lock guards. -/
inductive SpinPc (ι C : Type) (Res : C → Type) (ρ : Type)
  | idle
  /-- `_try_acquire_spinlock`, about to load `lock->locked` -/
  | load (i : ι)
  /-- it was clear: about to test and set -/
  | testAndSet (i : ι)
  /-- the lock is taken, and this is left to do before it is given back -/
  | inside (i : ι) (p : Prog C Res ρ)

/-- The call a CPU is in. -/
def SpinPc.call {ι C ρ : Type} {Res : C → Type} : SpinPc ι C Res ρ → Option ι
  | .idle => none
  | .load i => some i
  | .testAndSet i => some i
  | .inside i _ => some i

/-- What happens next: a CPU calls, or it takes the next step of the call it is in; `w` is what
comes from outside in that step. -/
inductive SpinAct (κ ι ω : Type)
  | call (t : κ) (i : ι)
  | next (t : κ) (w : ω)

/-- The lock, the data it guards, the CPUs, and the calls that have returned with their results. -/
structure SpinSys (κ ι C : Type) (Res : C → Type) (ρ σ : Type) where
  lock : SpinLock
  data : σ
  pc : κ → SpinPc ι C Res ρ
  done : List ((κ × ι) × ρ)

namespace SpinSys

variable {κ ι C : Type} {Res : C → Type} {ρ σ ω : Type}

def init (data : σ) : SpinSys κ ι C Res ρ σ := ⟨initSpinlock, data, fun _ => .idle, []⟩

/-- The call that each CPU is in. -/
def calls (s : SpinSys κ ι C Res ρ σ) (t : κ) : Option ι := (s.pc t).call

section Run

variable [DecidableEq κ]

def setPc (s : SpinSys κ ι C Res ρ σ) (t : κ) (pc : SpinPc ι C Res ρ) : SpinSys κ ι C Res ρ σ :=
  { s with pc := Function.update s.pc t pc }

/-- One step.  A section that panics does not go on and keeps the lock. -/
def step (answer : σ → ω → (c : C) → Option (Res c × σ)) (body : κ → ι → Prog C Res ρ)
    (s : SpinSys κ ι C Res ρ σ) : SpinAct κ ι ω → Option (SpinSys κ ι C Res ρ σ)
  | .call t i =>
      match s.pc t with
      | .idle => some (s.setPc t (.load i))
      | _ => none
  | .next t w =>
      match s.pc t with
      | .idle => none
      | .load i => some (s.setPc t (if s.lock.locked then .load i else .testAndSet i))
      | .testAndSet i =>
          let (old, lock) := s.lock.testAndSet
          some ({ s with lock := lock }.setPc t (if old then .load i else .inside i (body t i)))
      | .inside i (.ret r) =>
          some ({ s with lock := s.lock.releaseSpinlock
                         done := s.done ++ [((t, i), r)] }.setPc t .idle)
      | .inside _ .fail => none
      | .inside i (.call c k) =>
          (answer s.data w c).map fun x => { s with data := x.2 }.setPc t (.inside i (k x.1))

@[simp] theorem setPc_pc_self (s : SpinSys κ ι C Res ρ σ) (t : κ) (pc : SpinPc ι C Res ρ) :
    (s.setPc t pc).pc t = pc := Function.update_self ..

theorem setPc_pc_of_ne {s : SpinSys κ ι C Res ρ σ} {t t' : κ} {pc : SpinPc ι C Res ρ}
    (h : t' ≠ t) : (s.setPc t pc).pc t' = s.pc t' := Function.update_of_ne h ..

theorem calls_setPc (s : SpinSys κ ι C Res ρ σ) (t : κ) (pc : SpinPc ι C Res ρ) :
    (s.setPc t pc).calls = Function.update s.calls t pc.call := by
  funext t'
  by_cases h : t' = t
  · subst h
    rw [Function.update_self, calls, setPc_pc_self]
  · rw [Function.update_of_ne h, calls, setPc_pc_of_ne h, calls]

theorem calls_setPc_same {s : SpinSys κ ι C Res ρ σ} {t : κ} {pc : SpinPc ι C Res ρ}
    (h : pc.call = (s.pc t).call) : (s.setPc t pc).calls = s.calls := by
  rw [calls_setPc, h]
  exact Function.update_eq_self t s.calls

end Run

variable {answer : σ → ω → (c : C) → Option (Res c × σ)} {body : κ → ι → Prog C Res ρ}
  {s s' : SpinSys κ ι C Res ρ σ} {t t' : κ} {i i' : ι} {p p' : Prog C Res ρ} {z : σ}

/-- CPU `t` has the lock, and no other CPU has. -/
structure Alone (s : SpinSys κ ι C Res ρ σ) (t : κ) : Prop where
  locked : s.lock.locked = true
  only : ∀ t' i p, s.pc t' = .inside i p → t' = t

/-- **Who has the lock**: nobody, and the data is `z`; or one CPU, and what is left of its section
ends as the whole section ends from `z`. -/
inductive Guards (answer : σ → ω → (c : C) → Option (Res c × σ)) (body : κ → ι → Prog C Res ρ)
    (s : SpinSys κ ι C Res ρ σ) (z : σ) : Prop
  | free (locked : s.lock.locked = false) (data : s.data = z)
      (outside : ∀ t i p, s.pc t ≠ .inside i p)
  | held (t : κ) (i : ι) (p : Prog C Res ρ) (pc : s.pc t = .inside i p) (alone : s.Alone t)
      (rest : ∀ r z', p.Runs answer s.data r z' → (body t i).Runs answer z r z')

theorem guards_init (data : σ) : Guards answer body (init data) data :=
  .free rfl rfl (by simp [init])

namespace Guards

/-- The CPU inside. -/
theorem inside (h : Guards answer body s z) (hpc : s.pc t = .inside i p) :
    s.Alone t ∧ ∀ r z', p.Runs answer s.data r z' → (body t i).Runs answer z r z' := by
  cases h with
  | free _ _ outside => exact absurd hpc (outside t i p)
  | held u j q hpc' alone rest =>
      obtain rfl := alone.only t i p hpc
      rw [hpc] at hpc'
      cases hpc'
      exact ⟨alone, rest⟩

/-- Mutual exclusion. -/
theorem mutex (h : Guards answer body s z) (hpc : s.pc t = .inside i p)
    (hpc' : s.pc t' = .inside i' p') : t = t' :=
  (h.inside hpc').1.only t i p hpc

/-- The lock is taken where a CPU is inside, and there only. -/
theorem locked_iff (h : Guards answer body s z) :
    s.lock.locked = true ↔ ∃ t i p, s.pc t = .inside i p := by
  cases h with
  | free locked _ outside =>
      rw [locked]
      refine ⟨fun h => absurd h Bool.false_ne_true, ?_⟩
      rintro ⟨t, i, p, hpc⟩
      exact absurd hpc (outside t i p)
  | held t i p hpc alone _ => exact ⟨fun _ => ⟨t, i, p, hpc⟩, fun _ => alone.locked⟩

theorem data_of_free (h : Guards answer body s z) (hfree : s.lock.locked = false) :
    s.data = z := by
  cases h with
  | free _ data _ => exact data
  | held _ _ _ _ alone _ => exact absurd alone.locked (by rw [hfree]; exact Bool.false_ne_true)

variable [DecidableEq κ]

/-- A CPU that stays outside. -/
theorem wait {pc : SpinPc ι C Res ρ} (h : Guards answer body s z)
    (hold : ∀ i p, s.pc t ≠ .inside i p) (hpc : ∀ i p, pc ≠ .inside i p) :
    Guards answer body (s.setPc t pc) z := by
  have hinside : ∀ t' i p, (s.setPc t pc).pc t' = .inside i p → s.pc t' = .inside i p := by
    intro t' i p h'
    by_cases ht : t' = t
    · subst ht
      rw [setPc_pc_self] at h'
      exact absurd h' (hpc i p)
    · rwa [setPc_pc_of_ne ht] at h'
  cases h with
  | free locked data outside =>
      exact .free locked data fun t' i p h' => outside t' i p (hinside t' i p h')
  | held u i p hpc' alone rest =>
      have hu : u ≠ t := by
        rintro rfl
        exact hold i p hpc'
      refine .held u i p ((setPc_pc_of_ne hu).trans hpc') ⟨alone.locked, ?_⟩ rest
      intro t' i p h'
      exact alone.only t' i p (hinside t' i p h')

/-- The test-and-set that finds the lock clear. -/
theorem acquire {lock : SpinLock} (h : Guards answer body s z) (hfree : s.lock.locked = false)
    (hlock : lock.locked = true) :
    Guards answer body ({ s with lock := lock }.setPc t (.inside i (body t i))) z := by
  cases h with
  | held _ _ _ _ alone _ => exact absurd alone.locked (by rw [hfree]; exact Bool.false_ne_true)
  | free _ data outside =>
      refine .held t i (body t i) (setPc_pc_self ..) ⟨hlock, ?_⟩ ?_
      · intro t' j p h'
        by_contra ht
        rw [setPc_pc_of_ne ht] at h'
        exact outside t' j p h'
      · intro r z' hr
        rw [← data]
        exact hr

/-- An access inside the section. -/
theorem access {data : σ} (h : Guards answer body s z) (hpc : s.pc t = .inside i p)
    (hrest : ∀ r z', p'.Runs answer data r z' → p.Runs answer s.data r z') :
    Guards answer body ({ s with data := data }.setPc t (.inside i p')) z := by
  obtain ⟨alone, rest⟩ := h.inside hpc
  refine .held t i p' (setPc_pc_self ..) ⟨alone.locked, ?_⟩ ?_
  · intro t' j q h'
    by_contra ht
    rw [setPc_pc_of_ne ht] at h'
    exact ht (alone.only t' j q h')
  · intro r z' hr
    exact rest r z' (hrest r z' hr)

/-- The release. -/
theorem release {lock : SpinLock} {l : List ((κ × ι) × ρ)} (h : Guards answer body s z)
    (hpc : s.pc t = .inside i p) (hlock : lock.locked = false) :
    Guards answer body ({ s with lock := lock, done := l }.setPc t .idle) s.data := by
  refine .free hlock rfl ?_
  intro t' j q h'
  by_cases ht : t' = t
  · subst ht
    rw [setPc_pc_self] at h'
    cases h'
  · rw [setPc_pc_of_ne ht] at h'
    exact ht ((h.inside hpc).1.only t' j q h')

end Guards

variable [DecidableEq κ]

/-- What one step does to the calls, where `z` is the data that the next section finds. -/
inductive Next (answer : σ → ω → (c : C) → Option (Res c × σ)) (body : κ → ι → Prog C Res ρ)
    (s s' : SpinSys κ ι C Res ρ σ) (z : σ) : SpinAct κ ι ω → Prop
  | call (t : κ) (i : ι) (calls : s'.calls = Function.update s.calls t (some i))
      (done : s'.done = s.done) (guards : Guards answer body s' z) :
      Next answer body s s' z (.call t i)
  | on (t : κ) (w : ω) (calls : s'.calls = s.calls) (done : s'.done = s.done)
      (guards : Guards answer body s' z) : Next answer body s s' z (.next t w)
  | ret (t : κ) (w : ω) (i : ι) (r : ρ) (call : s.calls t = some i)
      (calls : s'.calls = Function.update s.calls t none) (done : s'.done = s.done ++ [((t, i), r)])
      (does : (body t i).Runs answer z r s'.data) (guards : Guards answer body s' s'.data) :
      Next answer body s s' z (.next t w)

/-- **Sections under a spin lock are atomic**: a call that returns has done what its section does
alone. -/
theorem Guards.next {a : SpinAct κ ι ω} (h : Guards answer body s z)
    (hs : s.step answer body a = some s') : Next answer body s s' z a := by
  cases a with
  | call t i =>
      cases hpc : s.pc t <;> simp only [step, hpc] at hs <;> cases hs
      exact .call t i (calls_setPc ..) rfl (h.wait (by simp [hpc]) (by simp))
  | next t w =>
      cases hpc : s.pc t with
      | idle =>
          simp only [step, hpc] at hs
          cases hs
      | load i =>
          simp only [step, hpc] at hs
          cases hs
          refine .on t w (calls_setPc_same ?_) rfl (h.wait (by simp [hpc]) ?_)
          · rw [hpc]
            split <;> rfl
          · intro j p
            split <;> simp
      | testAndSet i =>
          cases hl : s.lock.locked with
          | true =>
              simp only [step, hpc, SpinLock.testAndSet, hl, if_true] at hs
              cases hs
              have hlock : (⟨true⟩ : SpinLock) = s.lock := by rw [← hl]
              rw [hlock]
              exact .on t w (calls_setPc_same (by rw [hpc]; rfl)) rfl
                (h.wait (by simp [hpc]) (by simp))
          | false =>
              simp only [step, hpc, SpinLock.testAndSet, hl, Bool.false_eq_true, if_false] at hs
              cases hs
              exact .on t w (calls_setPc_same (by rw [hpc]; rfl)) rfl (h.acquire hl rfl)
      | inside i p =>
          cases p with
          | fail =>
              simp only [step, hpc] at hs
              cases hs
          | call c k =>
              simp only [step, hpc, Option.map_eq_some_iff] at hs
              obtain ⟨x, hx, rfl⟩ := hs
              refine .on t w (calls_setPc_same (by rw [hpc]; rfl)) rfl (h.access hpc ?_)
              intro r z' hr
              exact ⟨w, x.1, x.2, hx, hr⟩
          | ret r =>
              simp only [step, hpc] at hs
              cases hs
              refine .ret t w i r (by rw [calls, hpc]; rfl) (calls_setPc ..) rfl ?_
                (h.release hpc rfl)
              exact (h.inside hpc).2 r s.data ⟨rfl, rfl⟩

end SpinSys

end OsLab
