import OsLab.Common.SemSys

/-!
# Waits that an alert cannot interrupt

`_wait_sem(sem, false)` puts the process into `DEEPSLEEPING`, which `_activate_proc`
leaves alone on an alert, so only a post should end it, and `unalertable_wait_sem`
asserts that the call returns true.  `simple_sched`, however, returns at once to a
process whose `killed` flag it finds set, whatever state it asks for.  The wait then
goes on without a token and returns false (`deep_wait_of_killed`).

`WaitSys` adds to the processes around a semaphore what their `_wait_sem` calls were
given and what they returned.  No step reads these fields.

## Main definitions

* `WaitSys`, `WaitSys.step` — the calls and their results.
* `WaitSys.Uninterrupted` — every unalertable call returned true with a token.
* `Unkilled` — the condition on a step.
* `deep_wait_uninterrupted` — the result over runs.
-/

namespace OsLab

/-- A `_wait_sem` call that has returned. -/
structure WaitResult where
  proc : ℕ
  alertable : Bool
  ret : Bool
  /-- tokens it has taken -/
  took : ℕ
  deriving DecidableEq, Repr

/-- The processes around a semaphore and the results of their waits. -/
structure WaitSys where
  sys : SemSys
  /-- the argument of the `_wait_sem` call a process is in -/
  alertable : ℕ → Bool
  /-- the calls that have returned, latest first -/
  returned : List WaitResult

namespace WaitSys

/-- The result of the `_wait_sem` call that the step to `sys'` ends, if it ends one. -/
def result (s : WaitSys) (sys' : SemSys) : ℕ × SemAct → Option WaitResult
  | (t, .wait alertable) =>
      if (s.sys.sem.waitSem t).1 then
        some ⟨t, alertable, true, sys'.successes - s.sys.successes⟩
      else none
  | (t, .resume) =>
      some ⟨t, s.alertable t, s.sys.up t, sys'.successes - s.sys.successes⟩
  | _ => none

def step (s : WaitSys) (i : ℕ × SemAct) : Option WaitSys :=
  (s.sys.step i).map fun sys' =>
    { sys := sys'
      alertable := match i with
        | (t, .wait alertable) => Function.update s.alertable t alertable
        | _ => s.alertable
      returned := (s.result sys' i).toList ++ s.returned }

/-- After `init_sem(sem, v)`. -/
def start (v : ℕ) : WaitSys := ⟨.start v, fun _ => true, []⟩

/-- **Every unalertable wait has returned true, with a token.** -/
def Uninterrupted (s : WaitSys) : Prop :=
  ∀ r ∈ s.returned, r.alertable = false → r.ret = true ∧ r.took = 1

end WaitSys

/-- The condition on a step: `simple_sched` finds the `killed` flag of a process in an unalertable
wait clear. -/
def Unkilled (s : WaitSys) (i : ℕ × SemAct) : Prop :=
  i.2 = .sleep → s.sys.pc i.1 = .sleeping false → s.sys.killed i.1 = false

instance (s : WaitSys) (i : ℕ × SemAct) : Decidable (Unkilled s i) :=
  inferInstanceAs (Decidable (_ → _ → _))

theorem unkilled_of_decide (s : WaitSys) (i : ℕ × SemAct) (h : decide (Unkilled s i) = true) :
    Unkilled s i := of_decide_eq_true h

/-! ## What a post does to the processes -/

namespace SemSys

theorem foldl_grant_pc (l : List ℕ) (s : SemSys) (t : ℕ) :
    (l.foldl grant s).pc t = if t ∈ l then .awake else s.pc t := by
  induction l generalizing s with
  | nil => simp
  | cons u l ih =>
      rw [List.foldl_cons, ih]
      by_cases hu : t = u
      · simp [grant, hu]
      · simp [grant, hu]

theorem foldl_grant_up (l : List ℕ) (s : SemSys) (t : ℕ) :
    (l.foldl grant s).up t = if t ∈ l then true else s.up t := by
  induction l generalizing s with
  | nil => simp
  | cons u l ih =>
      rw [List.foldl_cons, ih]
      by_cases hu : t = u
      · simp [grant, hu]
      · simp [grant, hu]

end SemSys

/-! ## The invariant -/

/-- What every step that meets the condition keeps. -/
structure DeepOk (s : WaitSys) : Prop where
  /-- a process sleeps, or is about to, as its call asked -/
  sleeping : ∀ t a, s.sys.pc t = .sleeping a → s.alertable t = a
  asleep : ∀ t a, s.sys.pc t = .asleep a → s.alertable t = a
  /-- only a post ends an unalertable sleep -/
  awake : ∀ t, s.sys.pc t = .awake → s.alertable t = false → s.sys.up t = true
  returned : s.Uninterrupted

namespace DeepOk

variable {s s' : WaitSys} {t : ℕ}

theorem init (v : ℕ) : DeepOk (WaitSys.start v) := by
  constructor
  · intro t a h
    cases h
  · intro t a h
    cases h
  · intro t h
    cases h
  · intro r hr
    cases hr

/-- A set of processes is granted a token, or sent away, and no call returns. -/
theorem grants (h : DeepOk s) {sys' : SemSys} (l : List ℕ)
    (hpc : ∀ t, sys'.pc t = if t ∈ l then .awake else s.sys.pc t)
    (hup : ∀ t, sys'.up t = if t ∈ l then true else s.sys.up t) :
    DeepOk ⟨sys', s.alertable, s.returned⟩ := by
  constructor
  · intro t a ht
    rw [hpc] at ht
    split_ifs at ht
    exact h.sleeping t a ht
  · intro t a ht
    rw [hpc] at ht
    split_ifs at ht
    exact h.asleep t a ht
  · intro t ht ha
    rw [hpc] at ht
    rw [hup]
    split_ifs at ht ⊢
    · rfl
    · exact h.awake t ht ha
  · exact h.returned

theorem wait (h : DeepOk s) {a : Bool} (hs : s.step (t, .wait a) = some s') : DeepOk s' := by
  simp only [WaitSys.step, SemSys.step, WaitSys.result] at hs
  by_cases hpc : s.sys.pc t = .idle
  · rw [if_pos hpc] at hs
    by_cases hv : s.sys.sem.val - 1 ≥ 0
    · -- a token was there
      simp only [Semaphore.waitSem, if_pos hv, Option.map_some, Option.some.injEq] at hs
      rw [← hs]
      have hne : ∀ u, s.sys.pc u ≠ .idle → u ≠ t := by
        rintro u hu rfl
        exact hu hpc
      constructor
      · intro u b hu
        simpa [hne u (by simp_all [SemSys.take])] using h.sleeping u b hu
      · intro u b hu
        simpa [hne u (by simp_all [SemSys.take])] using h.asleep u b hu
      · intro u hu
        simpa [hne u (by simp_all [SemSys.take]), SemSys.take] using h.awake u hu
      · intro r hr hra
        simp only [if_true, Option.toList_some, List.singleton_append, List.mem_cons] at hr
        rcases hr with rfl | hr
        · simp [SemSys.take]
        · exact h.returned r hr hra
    · simp only [Semaphore.waitSem, if_neg hv, Option.map_some, Option.some.injEq] at hs
      rw [← hs]
      constructor
      · intro u b hu
        by_cases hut : u = t
        · subst hut
          simp only [Function.update_self, SemPc.sleeping.injEq] at hu ⊢
          exact hu
        · simp only [Function.update_of_ne hut] at hu ⊢
          exact h.sleeping u b hu
      · intro u b hu
        by_cases hut : u = t
        · subst hut
          simp at hu
        · simp only [Function.update_of_ne hut] at hu ⊢
          exact h.asleep u b hu
      · intro u hu ha
        by_cases hut : u = t
        · subst hut
          simp at hu
        · simp only [Function.update_of_ne hut] at hu ha ⊢
          exact h.awake u hu ha
      · simpa [WaitSys.Uninterrupted] using h.returned
  · rw [if_neg hpc] at hs
    cases hs

/-- `simple_sched` puts the process to sleep, or lets it go on. -/
theorem sleep (h : DeepOk s) (hok : Unkilled s (t, .sleep)) (hs : s.step (t, .sleep) = some s') :
    DeepOk s' := by
  simp only [WaitSys.step, SemSys.step, WaitSys.result] at hs
  split at hs
  · rename_i a hpc
    have ha := h.sleeping t a hpc
    simp only [Option.map_some, Option.some.injEq, Option.toList_none, List.nil_append] at hs
    rw [← hs]
    constructor
    · intro u b hu
      by_cases hut : u = t
      · subst hut
        simp only [Function.update_self] at hu
        split_ifs at hu
      · exact h.sleeping u b (by simpa [hut] using hu)
    · intro u b hu
      by_cases hut : u = t
      · subst hut
        simp only [Function.update_self] at hu
        split_ifs at hu
        cases hu
        exact ha
      · exact h.asleep u b (by simpa [hut] using hu)
    · intro u hu hua
      by_cases hut : u = t
      · subst hut
        -- a killed process would be here without a post
        simp only at hua
        rw [ha] at hua
        subst hua
        have hk := hok rfl hpc
        simp [hk] at hu
      · exact h.awake u (by simpa [hut] using hu) hua
    · exact h.returned
  · cases hs

/-- A process returns from its call, with result `r`. -/
theorem returns (h : DeepOk s) {sys' : SemSys} {r : WaitResult}
    (hpc : sys'.pc = Function.update s.sys.pc t .idle) (hup : sys'.up = s.sys.up)
    (hr : r.alertable = false → r.ret = true ∧ r.took = 1) :
    DeepOk ⟨sys', s.alertable, r :: s.returned⟩ := by
  constructor
  · intro u a hu
    by_cases hut : u = t
    · simp [hpc, hut] at hu
    · exact h.sleeping u a (by simpa [hpc, hut] using hu)
  · intro u a hu
    by_cases hut : u = t
    · simp [hpc, hut] at hu
    · exact h.asleep u a (by simpa [hpc, hut] using hu)
  · intro u hu hua
    by_cases hut : u = t
    · simp [hpc, hut] at hu
    · simp only [hup]
      exact h.awake u (by simpa [hpc, hut] using hu) hua
  · intro x hx hxa
    rcases List.mem_cons.mp hx with rfl | hx
    · exact hr hxa
    · exact h.returned x hx hxa

theorem resume (h : DeepOk s) (hs : s.step (t, .resume) = some s') : DeepOk s' := by
  simp only [WaitSys.step, SemSys.step, WaitSys.result] at hs
  split_ifs at hs with hpc hup hv
  · cases hs
    refine h.returns (t := t) ?_ ?_ ?_
    · rfl
    · rfl
    · intro _
      exact ⟨hup, by simp [SemSys.take]⟩
  · cases hs
    refine h.returns (t := t) ?_ ?_ ?_
    · rfl
    · rfl
    · intro hra
      exact absurd (h.awake t hpc hra) hup
  · cases hs
  · cases hs

/-- **Every step that meets the condition keeps the invariant.** -/
theorem step {i : ℕ × SemAct} (h : DeepOk s) (hok : Unkilled s i) (hs : s.step i = some s') :
    DeepOk s' := by
  obtain ⟨t, a⟩ := i
  cases a with
  | wait a => exact h.wait hs
  | sleep => exact h.sleep hok hs
  | resume => exact h.resume hs
  | post =>
      simp only [WaitSys.step, SemSys.step, WaitSys.result] at hs
      split_ifs at hs with hpc
      · simp only [Option.map_map, Option.map_eq_some_iff] at hs
        obtain ⟨r, -, rfl⟩ := hs
        apply h.grants r.1.toList
        all_goals
          intro u
          cases hr : r.1 with
          | none => simp [hr]
          | some w =>
              by_cases hu : u = w
              · simp [hr, SemSys.grant, hu]
              · simp [hr, SemSys.grant, hu]
      · cases hs
  | postAll =>
      simp only [WaitSys.step, SemSys.step, WaitSys.result] at hs
      split_ifs at hs with hpc
      · simp only [Option.map_map, Option.map_eq_some_iff] at hs
        obtain ⟨r, -, rfl⟩ := hs
        apply h.grants r.1
        · intro u
          exact SemSys.foldl_grant_pc r.1 _ u
        · intro u
          exact SemSys.foldl_grant_up r.1 _ u
      · cases hs
  | get =>
      simp only [WaitSys.step, SemSys.step, WaitSys.result] at hs
      split_ifs at hs with hpc
      · split at hs
        all_goals
          cases hs
          exact h.grants [] (fun _ => by simp [SemSys.take]) (fun _ => by simp [SemSys.take])
      · cases hs
  | getAll =>
      simp only [WaitSys.step, SemSys.step, WaitSys.result] at hs
      split_ifs at hs with hpc
      · cases hs
        exact h.grants [] (fun _ => by simp [SemSys.take]) (fun _ => by simp [SemSys.take])
      · cases hs
  | kill =>
      cases hs
      exact h.grants [] (fun _ => by simp) (fun _ => by simp)
  | alert =>
      simp only [WaitSys.step, SemSys.step, WaitSys.result, Option.map_some,
        Option.some.injEq] at hs
      rw [← hs]
      split_ifs with hpc
      · -- the alert finds an alertable sleeper
        have ha := h.asleep t true hpc
        constructor
        · intro u b hu
          by_cases hut : u = t
          · simp [hut] at hu
          · exact h.sleeping u b (by simpa [hut] using hu)
        · intro u b hu
          by_cases hut : u = t
          · simp [hut] at hu
          · exact h.asleep u b (by simpa [hut] using hu)
        · intro u hu hua
          by_cases hut : u = t
          · rw [hut, ha] at hua
            cases hua
          · exact h.awake u (by simpa [hut] using hu) hua
        · exact h.returned
      · exact h

end DeepOk

/-- **An unalertable wait is not interrupted**, in every run in which `simple_sched` finds no process
killed that is about to sleep unalertably. -/
theorem deep_wait_uninterrupted {v : ℕ} {s : WaitSys}
    (h : Reach WaitSys.step Unkilled (WaitSys.start v) s) : s.Uninterrupted := by
  have hok : DeepOk s := by
    apply h.invariant (DeepOk.init v)
    intro s i s' hs hok hstep
    exact hs.step hok hstep
  exact hok.returned

/-- Process 1 is killed and alerted in its sleep and returns after the post of process 0.  Process 2
is killed on its way into the scheduler of an alertable wait, and gives the wait up. -/
theorem deep_wait_uninterrupted_alerted : ∃ s, Reach WaitSys.step Unkilled (WaitSys.start 0) s ∧
    s.sys.killed 1 = true ∧ s.returned = [⟨2, true, false, 0⟩, ⟨1, false, true, 1⟩] ∧
      s.Uninterrupted := by
  have hinit : Reach WaitSys.step Unkilled (WaitSys.start 0) (WaitSys.start 0) := .init
  have hrun := hinit.of_tested unkilled_of_decide
    [(1, .wait false), (1, .sleep), (1, .kill), (1, .alert), (2, .wait true), (0, .post),
      (2, .kill), (2, .sleep), (1, .resume), (2, .resume)] rfl
  exact ⟨_, hrun, rfl, rfl, deep_wait_uninterrupted hrun⟩

/-- A process without a token calls `unalertable_wait_sem` and is killed before `simple_sched` tests
the flag: the scheduler returns at once and so does the wait, with false. -/
theorem deep_wait_of_killed :
    ¬ ∀ s, Reach WaitSys.step (fun _ _ => True) (WaitSys.start 0) s → s.Uninterrupted := by
  intro h
  have hinit : Reach WaitSys.step (fun _ _ => True) (WaitSys.start 0) (WaitSys.start 0) := .init
  have hrun := hinit.of_runs [(0, .wait false), (0, .kill), (0, .sleep), (0, .resume)] rfl
  have := h _ hrun ⟨0, false, false, 0⟩ (by decide) rfl
  simp at this

end OsLab
