import OsLab.Kernel.SchedInv

/-!
# What the scheduler changes

Read off the functions, in any state: which fields a call that returns leaves alone, and what it
does to the others but the trees.

## Main definitions

* `Switches` — what `simple_sched` does to the states, the CPU and the times.
-/

namespace OsLab

namespace Sched

variable {L : SchedLayout} {s s' : Sched} {n g p cpu fuel : ℕ} {δ : UInt64}

theorem enqueue_eq (h : s.enqueue n g = some s') : s' = { s with rq := s'.rq } := by
  simp only [enqueue, Option.bind_eq_bind, Option.bind_eq_some_iff] at h
  obtain ⟨⟨ret, m⟩, -, h⟩ := h
  split at h
  · cases h
    rfl
  · cases h

theorem dequeue_eq (h : s.dequeue n g = some s') : s' = { s with rq := s'.rq } := by
  simp only [dequeue, Option.bind_eq_bind, Option.bind_eq_some_iff] at h
  obtain ⟨m, -, h⟩ := h
  cases h
  rfl

/-- `_activate_proc` changes at most the state of the process, from one that does not run. -/
theorem activateProc_eq {onalert : Bool} {r : Bool × Sched}
    (h : s.activateProc L p onalert = some r) : r.2 = s ∨ (s.state p ≠ .running ∧
      r.2 = { s with
        rq := r.2.rq, nodeCnt := r.2.nodeCnt, state := Function.update s.state p .runnable }) := by
  rw [activateProc] at h
  split at h
  · cases h
    exact .inl rfl
  · rename_i hno
    split at h
    · simp only [Option.bind_eq_bind, Option.bind_eq_some_iff] at h
      obtain ⟨s₁, henq, h⟩ := h
      cases h
      refine .inr ⟨fun hrun => hno (.inl hrun), ?_⟩
      rw [enqueue_eq henq]
      rfl
    · cases h
      exact .inl rfl

theorem activateGroup_eq (h : s.activateGroup L g = some s') :
    s' = { s with rq := s'.rq, nodeCnt := s'.nodeCnt } := by
  simp only [activateGroup, Option.bind_eq_bind, Option.bind_eq_some_iff] at h
  obtain ⟨s₁, henq, h⟩ := h
  cases h
  rw [enqueue_eq henq]
  rfl

theorem chargeLoop_eq (hg : g ∈ L.containers) (h : chargeLoop L δ fuel g s = some s') :
    s' = { s with rq := s'.rq, vruntime := charged s.vruntime δ (L.path fuel g) } := by
  induction fuel generalizing g s with
  | zero => cases h
  | succ fuel ih =>
      rw [chargeLoop] at h
      split at h
      · rename_i h0
        cases h
        rw [SchedLayout.path, if_pos h0, charged_nil]
      · rename_i h0
        have hne : g ≠ L.rootContainer := fun heq => h0 ((SchedLayout.parent_eq_zero hg).mpr heq)
        have hpar := L.parent_mem g hg hne
        have hself : g ∉ L.path fuel (L.parent g) :=
          SchedLayout.notMem_path hpar (SchedLayout.home_container hg)
        simp only [Option.bind_eq_bind, Option.bind_eq_some_iff] at h
        obtain ⟨s₁, hdeq, s₂, henq, h⟩ := h
        rw [SchedLayout.path, if_neg h0, ← charged_cons hself, ih hpar h, enqueue_eq henq,
          dequeue_eq hdeq]
        rfl

/-- The vruntimes after the process `this` has left the CPU -/
def vruntimeLeft (L : SchedLayout) (s : Sched) (this : ℕ) (newState : Procstate) (now : UInt64) :
    ℕ → UInt64 :=
  if ¬L.idle this ∧ s.state this = .running ∧ newState = .runnable then
    charged s.vruntime (s.deltaTime L this now) (this :: L.ancestors (L.container this))
  else s.vruntime

theorem updateThisState_eq {this : ℕ} {newState : Procstate} {now : UInt64}
    (hthis : L.idle this = false → this ∈ L.procs)
    (h : s.updateThisState L this newState now = some s') :
    s' = { s with
      rq := s'.rq, nodeCnt := s'.nodeCnt, vruntime := s.vruntimeLeft L this newState now,
      state := Function.update s.state this newState } := by
  rw [updateThisState] at h
  split at h
  · rename_i hif
    have hp := hthis (by simpa using hif.1)
    have hcont := L.container_mem this hp
    have hself : this ∉ L.ancestors (L.container this) :=
      SchedLayout.notMem_path hcont (SchedLayout.home_proc hp)
    simp only [Option.bind_eq_bind, Option.bind_eq_some_iff] at h
    obtain ⟨s₁, henq, s₃, hloop, h⟩ := h
    cases h
    rw [vruntimeLeft, if_pos hif, ← charged_cons hself, chargeLoop_eq hcont hloop, enqueue_eq henq]
    rfl
  · rename_i hif
    cases h
    rw [vruntimeLeft, if_neg hif]
    rfl

theorem rbFixSkip_eq (h : rbFixSkip L fuel n s = some s') : s' = { s with skip := s'.skip } := by
  induction fuel generalizing n s s' with
  | zero => cases h
  | succ fuel ih =>
      rw [rbFixSkip] at h
      split at h
      · split at h
        · simp only [Option.bind_eq_bind, Option.bind_eq_some_iff] at h
          obtain ⟨s₁, h₁, s₂, h₂, h⟩ := h
          rw [ih h, ih h₂, ih h₁]
          rfl
        · simp only [Option.bind_eq_bind, Option.bind_some, Option.bind_eq_some_iff] at h
          obtain ⟨s₁, h₁, h⟩ := h
          rw [ih h, ih h₁]
          rfl
      · cases h
        rfl

theorem pickNextR_eq {next : ℕ} (h : pickNextR L cpu fuel g s = some (next, s')) :
    s' = { s with rq := s'.rq, nodeCnt := s'.nodeCnt, skip := s'.skip } := by
  induction fuel generalizing g s with
  | zero => cases h
  | succ fuel ih =>
      rw [pickNextR] at h
      split at h
      · cases h
        rfl
      simp only [Option.bind_eq_bind, Option.bind_eq_some_iff] at h
      obtain ⟨getNode, -, h⟩ := h
      split at h
      · rw [ih h]
        rfl
      split at h
      · cases h
        rfl
      split at h
      · rw [Option.bind_eq_some_iff] at h
        obtain ⟨s₁, hdeq, h⟩ := h
        split at h
        · cases h
          rw [dequeue_eq hdeq]
          rfl
        · cases h
      split at h
      · rw [ih h]
        rfl
      · exact ih h

theorem pickNext_eq {next : ℕ} (h : s.pickNext L cpu = some (next, s')) :
    s' = { s with rq := s'.rq, nodeCnt := s'.nodeCnt, skip := s'.skip } := by
  simp only [pickNext, Option.bind_eq_bind, Option.bind_eq_some_iff] at h
  obtain ⟨⟨ret, s₁⟩, hpick, s₂, hfix, h⟩ := h
  cases h
  rw [rbFixSkip_eq hfix, pickNextR_eq hpick]

/-- **What `simple_sched` does**, where the CPU goes on with `next`. -/
structure Switches (L : SchedLayout) (s : Sched) (cpu : ℕ) (newState : Procstate)
    (now later : UInt64) (next : ℕ) (s' : Sched) : Prop where
  running : s.state (s.thisproc cpu) = .running
  alive : s.killed (s.thisproc cpu) = true → newState = .zombie
  runnable : Function.update s.state (s.thisproc cpu) newState next = .runnable
  vruntime : s'.vruntime = s.vruntimeLeft L (s.thisproc cpu) newState now
  state : s'.state =
    Function.update (Function.update s.state (s.thisproc cpu) newState) next .running
  thisproc : s'.thisproc = Function.update s.thisproc cpu next
  startTime : s'.startTime =
    if next = s.thisproc cpu then s.startTime else Function.update s.startTime next later

/-- The call returns at once, or switches. -/
theorem simpleSched_switches {newState : Procstate} {now later : UInt64}
    (hthis : L.idle (s.thisproc cpu) = false → s.thisproc cpu ∈ L.procs)
    (h : s.simpleSched L cpu newState now later = some s') :
    s' = s ∨ ∃ next, Switches L s cpu newState now later next s' := by
  rw [simpleSched] at h
  split at h
  · cases h
  rename_i hrun
  split at h
  · cases h
    exact .inl rfl
  rename_i hkilled
  simp only [Option.bind_eq_bind, Option.bind_eq_some_iff] at h
  obtain ⟨s₁, hupdate, ⟨next, s₂⟩, hpick, h⟩ := h
  have h₁ := updateThisState_eq hthis hupdate
  have h₂ := pickNext_eq hpick
  have hst : s₂.state = Function.update s.state (s.thisproc cpu) newState := by rw [h₂, h₁]
  have hv : s₂.vruntime = s.vruntimeLeft L (s.thisproc cpu) newState now := by rw [h₂, h₁]
  have hthis₂ : s₂.thisproc = s.thisproc := by rw [h₂, h₁]
  have hstart : s₂.startTime = s.startTime := by rw [h₂, h₁]
  simp only at h
  split at h
  · cases h
  rename_i hnext
  have halive : s.killed (s.thisproc cpu) = true → newState = .zombie := by
    intro hk
    by_contra hne
    exact hkilled ⟨hk, hne⟩
  have hrunnable : Function.update s.state (s.thisproc cpu) newState next = .runnable := by
    rw [← hst]
    exact not_not.mp hnext
  refine .inr ⟨next, ?_⟩
  split at h
  · rename_i hne
    cases h
    refine ⟨not_not.mp hrun, halive, hrunnable, hv, ?_, ?_, ?_⟩
    · simp [setState, hst]
    · simp [setState, hthis₂]
    · simp [setState, hstart, hne]
  · rename_i heq
    cases h
    refine ⟨not_not.mp hrun, halive, hrunnable, hv, ?_, ?_, ?_⟩
    · simp [setState, hst]
    · simp [setState, hthis₂]
    · simp [setState, hstart, not_not.mp heq]

end Sched

end OsLab
