import OsLab.Kernel.SchedPick
import OsLab.Lib.Run

/-!
# The queues of the scheduler, over whole runs

The functions of the scheduler are called on any CPU, in any order.  A container is activated
once, when it is created, and an idle process does nothing but yield.

## Main definitions

* `SchedSys`, `SchedOp` — the scheduler with the containers that are activated, and its calls.
* `SchedSys.Ok` — the calls the kernel makes, with the vruntimes in a window.
* `SchedInv` — the invariant.
* `Switched` — what `simple_sched` leaves.
* `SchedInv.of_reach` — the invariant holds in every state that is reached.
-/

namespace OsLab

open RbTree

/-- The scheduler, and the containers that `activate_group` has been called for. -/
structure SchedSys where
  sched : Sched
  activated : Set ℕ

inductive SchedOp
  | activateProc (p : ℕ) (onalert : Bool)
  | activateGroup (g : ℕ)
  | simpleSched (cpu : ℕ) (newState : Procstate) (now later : UInt64)
  /-- `kill` sets the flag of a process. -/
  | kill (p : ℕ)
  /-- `_panic` sets `panic_flag`. -/
  | panic

namespace SchedSys

variable (L : SchedLayout) (s : SchedSys)

/-- A call, on the CPU that makes it. -/
def step (op : SchedOp) : Option SchedSys :=
  match op with
  | .activateProc p onalert =>
      (s.sched.activateProc L p onalert).map fun r => { s with sched := r.2 }
  | .activateGroup g =>
      (s.sched.activateGroup L g).map fun sched => ⟨sched, insert g s.activated⟩
  | .simpleSched cpu newState now later =>
      (s.sched.simpleSched L cpu newState now later).map fun sched => { s with sched := sched }
  | .kill p =>
      some { s with sched := { s.sched with killed := Function.update s.sched.killed p true } }
  | .panic => some { s with sched := { s.sched with panicFlag := true } }

/-- The nodes that are linked: the processes that are `RUNNABLE`, and the containers that are
activated. -/
def linked : Set ℕ :=
  { n | (n ∈ L.procs ∧ s.sched.state n = .runnable) ∨ n ∈ s.activated }

/-- The process on the CPU is put back into its queue. -/
def Yields (cpu : ℕ) (newState : Procstate) : Prop :=
  L.idle (s.sched.thisproc cpu) = false ∧ s.sched.killed (s.sched.thisproc cpu) = false ∧
    newState = .runnable

instance (cpu : ℕ) (newState : Procstate) : Decidable (s.Yields L cpu newState) :=
  inferInstanceAs (Decidable (_ ∧ _ ∧ _))

/-- The nodes that are linked, and the one that the call links -/
def compared : SchedOp → Set ℕ
  | .activateProc p _ => insert p (s.linked L)
  | .activateGroup g => insert g (s.linked L)
  | .simpleSched cpu newState _ _ =>
      { n | n ∈ s.linked L ∨ (n = s.sched.thisproc cpu ∧ s.Yields L cpu newState) }
  | _ => s.linked L

/-- The vruntimes after the call has added to them -/
def vruntimeAfter : SchedOp → ℕ → UInt64
  | .simpleSched cpu newState now _ =>
      let this := s.sched.thisproc cpu
      if s.Yields L cpu newState then
        charged s.sched.vruntime (s.sched.deltaTime L this now)
          (this :: L.ancestors (L.container this))
      else s.sched.vruntime
  | _ => s.sched.vruntime

/-- The calls that the kernel makes. -/
def Enabled : SchedOp → Prop
  | .activateProc p _ => p ∈ L.procs
  | .activateGroup g => g ∈ L.containers ∧ g ≠ L.rootContainer ∧ g ∉ s.activated
  | .simpleSched cpu newState _ _ => cpu < ncpu ∧ newState ≠ .unused ∧ newState ≠ .running ∧
      (L.idle (s.sched.thisproc cpu) = true → newState = .runnable)
  | _ => True

/-- **The calls that the kernel makes, with the vruntimes in a window** -/
def Ok (op : SchedOp) : Prop :=
  s.Enabled L op ∧ ∃ base, InWindow (s.vruntimeAfter L op) base (s.compared L op)

/-- The state after the initialisation: the CPUs run their idle processes. -/
structure Start : Prop where
  root : ∀ g, s.sched.rq.root g = 0
  nodeCnt : ∀ g, s.sched.nodeCnt g = 0
  vruntime : ∀ n, s.sched.vruntime n = 0
  skip : ∀ n, s.sched.skip n = false
  unused : ∀ n, (∀ i < ncpu, n ≠ L.idleOf i) → s.sched.state n = .unused
  thisproc : ∀ i, s.sched.thisproc i = L.idleOf i
  running : ∀ i < ncpu, s.sched.state (L.idleOf i) = .running
  activated : s.activated = ∅

end SchedSys

variable {L : SchedLayout} {s s' : SchedSys} {t : ℕ → RbTree ℕ} {p g c n cpu : ℕ}

/-! ## The invariant -/

/-- The states of the processes agree with the CPUs, but for what runs on the CPU `out`. -/
structure CpusOk (L : SchedLayout) (s : SchedSys) (out : Option ℕ) : Prop where
  running : ∀ p ∈ L.procs, s.sched.state p = .running →
    ∃ cpu < ncpu, some cpu ≠ out ∧ s.sched.thisproc cpu = p
  this : ∀ cpu < ncpu, some cpu ≠ out → s.sched.state (s.sched.thisproc cpu) = .running ∧
    (s.sched.thisproc cpu ∈ L.procs ∨ s.sched.thisproc cpu = L.idleOf cpu)
  inj : ∀ i < ncpu, ∀ j < ncpu, some i ≠ out → some j ≠ out →
    s.sched.thisproc i = s.sched.thisproc j → i = j
  idle : ∀ cpu < ncpu, (some cpu ≠ out → s.sched.thisproc cpu ≠ L.idleOf cpu) →
    s.sched.state (L.idleOf cpu) = .runnable
  up : ∀ p ∈ L.procs, s.sched.state p = .running →
    ∀ c ∈ L.ancestors (L.container p), c ∈ s.activated

/-- **The invariant of the scheduler** -/
structure SchedInv (L : SchedLayout) (s : SchedSys) : Prop where
  queued : ∃ t, Queued L s.sched (s.linked L) t
  activated : ∀ g ∈ s.activated, g ∈ L.containers ∧ g ≠ L.rootContainer
  cpus : CpusOk L s none
  skip : ∀ n, s.sched.skip n = false

theorem proc_ne_idle (hp : p ∈ L.procs) (i : ℕ) : p ≠ L.idleOf i := by
  rintro rfl
  have h := L.proc_idle _ hp
  rw [L.idle_idle] at h
  cases h

theorem SchedSys.Start.inv (h : s.Start L) : SchedInv L s where
  queued := by
    refine ⟨fun _ => .nil, ⟨?_, ?_, ?_⟩⟩
    · refine ⟨fun g => ⟨h.root g, trivial⟩, by simp, fun _ => ⟨0, .nil⟩, by simp, fun n g => ?_⟩
      have hn : n ∉ s.linked L := by
        rintro (⟨hp, hrun⟩ | hact)
        · rw [h.unused n fun i _ => proc_ne_idle hp i] at hrun
          cases hrun
        · rw [h.activated] at hact
          exact hact
      simp [hn]
    · exact fun g => h.nodeCnt g
    · rintro n (⟨hp, -⟩ | hact)
      · exact .inl hp
      · rw [h.activated] at hact
        exact hact.elim
  activated g hg := by
    rw [h.activated] at hg
    exact hg.elim
  cpus := by
    constructor
    · intro p hp hrun
      rw [h.unused p fun i _ => proc_ne_idle hp i] at hrun
      cases hrun
    · intro cpu hcpu _
      rw [h.thisproc]
      exact ⟨h.running cpu hcpu, .inr rfl⟩
    · intro i _ j _ _ _ hij
      rw [h.thisproc, h.thisproc] at hij
      exact L.idle_inj i j hij
    · intro cpu _ hne
      exact absurd (h.thisproc cpu) (hne (by simp))
    · intro p hp hrun
      rw [h.unused p fun i _ => proc_ne_idle hp i] at hrun
      cases hrun
  skip := h.skip

theorem proc_notMem_activated (h : SchedInv L s) (hp : p ∈ L.procs) : p ∉ s.activated :=
  fun hact => SchedLayout.not_proc (h.activated p hact).1 hp

namespace CpusOk

variable {out : Option ℕ} {st : Procstate}

/-- What the processes and CPUs do not look at may change, and more containers be activated. -/
theorem congr (h : CpusOk L s out) (hst : s'.sched.state = s.sched.state)
    (hthis : s'.sched.thisproc = s.sched.thisproc) (hact : ∀ c ∈ s.activated, c ∈ s'.activated) :
    CpusOk L s' out := by
  constructor
  · rw [hst, hthis]
    exact h.running
  · rw [hst, hthis]
    exact h.this
  · rw [hthis]
    exact h.inj
  · rw [hst, hthis]
    exact h.idle
  · rw [hst]
    exact fun p hp hrun c hc => hact c (h.up p hp hrun c hc)

/-- A process that does not run changes its state. -/
theorem setState (h : CpusOk L s out) (hp : p ∈ L.procs) (hst : s.sched.state p ≠ .running)
    (hne : st ≠ .running) (hs' : s'.sched.state = Function.update s.sched.state p st)
    (hthis : s'.sched.thisproc = s.sched.thisproc) (hact : s'.activated = s.activated) :
    CpusOk L s' out := by
  have hrun : ∀ q, s'.sched.state q = .running ↔ s.sched.state q = .running := by
    intro q
    rw [hs']
    by_cases hq : q = p
    · subst hq
      simp [hst, hne]
    · rw [Function.update_of_ne hq]
  constructor
  · intro q hq hrunq
    rw [hthis]
    exact h.running q hq ((hrun q).mp hrunq)
  · intro cpu hcpu hout
    rw [hthis, hrun]
    exact h.this cpu hcpu hout
  · rw [hthis]
    exact h.inj
  · intro cpu hcpu hidle
    rw [hthis] at hidle
    rw [hs', Function.update_of_ne (proc_ne_idle hp cpu).symm]
    exact h.idle cpu hcpu hidle
  · intro q hq hrunq
    rw [hact]
    exact h.up q hq ((hrun q).mp hrunq)

/-- The process on a CPU stops running. -/
theorem leave (h : CpusOk L s none) (hcpu : cpu < ncpu) (hne : st ≠ .running)
    (hidle : L.idle (s.sched.thisproc cpu) = true → st = .runnable)
    (hs' : s'.sched.state = Function.update s.sched.state (s.sched.thisproc cpu) st)
    (hthis : s'.sched.thisproc = s.sched.thisproc) (hact : s'.activated = s.activated) :
    CpusOk L s' (some cpu) := by
  have hold : ∀ q, s'.sched.state q = .running →
      q ≠ s.sched.thisproc cpu ∧ s.sched.state q = .running := by
    intro q hq
    have hqne : q ≠ s.sched.thisproc cpu := by
      rintro rfl
      rw [hs', Function.update_self] at hq
      exact hne hq
    rw [hs', Function.update_of_ne hqne] at hq
    exact ⟨hqne, hq⟩
  have hother : ∀ i < ncpu, some i ≠ some cpu → s.sched.thisproc i ≠ s.sched.thisproc cpu :=
    fun i hi hic heq => hic (congrArg some (h.inj i hi cpu hcpu (by simp) (by simp) heq))
  constructor
  · intro q hq hrun
    obtain ⟨hqne, hrun⟩ := hold q hrun
    obtain ⟨i, hi, -, hiq⟩ := h.running q hq hrun
    refine ⟨i, hi, ?_, by rw [hthis, hiq]⟩
    intro heq
    rw [Option.some.inj heq] at hiq
    exact hqne hiq.symm
  · intro i hi hic
    rw [hthis, hs', Function.update_of_ne (hother i hi hic)]
    exact h.this i hi (by simp)
  · intro i hi j hj _ _ hij
    rw [hthis] at hij
    exact h.inj i hi j hj (by simp) (by simp) hij
  · intro i hi hi'
    rw [hs']
    by_cases heq : L.idleOf i = s.sched.thisproc cpu
    · rw [heq, Function.update_self]
      exact hidle (heq ▸ L.idle_idle i)
    · rw [Function.update_of_ne heq]
      refine h.idle i hi fun _ hthisi => ?_
      by_cases hic : i = cpu
      · exact heq (by rw [← hthisi, hic])
      · rw [hthis] at hi'
        exact hi' (by simpa using hic) hthisi
  · intro q hq hrun
    rw [hact]
    exact h.up q hq (hold q hrun).2

/-- A process starts running on the CPU. -/
theorem enter (h : CpusOk L s (some cpu)) (hnext : n = L.idleOf cpu ∨
      (n ∈ L.procs ∧ ∀ c ∈ L.ancestors (L.container n), c ∈ s.activated))
    (hrun : s.sched.state n = .runnable)
    (hs' : s'.sched.state = Function.update s.sched.state n .running)
    (hthis : s'.sched.thisproc = Function.update s.sched.thisproc cpu n)
    (hact : s'.activated = s.activated) (hcpu : cpu < ncpu) : CpusOk L s' none := by
  have hcase : ∀ i, (i = cpu ∧ s'.sched.thisproc i = n) ∨
      (i ≠ cpu ∧ s'.sched.thisproc i = s.sched.thisproc i) := by
    intro i
    rw [hthis]
    by_cases hi : i = cpu
    · subst hi
      exact .inl ⟨rfl, Function.update_self ..⟩
    · exact .inr ⟨hi, Function.update_of_ne hi ..⟩
  have hother : ∀ i < ncpu, i ≠ cpu → s.sched.thisproc i ≠ n := by
    rintro i hi hic rfl
    have := (h.this i hi (by simpa using hic)).1
    rw [hrun] at this
    cases this
  constructor
  · intro q hq hrunq
    by_cases hqn : q = n
    · subst hqn
      refine ⟨cpu, hcpu, by simp, ?_⟩
      rw [hthis, Function.update_self]
    · rw [hs', Function.update_of_ne hqn] at hrunq
      obtain ⟨i, hi, hic, hiq⟩ := h.running q hq hrunq
      refine ⟨i, hi, by simp, ?_⟩
      rw [hthis, Function.update_of_ne (by simpa using hic), hiq]
  · intro i hi _
    rcases hcase i with ⟨rfl, heq⟩ | ⟨hic, heq⟩
    · rw [heq, hs', Function.update_self]
      exact ⟨rfl, hnext.symm.imp (fun hn => hn.1) id⟩
    · rw [heq, hs', Function.update_of_ne (hother i hi hic)]
      exact h.this i hi (by simpa using hic)
  · intro i hi j hj _ _ hij
    rcases hcase i with ⟨hic, hi'⟩ | ⟨hic, hi'⟩ <;> rcases hcase j with ⟨hjc, hj'⟩ | ⟨hjc, hj'⟩
    · rw [hic, hjc]
    · rw [hi', hj'] at hij
      exact absurd hij.symm (hother j hj hjc)
    · rw [hi', hj'] at hij
      exact absurd hij (hother i hi hic)
    · rw [hi', hj'] at hij
      exact h.inj i hi j hj (by simpa using hic) (by simpa using hjc) hij
  · intro i hi hne
    have hidle : ∀ hin : L.idleOf i ≠ n, s'.sched.state (L.idleOf i) = s.sched.state (L.idleOf i) :=
      fun hin => by rw [hs', Function.update_of_ne hin]
    rcases hcase i with ⟨rfl, heq⟩ | ⟨hic, heq⟩
    · have hni : n ≠ L.idleOf i := heq ▸ hne (by simp)
      rw [hidle hni.symm]
      exact h.idle i hi fun hout => absurd rfl hout
    · have hin : L.idleOf i ≠ n := by
        rintro rfl
        rcases hnext with hcpu' | ⟨hp, -⟩
        · exact hic (L.idle_inj i cpu hcpu')
        · exact proc_ne_idle hp i rfl
      rw [hidle hin]
      refine h.idle i hi fun _ => ?_
      rw [← heq]
      exact hne (by simp)
  · intro q hq hrunq c hc
    rw [hact]
    by_cases hqn : q = n
    · subst hqn
      rcases hnext with hidle | ⟨-, hup⟩
      · exact absurd hidle (proc_ne_idle hq cpu)
      · exact hup c hc
    · rw [hs', Function.update_of_ne hqn] at hrunq
      exact h.up q hq hrunq c hc

end CpusOk

/-! ## The linked nodes -/

section Linked

variable {st : Procstate}

theorem linked_runnable (hp : p ∈ L.procs)
    (hs' : s'.sched.state = Function.update s.sched.state p .runnable)
    (hact : s'.activated = s.activated) : s'.linked L = Set.insert p (s.linked L) := by
  ext n
  show _ ↔ n = p ∨ n ∈ s.linked L
  simp only [SchedSys.linked, Set.mem_ofPred_eq, hs', hact]
  by_cases hn : n = p
  · subst hn
    simp [hp]
  · simp [hn]

theorem linked_other (hst : p ∈ L.procs → s.sched.state p ≠ .runnable ∧ st ≠ .runnable)
    (hs' : s'.sched.state = Function.update s.sched.state p st)
    (hact : s'.activated = s.activated) : s'.linked L = s.linked L := by
  ext n
  simp only [SchedSys.linked, Set.mem_ofPred_eq, hs', hact]
  by_cases hn : n = p
  · subst hn
    by_cases hp : n ∈ L.procs
    · simp [(hst hp).1, (hst hp).2]
    · simp [hp]
  · simp [Function.update_of_ne hn]

theorem linked_running (hp : p ∈ L.procs) (hnot : p ∉ s.activated)
    (hs' : s'.sched.state = Function.update s.sched.state p .running)
    (hact : s'.activated = s.activated) : s'.linked L = s.linked L \ {p} := by
  ext n
  simp only [SchedSys.linked, Set.mem_ofPred_eq, Set.mem_sdiff, Set.mem_singleton_iff, hs', hact]
  by_cases hn : n = p
  · subst hn
    simp [hnot]
  · simp [hn]

theorem linked_activate (hs' : s'.sched.state = s.sched.state)
    (hact : s'.activated = insert g s.activated) :
    s'.linked L = Set.insert g (s.linked L) := by
  ext n
  show _ ↔ n = g ∨ n ∈ s.linked L
  simp only [SchedSys.linked, Set.mem_ofPred_eq, hs', hact, Set.mem_insert_iff]
  tauto

end Linked

/-! ## Activation -/

theorem SchedInv.activateProc (h : SchedInv L s) (hp : p ∈ L.procs) (onalert : Bool) {base : UInt64}
    (hw : InWindow s.sched.vruntime base (insert p (s.linked L))) :
    ∃ r, s.sched.activateProc L p onalert = some r ∧ SchedInv L { s with sched := r.2 } := by
  by_cases hno : s.sched.state p = .running ∨ s.sched.state p = .runnable ∨
      s.sched.state p = .zombie ∨ (s.sched.state p = .deepsleeping ∧ onalert = true)
  · exact ⟨(false, s.sched), by rw [Sched.activateProc, if_pos hno], h⟩
  · have hyes : s.sched.state p = .sleeping ∨ s.sched.state p = .unused ∨
        (s.sched.state p = .deepsleeping ∧ ¬onalert = true) := by
      cases hst : s.sched.state p <;> simp_all
    obtain ⟨t, hq⟩ := h.queued
    have hrunning : s.sched.state p ≠ .running := fun heq => hno (.inl heq)
    have hnot : p ∉ s.linked L := by
      rintro (⟨-, heq⟩ | hact)
      · exact hno (.inr (.inl heq))
      · exact proc_notMem_activated h hp hact
    have hw' : ∀ a ∈ p :: (t (L.home p)).toList, (s.sched.vruntime a - base).toNat < 2 ^ 63 := by
      intro a ha
      rcases List.mem_cons.mp ha with rfl | ha
      · exact hw _ (.inl rfl)
      · exact hw _ (.inr (hq.mem_home ha).1)
    obtain ⟨s₁, F, t', henq, hcnt, hq'⟩ := enqueue_count (s := s.sched.setState p .runnable)
      (hq.congr rfl rfl rfl) (.inl hp) hnot hw'
    rw [SchedLayout.home_proc hp] at henq hcnt hq'
    have hstate : (s₁.addCnt (L.container p) 1).state =
        Function.update s.sched.state p .runnable := by
      rw [hcnt]
      rfl
    refine ⟨(true, s₁.addCnt (L.container p) 1), ?_, ⟨t', ?_⟩, h.activated, ?_, ?_⟩
    · rw [Sched.activateProc, if_neg hno, if_pos hyes]
      simp only [henq, Option.bind_eq_bind, Option.bind_some]
    · have hlinked : SchedSys.linked L ⟨s₁.addCnt (L.container p) 1, s.activated⟩ =
          Set.insert p (s.linked L) := linked_runnable hp hstate rfl
      rw [← hcnt] at hq'
      rw [hlinked]
      exact hq'
    · refine h.cpus.setState hp hrunning (by simp : Procstate.runnable ≠ .running) hstate ?_ rfl
      rw [hcnt]
      rfl
    · rw [hcnt]
      exact h.skip

theorem SchedInv.activateGroup (h : SchedInv L s) (hg : g ∈ L.containers) (hne : g ≠ L.rootContainer)
    (hnew : g ∉ s.activated) {base : UInt64}
    (hw : InWindow s.sched.vruntime base (insert g (s.linked L))) :
    ∃ sched, s.sched.activateGroup L g = some sched ∧
      SchedInv L ⟨sched, insert g s.activated⟩ := by
  obtain ⟨t, hq⟩ := h.queued
  have hnot : g ∉ s.linked L := by
    rintro (⟨hp, -⟩ | hact)
    · exact SchedLayout.not_proc hg hp
    · exact hnew hact
  have hw' : ∀ a ∈ g :: (t (L.home g)).toList, (s.sched.vruntime a - base).toNat < 2 ^ 63 := by
    intro a ha
    rcases List.mem_cons.mp ha with rfl | ha
    · exact hw _ (.inl rfl)
    · exact hw _ (.inr (hq.mem_home ha).1)
  obtain ⟨s₁, F, t', henq, hcnt, hq'⟩ := enqueue_count hq (.inr ⟨hg, hne⟩) hnot hw'
  rw [SchedLayout.home_container hg] at henq hcnt hq'
  have hstate : (s₁.addCnt (L.parent g) 1).state = s.sched.state := by
    rw [hcnt]
    rfl
  refine ⟨s₁.addCnt (L.parent g) 1, ?_, ⟨t', ?_⟩, ?_, ?_, ?_⟩
  · rw [Sched.activateGroup, henq]
    rfl
  · have hlinked : SchedSys.linked L ⟨s₁.addCnt (L.parent g) 1, insert g s.activated⟩ =
        Set.insert g (s.linked L) := linked_activate hstate rfl
    rw [← hcnt] at hq'
    rw [hlinked]
    exact hq'
  · rintro c (rfl | hc)
    · exact ⟨hg, hne⟩
    · exact h.activated c hc
  · refine h.cpus.congr hstate ?_ fun c hc => .inr hc
    rw [hcnt]
    rfl
  · rw [hcnt]
    exact h.skip

/-! ## Switching -/

/-- What `update_this_state` leaves. -/
structure Updated (L : SchedLayout) (s : SchedSys) (cpu : ℕ) (newState : Procstate)
    (now later : UInt64) (s₁ : Sched) : Prop where
  queued : ∃ t, Queued L s₁ (SchedSys.linked L ⟨s₁, s.activated⟩) t
  vruntime : s₁.vruntime = s.vruntimeAfter L (.simpleSched cpu newState now later)
  state : s₁.state = Function.update s.sched.state (s.sched.thisproc cpu) newState
  thisproc : s₁.thisproc = s.sched.thisproc
  startTime : s₁.startTime = s.sched.startTime
  skip : s₁.skip = s.sched.skip
  panicFlag : s₁.panicFlag = s.sched.panicFlag

theorem SchedInv.updateThisState {newState : Procstate} {now later : UInt64} (h : SchedInv L s)
    (hcpu : cpu < ncpu) (hidle : L.idle (s.sched.thisproc cpu) = true → newState = .runnable)
    (hkilled : ¬(s.sched.killed (s.sched.thisproc cpu) = true ∧ newState ≠ .zombie)) {base : UInt64}
    (hw : InWindow (s.vruntimeAfter L (.simpleSched cpu newState now later)) base
      (s.compared L (.simpleSched cpu newState now later))) :
    ∃ s₁, s.sched.updateThisState L (s.sched.thisproc cpu) newState now = some s₁ ∧
      Updated L s cpu newState now later s₁ := by
  obtain ⟨t, hq⟩ := h.queued
  obtain ⟨hrun, hthis⟩ := h.cpus.this cpu hcpu (by simp)
  generalize hthis' : s.sched.thisproc cpu = this at hrun hthis hidle hkilled
  by_cases hy : this ∈ L.procs ∧ newState = .runnable
  · obtain ⟨hp, rfl⟩ := hy
    have hyields : s.Yields L cpu .runnable := by
      refine ⟨hthis' ▸ L.proc_idle this hp, ?_, rfl⟩
      rw [hthis']
      simpa using hkilled
    have hafter : s.vruntimeAfter L (.simpleSched cpu .runnable now later) =
        charged s.sched.vruntime (s.sched.deltaTime L this now)
          (this :: L.ancestors (L.container this)) := by
      rw [SchedSys.vruntimeAfter]
      simp only [if_pos hyields, hthis']
    have hnot : this ∉ s.linked L := by
      rintro (⟨-, heq⟩ | hact)
      · rw [hrun] at heq
        cases heq
      · exact proc_notMem_activated h hp hact
    obtain ⟨F, t', hexec, hq'⟩ := updateThisState_yield now hq hp hrun hnot
      (fun c hc => .inr (h.cpus.up this hp hrun c hc)) (by
        rw [← hafter]
        intro n hn
        apply hw
        rcases hn with rfl | hn
        · exact .inr ⟨hthis'.symm, hyields⟩
        · exact .inl hn)
    have hlinked : ∀ s₁ : Sched, s₁.state = Function.update s.sched.state this .runnable →
        SchedSys.linked L ⟨s₁, s.activated⟩ = Set.insert this (s.linked L) :=
      fun s₁ hs₁ => linked_runnable hp hs₁ rfl
    refine ⟨_, hexec, ⟨t', ?_⟩, hafter.symm, by rw [hthis']; rfl, rfl, rfl, rfl, rfl⟩
    rw [hlinked _ rfl]
    exact hq'.congr rfl rfl rfl
  · -- nothing is put back
    have hno : ¬(¬L.idle this = true ∧ s.sched.state this = .running ∧ newState = .runnable) := by
      rintro ⟨hne, -, heq⟩
      rcases hthis with hp | rfl
      · exact hy ⟨hp, heq⟩
      · exact hne (L.idle_idle cpu)
    have hyields : ¬s.Yields L cpu newState := by
      rintro ⟨hne, -, heq⟩
      rw [hthis'] at hne
      exact hno ⟨by simp [hne], hrun, heq⟩
    have hlinked : ∀ s₁ : Sched, s₁.state = Function.update s.sched.state this newState →
        SchedSys.linked L ⟨s₁, s.activated⟩ = s.linked L := by
      refine fun s₁ hs₁ => linked_other (fun hp => ⟨?_, fun heq => hy ⟨hp, heq⟩⟩) hs₁ rfl
      rw [hrun]
      simp
    refine ⟨s.sched.setState this newState, ?_, ⟨t, ?_⟩, ?_, by rw [hthis']; rfl, rfl, rfl, rfl, rfl⟩
    · rw [Sched.updateThisState, if_neg hno]
      rfl
    · rw [hlinked _ rfl]
      exact hq.congr rfl rfl rfl
    · rw [SchedSys.vruntimeAfter]
      simp only [if_neg hyields]
      rfl

/-- **What `simple_sched` leaves**, where the CPU goes on with `next`. -/
structure Switched (L : SchedLayout) (s : SchedSys) (cpu : ℕ) (newState : Procstate)
    (now later : UInt64) (next : ℕ) (sched : Sched) : Prop where
  vruntime : sched.vruntime = s.vruntimeAfter L (.simpleSched cpu newState now later)
  state : sched.state = Function.update
    (Function.update s.sched.state (s.sched.thisproc cpu) newState) next .running
  thisproc : sched.thisproc = Function.update s.sched.thisproc cpu next
  startTime : sched.startTime = if next = s.sched.thisproc cpu then s.sched.startTime
    else Function.update s.sched.startTime next later
  skip : ∀ n, sched.skip n = false
  panic : s.sched.panicFlag = true → next = L.idleOf cpu
  /-- The process is found in the queues that `update_this_state` leaves. -/
  next : next = L.idleOf cpu ∨ (next ∈ L.procs ∧ ∃ s₁ t, Updated L s cpu newState now later s₁ ∧
    Queued L s₁ (SchedSys.linked L ⟨s₁, s.activated⟩) t ∧ s₁.state next = .runnable ∧
    WayDown L t (schedCmp s₁.vruntime) L.rootContainer next)

/-- The end of `simple_sched` -/
theorem simpleSched_eq {newState : Procstate} {now later : UInt64} {s : Sched} {s₁ s₂ : Sched}
    {next : ℕ} (hrun : s.state (s.thisproc cpu) = .running)
    (hkilled : ¬(s.killed (s.thisproc cpu) = true ∧ newState ≠ .zombie))
    (hupdate : s.updateThisState L (s.thisproc cpu) newState now = some s₁)
    (hpick : s₁.pickNext L cpu = some (next, s₂)) (hnext : s₂.state next = .runnable) :
    s.simpleSched L cpu newState now later = some { s₂ with
      thisproc := Function.update s₂.thisproc cpu next,
      state := Function.update s₂.state next .running,
      startTime := if next = s.thisproc cpu then s₂.startTime
        else Function.update s₂.startTime next later } := by
  rw [Sched.simpleSched]
  simp only [hrun, ne_eq, not_true_eq_false, if_false, if_neg hkilled, hupdate, hpick, hnext,
    Option.bind_eq_bind, Option.bind_some]
  by_cases heq : next = s.thisproc cpu
  · simp [heq, Sched.setState]
  · simp [heq, Sched.setState]

/-- The next process is the idle process, or is at the end of the way down. -/
theorem pickNext_cases {sched : Sched} {act : Set ℕ} (cpu : ℕ)
    (hq : Queued L sched (SchedSys.linked L ⟨sched, act⟩) t)
    (hact : ∀ g ∈ act, g ∈ L.containers) (hskip : ∀ n, sched.skip n = false) :
    ∃ next s₂ t', sched.pickNext L cpu = some (next, s₂) ∧ (∀ n, s₂.skip n = false) ∧
      s₂ = { sched with rq := s₂.rq, nodeCnt := s₂.nodeCnt, skip := s₂.skip } ∧
      (sched.panicFlag = true → next = L.idleOf cpu) ∧
      ((next = L.idleOf cpu ∧ Queued L s₂ (SchedSys.linked L ⟨sched, act⟩) t') ∨
        (next ∈ L.procs ∧ sched.state next = .runnable ∧
          (∀ c ∈ L.ancestors (L.container next), c ∈ act) ∧
          WayDown L t (schedCmp sched.vruntime) L.rootContainer next ∧
          Queued L s₂ (SchedSys.linked L ⟨sched, act⟩ \ {next}) t')) := by
  by_cases hpanic : sched.panicFlag = true
  · obtain ⟨s₂, hexec, heq, hskip₂⟩ := pickNext_panic cpu hq hskip hpanic
    refine ⟨_, s₂, t, hexec, hskip₂, by rw [heq], fun _ => rfl,
          .inl ⟨rfl, hq.congr ?_ ?_ ?_⟩⟩
    all_goals rw [heq]
  · obtain ⟨next, s₂, hexec, hpicked, hskip₂⟩ :=
      pickNext_spec cpu hq hskip (Bool.eq_false_of_not_eq_true hpanic)
    cases hpicked with
    | idle hno heq =>
        refine ⟨_, s₂, t, hexec, hskip₂, by rw [heq], fun _ => rfl, .inl ⟨rfl, hq.congr ?_ ?_ ?_⟩⟩
        all_goals rw [heq]
    | proc u hway hrem =>
        obtain ⟨hp, hQ, hmem⟩ := hq.proc_of_under hway.under.1 hway.under.2
        have hrun : sched.state next = .runnable := by
          rcases hQ with ⟨-, hrun⟩ | hin
          · exact hrun
          · exact absurd hp (SchedLayout.not_proc (hact next hin))
        refine ⟨next, s₂, _, hexec, hskip₂, hrem.eq, fun h => absurd h hpanic, .inr ⟨hp, hrun, fun c hc => ?_, hway,
          hrem.queued hq hmem⟩⟩
        have hleast := hway.comesFirst_root hq (List.mem_cons_of_mem next hc)
        have hcont := (SchedLayout.mem_path (L.container_mem next hp) hc).1
        rcases (hq.mem_home hleast.mem).1 with ⟨hcp, -⟩ | hin
        · exact absurd hcp (SchedLayout.not_proc hcont)
        · exact hin

theorem SchedInv.simpleSched {newState : Procstate} {now later : UInt64} (h : SchedInv L s)
    (hcpu : cpu < ncpu) (hne : newState ≠ .running)
    (hidle : L.idle (s.sched.thisproc cpu) = true → newState = .runnable)
    (hkilled : ¬(s.sched.killed (s.sched.thisproc cpu) = true ∧ newState ≠ .zombie)) {base : UInt64}
    (hw : InWindow (s.vruntimeAfter L (.simpleSched cpu newState now later)) base
      (s.compared L (.simpleSched cpu newState now later))) :
    ∃ next sched, s.sched.simpleSched L cpu newState now later = some sched ∧
      Switched L s cpu newState now later next sched ∧ SchedInv L { s with sched := sched } := by
  obtain ⟨s₁, hupdate, hup⟩ := h.updateThisState hcpu hidle hkilled hw
  obtain ⟨t, hq⟩ := hup.queued
  have hrun := (h.cpus.this cpu hcpu (by simp)).1
  have hleave : CpusOk L ⟨s₁, s.activated⟩ (some cpu) :=
    h.cpus.leave hcpu hne hidle hup.state hup.thisproc rfl
  have hskip : ∀ n, s₁.skip n = false := by
    rw [hup.skip]
    exact h.skip
  have hidleRun : s₁.state (L.idleOf cpu) = .runnable :=
    hleave.idle cpu hcpu fun hout => absurd rfl hout
  obtain ⟨next, s₂, t', hexec, hskip₂, heq, hpanic, hcase⟩ :=
    pickNext_cases cpu hq (fun g hg => (h.activated g hg).1) hskip
  have hst₂ : s₂.state = s₁.state := by rw [heq]
  have hnext : next = L.idleOf cpu ∨
      (next ∈ L.procs ∧ ∀ c ∈ L.ancestors (L.container next), c ∈ s.activated) := by
    rcases hcase with ⟨hn, -⟩ | ⟨hp, -, hanc, -, -⟩
    · exact .inl hn
    · exact .inr ⟨hp, hanc⟩
  have hrunnable : s₂.state next = .runnable := by
    rw [hst₂]
    rcases hcase with ⟨rfl, -⟩ | ⟨-, hn, -, -, -⟩
    · exact hidleRun
    · exact hn
  refine ⟨next, _, simpleSched_eq hrun hkilled hupdate hexec hrunnable, ?_, ?_⟩
  · refine ⟨?_, ?_, ?_, ?_, hskip₂, fun h' => hpanic (hup.panicFlag.trans h'), ?_⟩
    · rw [← hup.vruntime, heq]
    · rw [← hup.state, ← hst₂]
    · rw [← hup.thisproc, heq]
    · rw [← hup.startTime, heq]
    · rcases hcase with ⟨hn, -⟩ | ⟨hp, hn, -, hway, -⟩
      · exact .inl hn
      · exact .inr ⟨hp, s₁, t, hup, hq, hn, hway⟩
  · refine ⟨?_, h.activated, ?_, hskip₂⟩
    · refine ⟨t', ?_⟩
      rcases hcase with ⟨hn, hq'⟩ | ⟨hp, hn, -, -, hq'⟩
      · have hlinked : ∀ s' : Sched, s'.state = Function.update s₁.state next .running →
            SchedSys.linked L ⟨s', s.activated⟩ = SchedSys.linked L ⟨s₁, s.activated⟩ :=
          fun s' hs' => linked_other (fun hp => absurd hn (proc_ne_idle hp cpu)) hs' rfl
        rw [hlinked _ (by rw [← hst₂])]
        exact hq'.congr rfl rfl rfl
      · have hnot : next ∉ s.activated := proc_notMem_activated h hp
        have hlinked : ∀ s' : Sched, s'.state = Function.update s₁.state next .running →
            SchedSys.linked L ⟨s', s.activated⟩ = SchedSys.linked L ⟨s₁, s.activated⟩ \ {next} :=
          fun s' hs' => linked_running hp hnot hs' rfl
        rw [hlinked _ (by rw [← hst₂])]
        exact hq'.congr rfl rfl rfl
    · refine hleave.enter hnext (hst₂ ▸ hrunnable) ?_ ?_ rfl hcpu
      · rw [← hst₂]
      · rw [heq]

/-! ## Runs -/

/-- A process that is killed does not leave the CPU but to exit. -/
theorem SchedInv.simpleSched_killed {newState : Procstate} {now later : UInt64} (h : SchedInv L s)
    (hcpu : cpu < ncpu)
    (hkilled : s.sched.killed (s.sched.thisproc cpu) = true ∧ newState ≠ .zombie) :
    s.sched.simpleSched L cpu newState now later = some s.sched := by
  have hrun := (h.cpus.this cpu hcpu (by simp)).1
  rw [Sched.simpleSched]
  simp only [hrun, ne_eq, not_true_eq_false, if_false]
  exact if_pos hkilled

/-- **Every call goes through, and keeps the invariant.** -/
theorem SchedInv.step {op : SchedOp} (h : SchedInv L s) (hok : s.Ok L op) :
    ∃ s', s.step L op = some s' ∧ SchedInv L s' := by
  cases op with
  | activateProc p onalert =>
      obtain ⟨hp, base, hw⟩ := hok
      obtain ⟨r, hexec, hinv⟩ := h.activateProc hp onalert hw
      exact ⟨_, by rw [SchedSys.step, hexec]; rfl, hinv⟩
  | activateGroup g =>
      obtain ⟨⟨hg, hne, hnew⟩, base, hw⟩ := hok
      obtain ⟨sched, hexec, hinv⟩ := h.activateGroup hg hne hnew hw
      exact ⟨_, by rw [SchedSys.step, hexec]; rfl, hinv⟩
  | simpleSched cpu newState now later =>
      obtain ⟨⟨hcpu, -, hne, hidle⟩, base, hw⟩ := hok
      by_cases hkilled : s.sched.killed (s.sched.thisproc cpu) = true ∧ newState ≠ .zombie
      · exact ⟨_, by rw [SchedSys.step, h.simpleSched_killed hcpu hkilled]; rfl, h⟩
      · obtain ⟨next, sched, hexec, -, hinv⟩ := h.simpleSched hcpu hne hidle hkilled hw
        exact ⟨_, by rw [SchedSys.step, hexec]; rfl, hinv⟩
  | kill p =>
      obtain ⟨t, hq⟩ := h.queued
      exact ⟨_, rfl, ⟨t, hq.congr rfl rfl rfl⟩, h.activated,
        h.cpus.congr rfl rfl fun _ hc => hc, h.skip⟩
  | panic =>
      obtain ⟨t, hq⟩ := h.queued
      exact ⟨_, rfl, ⟨t, hq.congr rfl rfl rfl⟩, h.activated,
        h.cpus.congr rfl rfl fun _ hc => hc, h.skip⟩

/-- **The invariant holds in every state that is reached.** -/
theorem SchedInv.of_reach {s₀ : SchedSys} (h₀ : s₀.Start L)
    (h : Reach (SchedSys.step L) (SchedSys.Ok L) s₀ s) : SchedInv L s := by
  refine h.invariant h₀.inv fun s op s' hinv hok hstep => ?_
  obtain ⟨s₁, hexec, hinv₁⟩ := hinv.step hok
  rw [hstep] at hexec
  cases hexec
  exact hinv₁

end OsLab
