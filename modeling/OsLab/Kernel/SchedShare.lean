import OsLab.Kernel.SchedEffect
import OsLab.Kernel.SchedRun
import Mathlib.Data.UInt
import Mathlib.Algebra.BigOperators.Group.Finset.Basic
import Mathlib.Algebra.BigOperators.Group.Finset.Piecewise
import Mathlib.Data.Set.Finite.Basic

/-!
# The vruntime of a container

A container is charged with each process in it and below, so that its vruntime is the sum of
what its processes and its child containers were charged.  The sum is that of `u64`.

This holds whatever the order of the trees is, so the vruntimes need not lie in a window.

## Main definitions

* `SchedLayout.children` — the child containers.
* `Shares` — each container but the root has the sum of what is in it.
* `group_charge` — this holds in every state that is reached.
-/

namespace OsLab

open Finset
open scoped UInt64.CommRing

namespace SchedLayout

variable (L : SchedLayout)

/-- The child containers of `g` -/
def children (g : ℕ) : Finset ℕ :=
  L.containers.toFinset.filter fun c => c ≠ L.rootContainer ∧ L.parent c = g

variable {L} {g n : ℕ}

theorem mem_children : n ∈ L.children g ↔
    n ∈ L.containers ∧ n ≠ L.rootContainer ∧ L.parent n = g := by
  simp [children]

/-- **A container lies on the way up from `n` if it is `n`, or one of its children does.** -/
theorem ancestors_sum {M : Type*} [AddCommMonoid M] (δ : M) (hg : g ≠ L.rootContainer)
    (hn : n ∈ L.containers) :
    (if g ∈ L.ancestors n then δ else 0) =
      (if n = g then δ else 0) + ∑ c ∈ L.children g, if c ∈ L.ancestors n then δ else 0 := by
  induction hd : L.depth n using Nat.strong_induction_on generalizing n with
  | _ d ih =>
      by_cases hroot : n = L.rootContainer
      · subst hroot
        simp [ancestors_root, Ne.symm hg]
      have hpar := L.parent_mem n hn hroot
      have hself : n ∉ L.ancestors (L.parent n) := notMem_path hpar (home_container hn)
      have ih' := ih _ (hd ▸ L.depth_parent n hn hroot) hpar rfl
      -- the sum over the children has one more term if `n` is one of them
      have hsum : (∑ c ∈ L.children g, if c ∈ L.ancestors n then δ else 0) =
          (if L.parent n = g then δ else 0) +
            ∑ c ∈ L.children g, if c ∈ L.ancestors (L.parent n) then δ else 0 := by
        have hsplit : ∀ c, (if c ∈ L.ancestors n then δ else 0) =
            (if c = n then δ else 0) + if c ∈ L.ancestors (L.parent n) then δ else 0 := by
          intro c
          rw [ancestors_cons hn hroot]
          by_cases hc : c = n
          · subst hc
            simp [hself]
          · simp [hc]
        have hmem : n ∈ L.children g ↔ L.parent n = g := by simp [mem_children, hn, hroot]
        simp only [hsplit, sum_add_distrib, sum_ite_eq', hmem]
      rw [hsum, ← ih', ancestors_cons hn hroot]
      by_cases hgn : g = n
      · subst hgn
        simp [hself]
      · simp [hgn, Ne.symm hgn]

end SchedLayout

variable {L : SchedLayout} {s s' s₀ : SchedSys} {g : ℕ}

theorem charged_eq (v : ℕ → UInt64) (δ : UInt64) (l : List ℕ) (n : ℕ) :
    charged v δ l n = v n + if n ∈ l then δ else 0 := by
  rw [charged]
  split
  · rfl
  · exact (UInt64.add_zero _).symm

/-- A process is charged, with its containers. -/
theorem charged_sum {v : ℕ → UInt64} {δ : UInt64} {P : Finset ℕ} {this : ℕ}
    (hg : g ∈ L.containers) (hne : g ≠ L.rootContainer)
    (hP : ∀ p ∈ P, p ∈ L.procs ∧ L.container p = g) (hthis : this ∈ L.procs)
    (hin : L.container this = g → this ∈ P)
    (h : v g = ∑ p ∈ P, v p + ∑ c ∈ L.children g, v c) :
    charged v δ (this :: L.ancestors (L.container this)) g =
      ∑ p ∈ P, charged v δ (this :: L.ancestors (L.container this)) p +
        ∑ c ∈ L.children g, charged v δ (this :: L.ancestors (L.container this)) c := by
  have hcont := L.container_mem this hthis
  have hup : ∀ c ∈ L.containers,
      (c ∈ this :: L.ancestors (L.container this)) = (c ∈ L.ancestors (L.container this)) := by
    intro c hc
    have hne : c ≠ this := by
      rintro rfl
      exact SchedLayout.not_proc hc hthis
    simp [hne]
  have hprocs : ∀ p ∈ P, (p ∈ this :: L.ancestors (L.container this)) = (p = this) := by
    intro p hp
    have hnot : p ∉ L.ancestors (L.container this) := fun hin =>
      SchedLayout.not_proc (SchedLayout.mem_path hcont hin).1 (hP p hp).1
    simp [hnot]
  have hsumP : (∑ p ∈ P, if p ∈ this :: L.ancestors (L.container this) then δ else 0) =
      if L.container this = g then δ else 0 := by
    have hmem : this ∈ P ↔ L.container this = g := ⟨fun hp => (hP this hp).2, hin⟩
    calc (∑ p ∈ P, if p ∈ this :: L.ancestors (L.container this) then δ else 0)
        = ∑ p ∈ P, if p = this then δ else 0 :=
          sum_congr rfl fun p hp => by simp only [hprocs p hp]
      _ = if L.container this = g then δ else 0 := by rw [sum_ite_eq']; simp only [hmem]
  have hsumC : (∑ c ∈ L.children g, if c ∈ this :: L.ancestors (L.container this) then δ else 0) =
      ∑ c ∈ L.children g, if c ∈ L.ancestors (L.container this) then δ else 0 :=
    sum_congr rfl fun c hc => by simp only [hup c (SchedLayout.mem_children.mp hc).1]
  simp only [charged_eq, sum_add_distrib, hsumP, hsumC]
  simp only [hup g hg]
  rw [SchedLayout.ancestors_sum δ hne hcont, h]
  exact add_add_add_comm ..

/-! ## Runs -/

/-- The process has been started. -/
def SchedSys.Used (L : SchedLayout) (s : SchedSys) (p : ℕ) : Prop :=
  p ∈ L.procs ∧ s.sched.state p ≠ .unused

/-- **Each container but the root has the sum of what is in it.** -/
structure Shares (L : SchedLayout) (s : SchedSys) : Prop where
  live : ∀ n, s.sched.state n = .running ∨ s.sched.state n = .runnable →
    n ∈ L.procs ∨ ∃ i < ncpu, n = L.idleOf i
  finite : { p | s.Used L p }.Finite
  sum : ∀ g ∈ L.containers, g ≠ L.rootContainer → ∀ P : Finset ℕ,
    (∀ p ∈ P, p ∈ L.procs ∧ L.container p = g) →
    (∀ p, s.Used L p → L.container p = g → p ∈ P) →
    s.sched.vruntime g = ∑ p ∈ P, s.sched.vruntime p + ∑ c ∈ L.children g, s.sched.vruntime c

theorem SchedSys.Start.shares (h : s.Start L) : Shares L s where
  live n hn := by
    by_contra hno
    push Not at hno
    rw [h.unused n hno.2] at hn
    rcases hn with hn | hn <;> cases hn
  finite := by
    convert Set.finite_empty
    ext p
    simp only [SchedSys.Used, Set.mem_ofPred_eq, Set.mem_empty_iff_false, iff_false, not_and, not_not]
    exact fun hp => h.unused p fun i _ => proc_ne_idle hp i
  sum g _ _ P _ _ := by simp [h.vruntime]

namespace Shares

/-- The vruntimes are kept, and the state of one process is changed. -/
theorem setState (h : Shares L s) {p : ℕ} {st : Procstate} (hp : p ∈ L.procs ∨ ∃ i < ncpu, p = L.idleOf i)
    (hst : st ≠ .unused) (hs' : s'.sched.state = Function.update s.sched.state p st)
    (hv : s'.sched.vruntime = s.sched.vruntime) : Shares L s' := by
  have hused : ∀ q, s.Used L q → s'.Used L q := by
    intro q ⟨hq, hne⟩
    refine ⟨hq, ?_⟩
    rw [hs']
    by_cases heq : q = p
    · subst heq
      simp [hst]
    · rwa [Function.update_of_ne heq]
  refine ⟨fun n hn => ?_, ?_, fun g hg hne P hP hin => ?_⟩
  · rw [hs'] at hn
    by_cases heq : n = p
    · subst heq
      exact hp
    · rw [Function.update_of_ne heq] at hn
      exact h.live n hn
  · refine (h.finite.insert p).subset fun q hq => ?_
    by_cases heq : q = p
    · exact .inl heq
    · refine .inr ⟨hq.1, ?_⟩
      have := hq.2
      rwa [hs', Function.update_of_ne heq] at this
  · rw [hv]
    exact h.sum g hg hne P hP fun q hq => hin q (hused q hq)

/-- The state and the vruntimes are kept. -/
theorem congr (h : Shares L s) (hst : s'.sched.state = s.sched.state)
    (hv : s'.sched.vruntime = s.sched.vruntime) : Shares L s' where
  live := by rw [hst]; exact h.live
  finite := by
    have hused : ∀ p, s'.Used L p ↔ s.Used L p := fun p => by rw [SchedSys.Used, SchedSys.Used, hst]
    simp only [hused]
    exact h.finite
  sum g hg hne P hP hin := by
    rw [hv]
    exact h.sum g hg hne P hP fun p hp => hin p ⟨hp.1, by rw [hst]; exact hp.2⟩

/-- A process that runs is charged. -/
theorem charge (h : Shares L s) {this : ℕ} {δ : UInt64} (hthis : this ∈ L.procs)
    (hrun : s.sched.state this = .running) (hst : s'.sched.state = s.sched.state)
    (hv : s'.sched.vruntime =
      charged s.sched.vruntime δ (this :: L.ancestors (L.container this))) : Shares L s' where
  live := by rw [hst]; exact h.live
  finite := by
    have hused : ∀ p, s'.Used L p ↔ s.Used L p := fun p => by rw [SchedSys.Used, SchedSys.Used, hst]
    simp only [hused]
    exact h.finite
  sum g hg hne P hP hin := by
    have hin' : ∀ p, s.Used L p → L.container p = g → p ∈ P := fun p hp =>
      hin p ⟨hp.1, by rw [hst]; exact hp.2⟩
    rw [hv]
    refine charged_sum hg hne hP hthis (hin' this ⟨hthis, ?_⟩) (h.sum g hg hne P hP hin')
    rw [hrun]
    simp

/-- **Every call keeps the sums.** -/
theorem step {op : SchedOp} (h : Shares L s) (hok : s.Enabled L op) (hstep : s.step L op = some s') :
    Shares L s' := by
  cases op with
  | activateProc p onalert =>
      simp only [SchedSys.step, Option.map_eq_some_iff] at hstep
      obtain ⟨r, hexec, rfl⟩ := hstep
      rcases Sched.activateProc_eq hexec with heq | ⟨-, heq⟩
      · rw [heq]
        exact h
      · refine h.setState (.inl hok) (by simp : Procstate.runnable ≠ .unused) ?_ ?_
        all_goals rw [heq]
  | activateGroup g =>
      simp only [SchedSys.step, Option.map_eq_some_iff] at hstep
      obtain ⟨sched, hexec, rfl⟩ := hstep
      refine h.congr ?_ ?_
      all_goals rw [Sched.activateGroup_eq hexec]
  | simpleSched cpu newState now later =>
      simp only [SchedSys.step, Option.map_eq_some_iff] at hstep
      obtain ⟨sched, hexec, rfl⟩ := hstep
      obtain ⟨hcpu, hunused, -, -⟩ := hok
      by_cases hrun : s.sched.state (s.sched.thisproc cpu) = .running
      · have hlive := h.live _ (.inl hrun)
        have hthis : L.idle (s.sched.thisproc cpu) = false → s.sched.thisproc cpu ∈ L.procs := by
          intro hidle
          refine hlive.resolve_right ?_
          rintro ⟨i, -, heq⟩
          rw [heq, L.idle_idle] at hidle
          cases hidle
        rcases Sched.simpleSched_switches hthis hexec with heq | ⟨next, hsw⟩
        · rw [heq]
          exact h
        -- the process is charged, leaves the CPU, and the next one enters
        let v := s.sched.vruntimeLeft L (s.sched.thisproc cpu) newState now
        let st := Function.update s.sched.state (s.sched.thisproc cpu) newState
        have h₁ : Shares L { s with sched := { s.sched with vruntime := v } } := by
          by_cases hyields : ¬L.idle (s.sched.thisproc cpu) = true ∧
              s.sched.state (s.sched.thisproc cpu) = .running ∧ newState = .runnable
          · exact h.charge (hthis (by simpa using hyields.1)) hrun rfl (if_pos hyields)
          · exact h.congr rfl (if_neg hyields)
        have h₂ : Shares L { s with sched := { s.sched with vruntime := v, state := st } } :=
          h₁.setState hlive hunused rfl rfl
        exact h₂.setState (h₂.live next (.inr hsw.runnable)) (by simp : Procstate.running ≠ .unused)
          hsw.state hsw.vruntime
      · rw [Sched.simpleSched] at hexec
        simp [hrun] at hexec
  | kill p =>
      cases hstep
      exact h.congr rfl rfl
  | panic =>
      cases hstep
      exact h.congr rfl rfl

end Shares

/-- **The vruntime of a container but the root is the sum** of those of the processes that were
ever started in it, of which there are finitely many, and of its child containers. -/
theorem group_charge (h₀ : s₀.Start L)
    (h : Reach (SchedSys.step L) (SchedSys.Enabled L) s₀ s) :
    { p | s.Used L p }.Finite ∧ ∀ g ∈ L.containers, g ≠ L.rootContainer → ∀ P : Finset ℕ,
      (∀ p ∈ P, p ∈ L.procs ∧ L.container p = g) →
      (∀ p, s.Used L p → L.container p = g → p ∈ P) →
      s.sched.vruntime g =
        ∑ p ∈ P, s.sched.vruntime p + ∑ c ∈ L.children g, s.sched.vruntime c := by
  have hshares : Shares L s := h.invariant h₀.shares fun s op s' hs hok hstep => hs.step hok hstep
  exact ⟨hshares.finite, hshares.sum⟩

/-- The process 16 runs for 5 milliseconds. -/
theorem group_charge_nested : ∃ s : SchedSys, s.sched.vruntime 40 = 5 ∧
    { p | s.Used nestedGroup p }.Finite ∧
    ∀ g ∈ nestedGroup.containers, g ≠ nestedGroup.rootContainer → ∀ P : Finset ℕ,
      (∀ p ∈ P, p ∈ nestedGroup.procs ∧ nestedGroup.container p = g) →
      (∀ p, s.Used nestedGroup p → nestedGroup.container p = g → p ∈ P) →
      s.sched.vruntime g =
        ∑ p ∈ P, s.sched.vruntime p + ∑ c ∈ nestedGroup.children g, s.sched.vruntime c := by
  have hgroup : (SchedSys.init nestedGroup).Enabled nestedGroup (.activateGroup 40) :=
    ⟨by decide, by decide, fun h => h⟩
  have hproc : ∀ s : SchedSys, s.Enabled nestedGroup (.activateProc 16 false) := fun _ => .inr rfl
  have hsched : ∀ (s : SchedSys) (now later : UInt64),
      s.Enabled nestedGroup (.simpleSched 0 .runnable now later) := fun _ _ _ =>
    ⟨by decide, by decide, by decide, fun _ => rfl⟩
  refine ⟨_, ?_, group_charge (SchedSys.init_start nestedGroup)
    (.step (.step (.step (.step .init hgroup rfl) (hproc _) rfl) (hsched _ 0 0) rfl)
      (hsched _ 5 5) rfl)⟩
  rfl

end OsLab
