import OsLab.Kernel.SchedRun
import OsLab.Kernel.SchedEffect
import Mathlib.Algebra.BigOperators.Group.Finset.Piecewise

/-!
# The time that a process is charged with

`get_timestamp_ms` divides a counter of 64 bits by its ticks in a millisecond.  With more than
seven of them, what four CPUs can charge before the counter ends is less than `2^63`, and the
vruntimes lie in a window.

A process that yields and is picked again at once keeps its `start_time`: the interval that was
charged is charged again with the next one.  This does not happen to a process that is overtaken.

## Main definitions

* `TimeSys` — the scheduler, with the counter and a record of what each process has run.
* `Overtaken` — a node on the way to the process has one before it in its queue.
* `vruntime_of_overtaken` — the charge is exact if each process that yields is overtaken.
* `selfPick_overcharged` — it is not in general.
-/

namespace OsLab

open RbTree

/-- `get_timestamp_ms()`, where the counter shows `timestamp` -/
def getTimestampMs (oneMs timestamp : UInt64) : UInt64 := timestamp / oneMs

/-- **The scheduler and the time** -/
structure TimeSys where
  sys : SchedSys
  /-- What the counter showed last -/
  timestamp : UInt64
  /-- When `simple_sched` last made a process `RUNNING` -/
  since : ℕ → UInt64
  /-- The length of the runs of a process that a yield has ended -/
  ran : ℕ → ℕ

section Overtaken

variable (L : SchedLayout) (s : SchedSys)

/-- A process that is `RUNNABLE`, or a container that leads to one through activated containers -/
inductive Leads : ℕ → Prop
  | proc {p : ℕ} : p ∈ L.procs → s.sched.state p = .runnable → Leads p
  | group {m : ℕ} : L.home m ∈ s.activated → Leads m → Leads (L.home m)

/-- **On the way to the process, a node that leads to another one comes first**, with the
vruntimes after the call. -/
def Overtaken (op : SchedOp) (this : ℕ) : Prop :=
  ∃ c ∈ this :: L.ancestors (L.container this), ∃ m, m ≠ c ∧ L.home m = L.home c ∧ Leads L s m ∧
    schedCmp (s.vruntimeAfter L op) m c = true

end Overtaken

namespace TimeSys

variable (L : SchedLayout) (oneMs : UInt64) (s : TimeSys)

/-- The times in the calls are those of the counter; the scheduler reads milliseconds. -/
def inMs : SchedOp → SchedOp
  | .simpleSched cpu newState now later =>
      .simpleSched cpu newState (getTimestampMs oneMs now) (getTimestampMs oneMs later)
  | op => op

def step (op : SchedOp) : Option TimeSys :=
  (s.sys.step L (inMs oneMs op)).map fun sys =>
    match op with
    | .simpleSched cpu newState now later =>
        let this := s.sys.sched.thisproc cpu
        if s.sys.sched.killed this ∧ newState ≠ .zombie then { s with timestamp := later }
        else
          { sys := sys
            timestamp := later
            since := Function.update s.since (sys.sched.thisproc cpu) (getTimestampMs oneMs later)
            ran :=
              if newState = .runnable then
                Function.update s.ran this
                  (s.ran this + ((getTimestampMs oneMs now).toNat - (s.since this).toNat))
              else s.ran }
    | _ => { s with sys := sys }

/-- The calls of the kernel; the counter does not go back. -/
def Enabled (op : SchedOp) : Prop :=
  s.sys.Enabled L op ∧
    match op with
    | .simpleSched _ _ now later => s.timestamp ≤ now ∧ now ≤ later
    | _ => True

/-- **A process that yields is overtaken**, or the millisecond is that in which it started.  After
a panic the idle process is next. -/
def HandsOver (op : SchedOp) : Prop :=
  match op with
  | .simpleSched cpu newState now later =>
      s.sys.Yields L cpu newState →
        s.sys.sched.panicFlag = true ∨
        getTimestampMs oneMs later = s.sys.sched.startTime (s.sys.sched.thisproc cpu) ∨
        Overtaken L s.sys (inMs oneMs (.simpleSched cpu newState now later))
          (s.sys.sched.thisproc cpu)
  | _ => True

/-- The state after the initialisation -/
structure Start : Prop where
  sys : s.sys.Start L
  since : ∀ n, s.since n = 0
  ran : ∀ n, s.ran n = 0

end TimeSys

variable {L : SchedLayout} {oneMs : UInt64} {s s' s₀ : TimeSys} {cpu next : ℕ}

/-! ## The process that is overtaken -/

theorem schedCmp_asymm {v : ℕ → UInt64} {base : UInt64} {Q : Set ℕ} {a b : ℕ}
    (hw : InWindow v base Q) (ha : a ∈ Q) (hb : b ∈ Q) (h : schedCmp v a b = true) :
    schedCmp v b a = false := by
  rw [← windowCmp_eq (hw a ha) (hw b hb)] at h
  rw [← windowCmp_eq (hw b hb) (hw a ha)]
  simp only [windowCmp, decide_eq_true_eq, decide_eq_false_iff_not] at h ⊢
  omega

/-- **A process that is overtaken is not picked.** -/
theorem Switched.ne_of_overtaken {s : SchedSys} {newState : Procstate} {now later : UInt64}
    {sched : Sched} {base : UInt64} (h : SchedInv L s)
    (hsw : Switched L s cpu newState now later next sched) (hcpu : cpu < ncpu)
    (hy : s.Yields L cpu newState)
    (hw : InWindow (s.vruntimeAfter L (.simpleSched cpu newState now later)) base
      (s.compared L (.simpleSched cpu newState now later)))
    (hover : Overtaken L s (.simpleSched cpu newState now later) (s.sched.thisproc cpu)) :
    next ≠ s.sched.thisproc cpu := by
  rintro rfl
  obtain ⟨hrun, hcase⟩ := h.cpus.this cpu hcpu (by simp)
  have hthis : s.sched.thisproc cpu ∈ L.procs := by
    refine hcase.resolve_right fun heq => ?_
    have := hy.1
    rw [heq, L.idle_idle] at this
    cases this
  obtain hidle | ⟨-, s₁, t, hup, hq, -, hway⟩ := hsw.next
  · exact proc_ne_idle hthis cpu hidle
  -- what leads to a process is in its queue, and may be picked
  have hleads : ∀ m, Leads L s m →
      m ∈ SchedSys.linked L ⟨s₁, s.activated⟩ ∧ m ∈ s.linked L ∧ Eligible L t m := by
    intro m hm
    induction hm with
    | @proc p hp hst =>
        have hne : p ≠ s.sched.thisproc cpu := by
          rintro rfl
          rw [hrun] at hst
          cases hst
        refine ⟨.inl ⟨hp, ?_⟩, .inl ⟨hp, hst⟩, .inl (L.proc_group p hp)⟩
        change s₁.state p = .runnable
        rw [hup.state, Function.update_of_ne hne, hst]
    | @group m hact _ ih =>
        refine ⟨.inr hact, .inr hact, .inr (hasProc_iff.mpr ⟨m, ?_, ih.2.2⟩)⟩
        exact (hq.planted.mem m _).mpr ⟨ih.1, rfl⟩
  obtain ⟨c, hc, m, hne, hhome, hm, hcmp⟩ := hover
  obtain ⟨hlinked, hlinked₀, helig⟩ := hleads m hm
  have hfirst := hway.comesFirst_root hq hc
  have hmem : m ∈ (t (L.home c)).toList := (hq.planted.mem m _).mpr ⟨hlinked, hhome.symm⟩
  have hleast := hfirst.least m hmem hne helig
  rw [hup.vruntime] at hleast
  have hc' : c ∈ s.compared L (.simpleSched cpu newState now later) := by
    rcases List.mem_cons.mp hc with rfl | hc
    · exact .inr ⟨rfl, hy⟩
    · exact .inl (.inr (h.cpus.up _ hthis hrun c hc))
  rw [schedCmp_asymm hw (.inl hlinked₀) hc' hcmp] at hleast
  cases hleast

/-! ## The invariant -/

theorem getTimestampMs_mono (oneMs : UInt64) {t t' : UInt64} (h : t ≤ t') :
    (getTimestampMs oneMs t).toNat ≤ (getTimestampMs oneMs t').toNat := by
  rw [getTimestampMs, getTimestampMs, UInt64.toNat_div, UInt64.toNat_div]
  exact Nat.div_le_div_right (UInt64.le_iff_toNat_le.mp h)

theorem getTimestampMs_lt (hms : 8 ≤ oneMs) (t : UInt64) :
    (getTimestampMs oneMs t).toNat < 2 ^ 61 := by
  have h8 : 8 ≤ oneMs.toNat := UInt64.le_iff_toNat_le.mp hms
  have ht := t.toNat_lt
  rw [getTimestampMs, UInt64.toNat_div, Nat.div_lt_iff_lt_mul (by omega)]
  omega

/-- What the CPUs have charged in all is less than half the range. -/
theorem sum_busy_lt {busy : ℕ → ℕ} (h : ∀ i < ncpu, busy i < 2 ^ 61) :
    ∑ i ∈ Finset.range ncpu, busy i < 2 ^ 63 := by
  have h0 := h 0 (by decide)
  have h1 := h 1 (by decide)
  have h2 := h 2 (by decide)
  have h3 := h 3 (by decide)
  simp only [ncpu, Finset.sum_range_succ, Finset.sum_range_zero]
  omega

theorem sum_busy_add {busy : ℕ → ℕ} {d : ℕ} (hcpu : cpu < ncpu) :
    ∑ i ∈ Finset.range ncpu, Function.update busy cpu (busy cpu + d) i =
      ∑ i ∈ Finset.range ncpu, busy i + d := by
  have hmem : cpu ∈ Finset.range ncpu := Finset.mem_range.mpr hcpu
  rw [Finset.sum_update_of_mem hmem, ← Finset.add_sum_erase _ _ hmem, Finset.sdiff_singleton_eq_erase]
  omega

/-- **The processes have been charged with what they have run.** -/
structure TimeInv (L : SchedLayout) (oneMs : UInt64) (s : TimeSys) : Prop where
  inv : SchedInv L s.sys
  startTime : ∀ p ∈ L.procs, s.sys.sched.state p = .running →
    s.sys.sched.startTime p = s.since p
  since_le : ∀ i < ncpu,
    (s.since (s.sys.sched.thisproc i)).toNat ≤ (getTimestampMs oneMs s.timestamp).toNat
  ran : ∀ p ∈ L.procs, (s.sys.sched.vruntime p).toNat = s.ran p
  /-- What each CPU has charged ends before the process on it started. -/
  busy : ∃ busy : ℕ → ℕ,
    (∀ i < ncpu, busy i ≤ (s.since (s.sys.sched.thisproc i)).toNat) ∧
      ∀ n, (s.sys.sched.vruntime n).toNat ≤ ∑ i ∈ Finset.range ncpu, busy i

theorem TimeSys.Start.inv (h : s.Start L) : TimeInv L oneMs s where
  inv := h.sys.inv
  startTime p hp hrun := by
    rw [h.sys.unused p fun i _ => proc_ne_idle hp i] at hrun
    cases hrun
  since_le i _ := by simp [h.since]
  ran p _ := by simp [h.sys.vruntime, h.ran]
  busy := ⟨fun _ => 0, fun _ _ => Nat.zero_le _, fun n => by simp [h.sys.vruntime]⟩

namespace TimeInv

theorem this_mem (h : TimeInv L oneMs s) (hcpu : cpu < ncpu) {newState : Procstate}
    (hy : s.sys.Yields L cpu newState) : s.sys.sched.thisproc cpu ∈ L.procs := by
  refine (h.inv.cpus.this cpu hcpu (by simp)).2.resolve_right fun heq => ?_
  have := hy.1
  rw [heq, L.idle_idle] at this
  cases this

/-- The time since the process on the CPU was started -/
theorem delta (h : TimeInv L oneMs s) (hunit : ∀ g, L.conToWeight g = 1) (hcpu : cpu < ncpu)
    {now : UInt64} (hnow : s.timestamp ≤ now) (hthis : s.sys.sched.thisproc cpu ∈ L.procs) :
    s.sys.sched.deltaTime L (s.sys.sched.thisproc cpu) (getTimestampMs oneMs now) =
        getTimestampMs oneMs now - s.since (s.sys.sched.thisproc cpu) ∧
      (getTimestampMs oneMs now - s.since (s.sys.sched.thisproc cpu)).toNat =
        (getTimestampMs oneMs now).toNat - (s.since (s.sys.sched.thisproc cpu)).toNat ∧
      (s.since (s.sys.sched.thisproc cpu)).toNat ≤ (getTimestampMs oneMs now).toNat := by
  have hrun := (h.inv.cpus.this cpu hcpu (by simp)).1
  have hle := (h.since_le cpu hcpu).trans (getTimestampMs_mono oneMs hnow)
  refine ⟨?_, UInt64.toNat_sub_of_le _ _ (UInt64.le_iff_toNat_le.mpr hle), hle⟩
  rw [Sched.deltaTime, hunit, h.startTime _ hthis hrun, UInt64.mul_one, UInt64.div_one]

/-- **The vruntimes after a call**, and what the CPUs have charged by then -/
theorem busy_after (h : TimeInv L oneMs s) (hunit : ∀ g, L.conToWeight g = 1) (hcpu : cpu < ncpu)
    (newState : Procstate) {now : UInt64} (later : UInt64) (hnow : s.timestamp ≤ now) :
    ∃ busy : ℕ → ℕ, busy cpu ≤ (getTimestampMs oneMs now).toNat ∧
      (∀ i < ncpu, i ≠ cpu → busy i ≤ (s.since (s.sys.sched.thisproc i)).toNat) ∧
      ∀ n, (s.sys.vruntimeAfter L (.simpleSched cpu newState (getTimestampMs oneMs now) later) n).toNat
        ≤ ∑ i ∈ Finset.range ncpu, busy i := by
  obtain ⟨busy, hbusy, hle⟩ := h.busy
  have hsince := (h.since_le cpu hcpu).trans (getTimestampMs_mono oneMs hnow)
  rw [SchedSys.vruntimeAfter]
  by_cases hy : s.sys.Yields L cpu newState
  · obtain ⟨hdelta, hsub, -⟩ := h.delta hunit hcpu hnow (h.this_mem hcpu hy)
    have hb := hbusy cpu hcpu
    refine ⟨Function.update busy cpu (busy cpu + ((getTimestampMs oneMs now).toNat -
      (s.since (s.sys.sched.thisproc cpu)).toNat)), ?_, fun i hi hne => ?_, fun n => ?_⟩
    · rw [Function.update_self]
      omega
    · rw [Function.update_of_ne hne]
      exact hbusy i hi
    · rw [sum_busy_add hcpu, ← hsub]
      simp only [if_pos hy, hdelta]
      have hn := hle n
      rw [charged]
      split
      · have := Nat.mod_le ((s.sys.sched.vruntime n).toNat +
          (getTimestampMs oneMs now - s.since (s.sys.sched.thisproc cpu)).toNat) (2 ^ 64)
        rw [UInt64.toNat_add]
        omega
      · omega
  · refine ⟨busy, (hbusy cpu hcpu).trans hsince, fun i hi _ => hbusy i hi, fun n => ?_⟩
    simp only [if_neg hy]
    exact hle n

theorem vruntime_lt (h : TimeInv L oneMs s) (hms : 8 ≤ oneMs) (n : ℕ) :
    (s.sys.sched.vruntime n).toNat < 2 ^ 63 := by
  obtain ⟨busy, hbusy, hle⟩ := h.busy
  refine (hle n).trans_lt (sum_busy_lt fun i hi => ?_)
  exact ((hbusy i hi).trans (h.since_le i hi)).trans_lt (getTimestampMs_lt hms _)

/-- **The vruntimes lie in a window.** -/
theorem ok {op : SchedOp} (h : TimeInv L oneMs s) (hms : 8 ≤ oneMs)
    (hunit : ∀ g, L.conToWeight g = 1) (hen : s.Enabled L op) :
    s.sys.Ok L (TimeSys.inMs oneMs op) := by
  have hsmall : ∀ n, (s.sys.sched.vruntime n - 0).toNat < 2 ^ 63 := by
    intro n
    rw [UInt64.sub_zero]
    exact h.vruntime_lt hms n
  cases op with
  | simpleSched cpu newState now later =>
      refine ⟨hen.1, 0, fun n _ => ?_⟩
      obtain ⟨busy, hcpu, hbusy, hle⟩ := h.busy_after hunit hen.1.1 newState
        (getTimestampMs oneMs later) hen.2.1
      rw [UInt64.sub_zero]
      refine (hle n).trans_lt (sum_busy_lt fun i hi => ?_)
      by_cases hi' : i = cpu
      · rw [hi']
        exact hcpu.trans_lt (getTimestampMs_lt hms _)
      · exact ((hbusy i hi hi').trans (h.since_le i hi)).trans_lt (getTimestampMs_lt hms _)
  | activateProc p onalert => exact ⟨hen.1, 0, fun n _ => hsmall n⟩
  | activateGroup g => exact ⟨hen.1, 0, fun n _ => hsmall n⟩
  | kill p => exact ⟨hen.1, 0, fun n _ => hsmall n⟩
  | panic => exact ⟨hen.1, 0, fun n _ => hsmall n⟩

/-- **A process that yields is charged with the time since it was started.** -/
theorem vruntimeAfter_this (h : TimeInv L oneMs s) (hms : 8 ≤ oneMs)
    (hunit : ∀ g, L.conToWeight g = 1) (hcpu : cpu < ncpu) {newState : Procstate}
    {now later : UInt64} (hy : s.sys.Yields L cpu newState) (hnow : s.timestamp ≤ now) :
    (s.sys.vruntimeAfter L (.simpleSched cpu newState (getTimestampMs oneMs now) later)
        (s.sys.sched.thisproc cpu)).toNat =
      (s.sys.sched.vruntime (s.sys.sched.thisproc cpu)).toNat +
        ((getTimestampMs oneMs now).toNat - (s.since (s.sys.sched.thisproc cpu)).toNat) := by
  obtain ⟨hdelta, hsub, -⟩ := h.delta hunit hcpu hnow (h.this_mem hcpu hy)
  have hv := h.vruntime_lt hms (s.sys.sched.thisproc cpu)
  have hlt := getTimestampMs_lt hms now
  rw [SchedSys.vruntimeAfter]
  simp only [if_pos hy, hdelta]
  rw [charged, if_pos (by simp), UInt64.toNat_add, hsub]
  exact Nat.mod_eq_of_lt (by omega)

/-- The other processes are not charged. -/
theorem vruntimeAfter_of_ne (h : TimeInv L oneMs s) (hcpu : cpu < ncpu) {newState : Procstate}
    {now later : UInt64} {p : ℕ} (hp : p ∈ L.procs)
    (hne : ¬(s.sys.Yields L cpu newState ∧ p = s.sys.sched.thisproc cpu)) :
    s.sys.vruntimeAfter L (.simpleSched cpu newState now later) p = s.sys.sched.vruntime p := by
  rw [SchedSys.vruntimeAfter]
  by_cases hy : s.sys.Yields L cpu newState
  · have hcont := L.container_mem _ (h.this_mem hcpu hy)
    have hnot : p ∉ L.ancestors (L.container (s.sys.sched.thisproc cpu)) := fun hin =>
      SchedLayout.not_proc (SchedLayout.mem_path hcont hin).1 hp
    have hpt : p ≠ s.sys.sched.thisproc cpu := fun heq => hne ⟨hy, heq⟩
    simp only [if_pos hy]
    exact charged_of_notMem (by simp [hpt, hnot])
  · simp only [if_neg hy]

/-- A call that does not switch -/
theorem congr (h : TimeInv L oneMs s) {sys : SchedSys} (hinv : SchedInv L sys)
    (hv : sys.sched.vruntime = s.sys.sched.vruntime)
    (hthis : sys.sched.thisproc = s.sys.sched.thisproc)
    (hstart : sys.sched.startTime = s.sys.sched.startTime)
    (hrun : ∀ p, sys.sched.state p = .running → s.sys.sched.state p = .running) :
    TimeInv L oneMs { s with sys := sys } where
  inv := hinv
  startTime p hp hst := by
    change sys.sched.startTime p = _
    rw [hstart]
    exact h.startTime p hp (hrun p hst)
  since_le i hi := by
    change (s.since (sys.sched.thisproc i)).toNat ≤ _
    rw [hthis]
    exact h.since_le i hi
  ran p hp := by
    change (sys.sched.vruntime p).toNat = _
    rw [hv]
    exact h.ran p hp
  busy := by
    simp only [hv, hthis]
    exact h.busy

/-- A process that is on the CPU before and after the switch yields. -/
theorem yields_of_self {newState : Procstate} {now later : UInt64} {sched : Sched}
    (hkilled : ¬(s.sys.sched.killed (s.sys.sched.thisproc cpu) = true ∧ newState ≠ .zombie))
    (hsw : Switched L s.sys cpu newState now later next sched) (hp : next ∈ L.procs)
    (hself : next = s.sys.sched.thisproc cpu) :
    s.sys.Yields L cpu newState ∧ s.sys.sched.panicFlag = false := by
  obtain hidle | ⟨-, s₁, t, hup, -, hst, -⟩ := hsw.next
  · exact absurd hidle (proc_ne_idle hp cpu)
  rw [hup.state, hself, Function.update_self] at hst
  subst hst
  refine ⟨⟨hself ▸ L.proc_idle next hp, by simpa using hkilled, rfl⟩, ?_⟩
  by_contra hpanic
  exact proc_ne_idle hp cpu (hsw.panic (by simpa using hpanic))

/-- **`simple_sched` keeps the invariant.** -/
theorem switch (h : TimeInv L oneMs s) (hms : 8 ≤ oneMs) (hunit : ∀ g, L.conToWeight g = 1)
    {newState : Procstate} {now later : UInt64}
    (hen : s.Enabled L (.simpleSched cpu newState now later))
    (hov : s.HandsOver L oneMs (.simpleSched cpu newState now later))
    (hkilled : ¬(s.sys.sched.killed (s.sys.sched.thisproc cpu) = true ∧ newState ≠ .zombie))
    {sched : Sched} (hinv : SchedInv L { s.sys with sched := sched })
    (hsw : Switched L s.sys cpu newState (getTimestampMs oneMs now) (getTimestampMs oneMs later)
      next sched) :
    TimeInv L oneMs
      { sys := { s.sys with sched := sched }
        timestamp := later
        since := Function.update s.since next (getTimestampMs oneMs later)
        ran :=
          if newState = .runnable then
            Function.update s.ran (s.sys.sched.thisproc cpu)
              (s.ran (s.sys.sched.thisproc cpu) + ((getTimestampMs oneMs now).toNat -
                (s.since (s.sys.sched.thisproc cpu)).toNat))
          else s.ran } := by
  obtain ⟨⟨hcpu, -, hne, -⟩, hnow, hlater⟩ := id hen
  obtain ⟨hrun, hcase⟩ := h.inv.cpus.this cpu hcpu (by simp)
  have hthisproc : ∀ i, (i = cpu ∧ sched.thisproc i = next) ∨
      (i ≠ cpu ∧ sched.thisproc i = s.sys.sched.thisproc i) := by
    intro i
    rw [hsw.thisproc]
    by_cases hi : i = cpu
    · subst hi
      exact .inl ⟨rfl, Function.update_self ..⟩
    · exact .inr ⟨hi, Function.update_of_ne hi ..⟩
  have hlt := getTimestampMs_mono oneMs hlater
  have hlt₀ := getTimestampMs_mono oneMs hnow
  refine ⟨hinv, fun p hp hst => ?_, fun i hi => ?_, fun p hp => ?_, ?_⟩
  · change sched.startTime p = Function.update s.since next (getTimestampMs oneMs later) p
    change sched.state p = .running at hst
    by_cases hpn : p = next
    · subst hpn
      rw [Function.update_self, hsw.startTime]
      split
      · -- the process is picked again: it has not been overtaken
        rename_i hself
        obtain ⟨hy, hpanic⟩ := yields_of_self hkilled hsw hp hself
        rcases hov hy with hflag | heq | hover
        · rw [hpanic] at hflag
          cases hflag
        · rw [heq, hself]
        · obtain ⟨-, base, hw⟩ := h.ok hms hunit hen
          exact absurd hself (hsw.ne_of_overtaken h.inv hcpu hy hw hover)
      · exact Function.update_self ..
    · have hpt : p ≠ s.sys.sched.thisproc cpu := by
        rintro rfl
        rw [hsw.state, Function.update_of_ne hpn, Function.update_self] at hst
        exact hne hst
      rw [hsw.state, Function.update_of_ne hpn, Function.update_of_ne hpt] at hst
      rw [Function.update_of_ne hpn, hsw.startTime, ← h.startTime p hp hst]
      split
      · rfl
      · exact Function.update_of_ne hpn ..
  · change (Function.update s.since next (getTimestampMs oneMs later) (sched.thisproc i)).toNat ≤ _
    by_cases hin : sched.thisproc i = next
    · rw [hin, Function.update_self]
    · rw [Function.update_of_ne hin]
      rcases hthisproc i with ⟨-, heq⟩ | ⟨-, heq⟩
      · exact absurd heq hin
      · rw [heq]
        exact ((h.since_le i hi).trans hlt₀).trans hlt
  · change (sched.vruntime p).toNat = _
    rw [hsw.vruntime]
    by_cases hpt : s.sys.Yields L cpu newState ∧ p = s.sys.sched.thisproc cpu
    · obtain ⟨hy, rfl⟩ := hpt
      rw [h.vruntimeAfter_this hms hunit hcpu hy hnow, h.ran _ hp]
      simp only [if_pos hy.2.2, Function.update_self]
    · rw [h.vruntimeAfter_of_ne hcpu hp hpt, h.ran p hp]
      simp only
      split
      · rename_i hst
        refine (Function.update_of_ne ?_ ..).symm
        rintro rfl
        exact hpt ⟨⟨L.proc_idle _ hp, by simpa [hst] using hkilled, hst⟩, rfl⟩
      · rfl
  · obtain ⟨busy, hbcpu, hbusy, hle⟩ := h.busy_after hunit hcpu newState
      (getTimestampMs oneMs later) hnow
    refine ⟨busy, fun i hi => ?_, fun n => ?_⟩
    · change _ ≤ (Function.update s.since next (getTimestampMs oneMs later) (sched.thisproc i)).toNat
      rcases hthisproc i with ⟨rfl, heq⟩ | ⟨hic, heq⟩
      · rw [heq, Function.update_self]
        exact hbcpu.trans hlt
      · by_cases hin : sched.thisproc i = next
        · rw [hin, Function.update_self]
          exact (hbusy i hi hic).trans (((h.since_le i hi).trans hlt₀).trans hlt)
        · rw [Function.update_of_ne hin, heq]
          exact hbusy i hi hic
    · change (sched.vruntime n).toNat ≤ _
      rw [hsw.vruntime]
      exact hle n

/-- **Every call keeps the invariant, if a process that yields is overtaken.** -/
theorem step (h : TimeInv L oneMs s) (hms : 8 ≤ oneMs) (hunit : ∀ g, L.conToWeight g = 1)
    {op : SchedOp} (hen : s.Enabled L op) (hov : s.HandsOver L oneMs op)
    (hstep : s.step L oneMs op = some s') : TimeInv L oneMs s' := by
  have hok := h.ok hms hunit hen
  obtain ⟨sys, hexec, hinv⟩ := h.inv.step hok
  simp only [TimeSys.step, hexec, Option.map_some, Option.some.injEq] at hstep
  cases op with
  | simpleSched cpu newState now later =>
      obtain ⟨⟨hcpu, -, hne, hidle⟩, hnow, hlater⟩ := id hen
      by_cases hkilled : s.sys.sched.killed (s.sys.sched.thisproc cpu) = true ∧ newState ≠ .zombie
      · simp only [if_pos hkilled] at hstep
        subst hstep
        refine ⟨h.inv, h.startTime, fun i hi => (h.since_le i hi).trans ?_, h.ran, h.busy⟩
        exact getTimestampMs_mono oneMs (UInt64.le_trans hnow hlater)
      · obtain ⟨-, base, hw⟩ := hok
        obtain ⟨next, sched, hexec', hsw, hinv'⟩ := h.inv.simpleSched hcpu hne hidle hkilled hw
        simp only [TimeSys.inMs, SchedSys.step, hexec', Option.map_some, Option.some.injEq] at hexec
        subst hexec
        have hnext : sched.thisproc cpu = next := by rw [hsw.thisproc, Function.update_self]
        simp only [if_neg hkilled, hnext] at hstep
        subst hstep
        exact h.switch hms hunit hen hov hkilled hinv' hsw
  | activateProc p onalert =>
      simp only [TimeSys.inMs, SchedSys.step, Option.map_eq_some_iff] at hexec
      obtain ⟨r, hact, rfl⟩ := hexec
      subst hstep
      rcases Sched.activateProc_eq hact with heq | ⟨hne, heq⟩
      · exact h.congr hinv (by rw [heq]) (by rw [heq]) (by rw [heq]) (by rw [heq]; exact fun _ => id)
      · refine h.congr hinv (by rw [heq]) (by rw [heq]) (by rw [heq]) fun q hq => ?_
        rw [heq] at hq
        by_cases hqp : q = p
        · rw [hqp] at hq
          simp at hq
        · simpa [hqp] using hq
  | activateGroup g =>
      simp only [TimeSys.inMs, SchedSys.step, Option.map_eq_some_iff] at hexec
      obtain ⟨sched, hact, rfl⟩ := hexec
      subst hstep
      have heq := Sched.activateGroup_eq hact
      exact h.congr hinv (by rw [heq]) (by rw [heq]) (by rw [heq]) (by rw [heq]; exact fun _ => id)
  | kill p =>
      cases hexec
      subst hstep
      exact h.congr hinv rfl rfl rfl fun _ => id
  | panic =>
      cases hexec
      subst hstep
      exact h.congr hinv rfl rfl rfl fun _ => id

end TimeInv

/-! ## The results -/

def TimeSys.init (L : SchedLayout) : TimeSys := ⟨SchedSys.init L, 0, fun _ => 0, fun _ => 0⟩

theorem TimeSys.init_start (L : SchedLayout) : (TimeSys.init L).Start L :=
  ⟨SchedSys.init_start L, fun _ => rfl, fun _ => rfl⟩

theorem nestedGroup_yield (s : TimeSys) (now later : UInt64) (hnow : s.timestamp ≤ now)
    (hlater : now ≤ later) :
    s.Enabled nestedGroup (.simpleSched 0 .runnable now later) :=
  ⟨⟨by decide, by decide, by decide, fun _ => rfl⟩, hnow, hlater⟩

/-- **Where each process that yields is overtaken, the vruntime of a process is the length of its
runs that a yield has ended**, and each yield adds the time since the process was last started. -/
theorem vruntime_of_overtaken (hms : 8 ≤ oneMs) (hunit : ∀ g, L.conToWeight g = 1)
    (h₀ : s₀.Start L)
    (h : Reach (TimeSys.step L oneMs) (fun s op => s.Enabled L op ∧ s.HandsOver L oneMs op) s₀ s) :
    (∀ p ∈ L.procs, (s.sys.sched.vruntime p).toNat = s.ran p) ∧
      ∀ cpu newState now later s', s.Enabled L (.simpleSched cpu newState now later) →
        s.step L oneMs (.simpleSched cpu newState now later) = some s' →
        s.sys.Yields L cpu newState →
        (s'.sys.sched.vruntime (s.sys.sched.thisproc cpu)).toNat =
          (s.sys.sched.vruntime (s.sys.sched.thisproc cpu)).toNat +
            ((getTimestampMs oneMs now).toNat - (s.since (s.sys.sched.thisproc cpu)).toNat) := by
  have hinv : TimeInv L oneMs s := h.invariant h₀.inv fun s op s' hs hok hstep =>
    hs.step hms hunit hok.1 hok.2 hstep
  refine ⟨hinv.ran, fun cpu newState now later s' hen hstep hy => ?_⟩
  obtain ⟨⟨hcpu, -, hne, hidle⟩, hnow, -⟩ := id hen
  obtain ⟨-, base, hw⟩ := hinv.ok hms hunit hen
  have hkilled : ¬(s.sys.sched.killed (s.sys.sched.thisproc cpu) = true ∧ newState ≠ .zombie) := by
    rw [hy.2.1]
    simp
  obtain ⟨next, sched, hexec, hsw, -⟩ := hinv.inv.simpleSched hcpu hne hidle hkilled hw
  simp only [TimeSys.step, TimeSys.inMs, SchedSys.step, hexec, Option.map_some, if_neg hkilled,
    Option.some.injEq] at hstep
  subst hstep
  rw [← hinv.vruntimeAfter_this hms hunit hcpu hy hnow, ← hsw.vruntime]

/-- The process 8 yields to the container, after 5 milliseconds. -/
theorem vruntime_of_overtaken_nested : ∃ s : TimeSys, s.ran 8 = 5 ∧
    (∀ p ∈ nestedGroup.procs, (s.sys.sched.vruntime p).toNat = s.ran p) ∧
      ∀ cpu newState now later s', s.Enabled nestedGroup (.simpleSched cpu newState now later) →
        s.step nestedGroup 1000 (.simpleSched cpu newState now later) = some s' →
        s.sys.Yields nestedGroup cpu newState →
        (s'.sys.sched.vruntime (s.sys.sched.thisproc cpu)).toNat =
          (s.sys.sched.vruntime (s.sys.sched.thisproc cpu)).toNat +
            ((getTimestampMs 1000 now).toNat - (s.since (s.sys.sched.thisproc cpu)).toNat) := by
  have hgroup : (TimeSys.init nestedGroup).Enabled nestedGroup (.activateGroup 40) :=
    ⟨⟨by decide, by decide, fun h => h⟩, trivial⟩
  have hproc : ∀ s : TimeSys, ∀ p ∈ nestedGroup.procs,
      s.Enabled nestedGroup (.activateProc p false) := fun _ _ hp => ⟨hp, trivial⟩
  refine ⟨_, ?_, vruntime_of_overtaken (by decide) (fun _ => rfl) (TimeSys.init_start nestedGroup)
    (.step (.step (.step (.step (.step .init ⟨hgroup, trivial⟩ rfl)
      ⟨hproc _ 8 (.inl rfl), trivial⟩ rfl) ⟨hproc _ 16 (.inr rfl), trivial⟩ rfl)
      ⟨nestedGroup_yield _ 0 0 (by decide) (by decide), fun hy => absurd hy.1 (by decide)⟩ rfl)
      ⟨nestedGroup_yield _ 5000 5000 (by decide) (by decide), fun _ => .inr (.inr
        ⟨8, .head _, 40, by decide, rfl, ?_, rfl⟩)⟩ rfl)⟩
  · rfl
  · exact Leads.group (m := 16) (.inl rfl) (.proc (.inr rfl) rfl)

/-- **A process that is picked again is charged twice**: one process runs alone, from 0 to 5 and
from 5 to 8, and is charged with 13. -/
theorem selfPick_overcharged : ¬∀ s : TimeSys,
    Reach (TimeSys.step nestedGroup 1000) (TimeSys.Enabled nestedGroup)
      (TimeSys.init nestedGroup) s →
    ∀ p ∈ nestedGroup.procs, (s.sys.sched.vruntime p).toNat = s.ran p := by
  intro h
  have hproc : (TimeSys.init nestedGroup).Enabled nestedGroup (.activateProc 8 false) :=
    ⟨.inl rfl, trivial⟩
  have hrun := h _ (.step (.step (.step (.step .init hproc rfl)
    (nestedGroup_yield _ 0 0 (by decide) (by decide)) rfl)
    (nestedGroup_yield _ 5000 5000 (by decide) (by decide)) rfl)
    (nestedGroup_yield _ 8000 8000 (by decide) (by decide)) rfl) 8 (.inl rfl)
  exact absurd hrun (by decide : (13 : ℕ) ≠ 8)

end OsLab
