import OsLab.Kernel.SchedInv

/-!
# What holds between the calls of the scheduler

The results about the queues, over every run, and about the search of `pick_next`.

## Main definitions

* `SchedQueues` — the queues, the states of the processes and the CPUs agree.
* `sched_queues` — they do in every state that is reached.
* `pick_next_correct` — the process that `pick_next` finds.
* `nestedGroup` — a container in the root container, with a process in each.
-/

namespace OsLab

open RbTree

/-! ## A container in the root container -/

/-- The process 8 is in the root container 32, the process 16 in the container 40. -/
def nestedGroup : SchedLayout where
  procs := {8, 16}
  containers := [32, 40]
  rootContainer := 32
  parent g := if g = 40 then 32 else 0
  container p := if p = 16 then 40 else 32
  group n := decide (32 ≤ n ∧ n < 48)
  idle n := decide (48 ≤ n)
  idleOf i := 48 + i
  conToWeight _ := 1
  depth g := if g = 40 then 1 else 0
  height := 1
  root_mem := by simp
  root_parent := rfl
  parent_mem := by simp
  depth_parent := by simp
  depth_le := by simp
  container_mem := by simp
  container_node g hg := by
    have : g = 32 ∨ g = 40 := by simpa using hg
    constructor <;> omega
  proc_node p hp := by
    have : p = 8 ∨ p = 16 := hp
    constructor <;> omega
  container_group := by simp
  proc_group := by simp
  proc_idle := by simp
  idle_idle := by simp
  idle_inj := by simp

/-- The state after the initialisation -/
def SchedSys.init (L : SchedLayout) : SchedSys where
  sched :=
    { rq := ⟨fun _ => ⟨0, 0, 0⟩, fun _ => 0⟩
      nodeCnt := fun _ => 0
      vruntime := fun _ => 0
      startTime := fun _ => 0
      skip := fun _ => false
      state := fun n => if ∃ i < ncpu, n = L.idleOf i then .running else .unused
      killed := fun _ => false
      thisproc := L.idleOf
      panicFlag := false }
  activated := ∅

theorem SchedSys.init_start (L : SchedLayout) : (SchedSys.init L).Start L where
  root _ := rfl
  nodeCnt _ := rfl
  vruntime _ := rfl
  skip _ := rfl
  unused _ hn := if_neg fun ⟨i, hi, heq⟩ => hn i hi heq
  thisproc _ := rfl
  running i hi := if_pos ⟨i, hi, rfl⟩
  activated := rfl

/-- Where no vruntime has come to `2^63`, they are in a window. -/
theorem SchedSys.ok_of_lt {L : SchedLayout} {s : SchedSys} {op : SchedOp} (hen : s.Enabled L op)
    (hlt : ∀ n, (s.vruntimeAfter L op n).toNat < 2 ^ 63) : s.Ok L op := by
  refine ⟨hen, 0, fun n _ => ?_⟩
  rw [UInt64.sub_zero]
  exact hlt n

/-- Both processes and the container 40 are activated, and CPU 0 goes from its idle process to the
process 8. -/
def nestedOps : List SchedOp :=
  [.activateProc 8 false, .activateGroup 40, .activateProc 16 false, .simpleSched 0 .runnable 0 0]

theorem nestedGroup_reached {s : SchedSys}
    (h : runs (SchedSys.step nestedGroup) (SchedSys.init nestedGroup) nestedOps = some s) :
    Reach (SchedSys.step nestedGroup) (SchedSys.Ok nestedGroup) (SchedSys.init nestedGroup) s := by
  have hzero : ∀ _ : ℕ, (0 : UInt64).toNat < 2 ^ 63 := fun _ => by decide
  cases h
  refine .step (i := .simpleSched 0 .runnable 0 0) (.step (i := .activateProc 16 false)
    (.step (i := .activateGroup 40) (.step (i := .activateProc 8 false) .init ?_ rfl) ?_ rfl)
    ?_ rfl) ?_ rfl
  · exact SchedSys.ok_of_lt (.inl rfl) hzero
  · exact SchedSys.ok_of_lt ⟨by decide, by decide, fun h => h⟩ hzero
  · exact SchedSys.ok_of_lt (.inr rfl) hzero
  · exact SchedSys.ok_of_lt ⟨by decide, by decide, by decide, fun _ => rfl⟩ hzero

/-! ## The queues -/

/-- **The queues, the states of the processes and the CPUs agree.** -/
structure SchedQueues (L : SchedLayout) (s : SchedSys) (t : ℕ → RbTree ℕ) : Prop where
  holds : ∀ g, HoldsTree (s.sched.rq.mem g) (t g)
  runnable : ∀ p ∈ L.procs,
    s.sched.state p = .runnable ↔ (t (L.container p)).toList.count p = 1
  elsewhere : ∀ p ∈ L.procs, ∀ g, g ≠ L.container p → p ∉ (t g).toList
  running : ∀ p ∈ L.procs,
    s.sched.state p = .running ↔ ∃! cpu, cpu < ncpu ∧ s.sched.thisproc cpu = p
  activated : ∀ g ∈ s.activated, (t (L.parent g)).toList.count g = 1
  nodeCnt : ∀ g, s.sched.nodeCnt g = (t g).toList.length
  sorted : ∀ g, (t g).toList.Pairwise fun a b => schedCmp s.sched.vruntime a b = true

variable {L : SchedLayout} {s s₀ : SchedSys} {t : ℕ → RbTree ℕ}

theorem CpusOk.running_iff (h : CpusOk L s none) {p : ℕ} (hp : p ∈ L.procs) :
    s.sched.state p = .running ↔ ∃! cpu, cpu < ncpu ∧ s.sched.thisproc cpu = p := by
  constructor
  · intro hrun
    obtain ⟨cpu, hcpu, -, hthis⟩ := h.running p hp hrun
    refine ⟨cpu, ⟨hcpu, hthis⟩, fun i hi => ?_⟩
    exact h.inj i hi.1 cpu hcpu (by simp) (by simp) (hi.2.trans hthis.symm)
  · intro ⟨cpu, ⟨hcpu, hthis⟩, _⟩
    rw [← hthis]
    exact (h.this cpu hcpu (by simp)).1

theorem SchedInv.queues (h : SchedInv L s) : ∃ t, SchedQueues L s t := by
  obtain ⟨t, hq⟩ := h.queued
  have hcount : ∀ n g, n ∈ (t g).toList ↔ (t g).toList.count n = 1 := by
    intro n g
    have := List.nodup_iff_count_le_one.mp (hq.planted.nodup g) n
    rw [← List.count_pos_iff]
    omega
  refine ⟨t, hq.planted.holds, fun p hp => ?_, fun p hp g hg hin => ?_,
    fun p hp => h.cpus.running_iff hp, fun g hg => ?_, hq.count, hq.planted.sorted⟩
  · rw [← hcount, hq.planted.mem, SchedLayout.home_proc hp]
    have hnot := proc_notMem_activated h hp
    simp [SchedSys.linked, hp, hnot]
  · have hhome := (hq.mem_home hin).2
    rw [SchedLayout.home_proc hp] at hhome
    exact hg hhome.symm
  · rw [← hcount, hq.planted.mem]
    exact ⟨.inr hg, (SchedLayout.home_container (h.activated g hg).1).symm⟩

/-- **In every state that is reached the queues agree with the states and the CPUs**, and no
assertion fails in the next call. -/
theorem sched_queues (h₀ : s₀.Start L) (h : Reach (SchedSys.step L) (SchedSys.Ok L) s₀ s) :
    (∃ t, SchedQueues L s t) ∧ ∀ op, s.Ok L op → ∃ s', s.step L op = some s' := by
  have hinv := SchedInv.of_reach h₀ h
  refine ⟨hinv.queues, fun op hok => ?_⟩
  obtain ⟨s', hexec, -⟩ := hinv.step hok
  exact ⟨s', hexec⟩

/-- The process 8 yields after 10 milliseconds: it is behind the container, whose process runs. -/
theorem sched_queues_nested : ∃ s : SchedSys, s.sched.thisproc 0 = 16 ∧
    s.sched.state 8 = .runnable ∧ s.sched.vruntime 8 = 10 ∧ s.sched.nodeCnt 32 = 2 ∧
    40 ∈ s.activated ∧ (∃ t, SchedQueues nestedGroup s t) ∧
      ∀ op, s.Ok nestedGroup op → ∃ s', s.step nestedGroup op = some s' := by
  refine ⟨_, ?_, ?_, ?_, ?_, ?_, sched_queues (SchedSys.init_start nestedGroup)
    (.step (nestedGroup_reached rfl) (i := .simpleSched 0 .runnable 10 10) ?_ rfl)⟩
  · rfl
  · rfl
  · rfl
  · rfl
  · exact .inl rfl
  · refine SchedSys.ok_of_lt ⟨by decide, by decide, by decide, fun _ => rfl⟩ fun n => ?_
    change (charged (fun _ => 0) 10 [8] n).toNat < 2 ^ 63
    rw [charged]
    split <;> decide

/-! ## The search -/

/-- What `pick_next` comes to with the process `p`: it is gone from its queue, and counted off. -/
structure TakenOut (L : SchedLayout) (s : Sched) (t : ℕ → RbTree ℕ) (p : ℕ) (s' : Sched) :
    Prop where
  holds : ∀ g, g ≠ L.container p → HoldsTree (s'.rq.mem g) (t g)
  list : ∃ u, HoldsTree (s'.rq.mem (L.container p)) u ∧
    u.toList = (t (L.container p)).toList.erase p
  nodeCnt : s'.nodeCnt =
    Function.update s.nodeCnt (L.container p) (s.nodeCnt (L.container p) - 1)
  rest : s' = { s with rq := s'.rq, nodeCnt := s'.nodeCnt }

/-- **`pick_next` finds the least process of the least container, down from the root**, if a
process can be reached through queued containers, else the idle process. -/
theorem pick_next_correct (cpu : ℕ) (hq : Queued L s.sched (s.linked L) t)
    (hskip : ∀ n, s.sched.skip n = false) (hpanic : s.sched.panicFlag = false) :
    ∃ next s', s.sched.pickNext L cpu = some (next, s') ∧ (∀ n, s'.skip n = false) ∧
      ((∃ p ∈ L.procs, Under L t L.rootContainer p) →
        WayDown L t (schedCmp s.sched.vruntime) L.rootContainer next ∧ next ∈ L.procs ∧
          TakenOut L s.sched t next s') ∧
      ((¬∃ p ∈ L.procs, Under L t L.rootContainer p) → next = L.idleOf cpu ∧ s' = s.sched) := by
  obtain ⟨next, s', hexec, hpicked, hskip'⟩ := pickNext_spec cpu hq hskip hpanic
  have hskipeq : s'.skip = s.sched.skip := by
    ext n
    rw [hskip, hskip']
  have hiff : (∃ p ∈ L.procs, Under L t L.rootContainer p) ↔ HasProc L t L.rootContainer := by
    constructor
    · intro ⟨p, hp, hunder⟩
      exact ⟨p, hunder, L.proc_group p hp⟩
    · intro ⟨p, hunder, hgroup⟩
      exact ⟨p, (hq.proc_of_under hunder hgroup).1, hunder⟩
  rw [hiff]
  refine ⟨next, s', hexec, hskip', fun hhas => ?_, fun hno => ?_⟩
  · cases hpicked with
    | idle hno _ => exact absurd hhas hno
    | proc u hway hrem =>
        have hp := (hq.proc_of_under hway.under.1 hway.under.2).1
        have hholds := hrem.planted.holds
        refine ⟨hway, hp, fun g hg => ?_, ⟨u, ?_, hrem.list⟩, hrem.count, ?_⟩
        · have := hholds g
          rwa [Function.update_of_ne hg] at this
        · have := hholds (L.container next)
          rwa [Function.update_self] at this
        · have := hrem.eq
          rwa [hskipeq] at this
  · cases hpicked with
    | proc u hway _ => exact absurd hway.hasProc hno
    | idle _ heq =>
        rw [hskipeq] at heq
        exact ⟨rfl, heq⟩

/-- While process 8 runs, `pick_next` finds process 16 in the container. -/
theorem pick_next_correct_nested : ∃ (s : SchedSys) (t : ℕ → RbTree ℕ) (s' : Sched),
    (t 32).toList = [40] ∧ (t 40).toList = [16] ∧
    s.sched.pickNext nestedGroup 1 = some (16, s') ∧ (∀ n, s'.skip n = false) ∧
      WayDown nestedGroup t (schedCmp s.sched.vruntime) 32 16 ∧
      TakenOut nestedGroup s.sched t 16 s' := by
  obtain ⟨s, hs, h8, h16, hact, hpanic, hnext⟩ : ∃ s : SchedSys,
      runs (SchedSys.step nestedGroup) (SchedSys.init nestedGroup) nestedOps = some s ∧
        s.sched.state 8 = .running ∧ s.sched.state 16 = .runnable ∧ s.activated = {40} ∧
        s.sched.panicFlag = false ∧
        (s.sched.pickNext nestedGroup 1).map Prod.fst = some 16 := by
    refine ⟨_, rfl, rfl, rfl, ?_, rfl, rfl⟩
    exact insert_empty_eq 40
  have hinv := SchedInv.of_reach (SchedSys.init_start nestedGroup) (nestedGroup_reached hs)
  obtain ⟨t, hq⟩ := hinv.queued
  -- only 16 and 40 are linked
  have hlinked : ∀ n, n ∈ s.linked nestedGroup ↔ n = 16 ∨ n = 40 := by
    intro n
    rw [SchedSys.linked, Set.mem_ofPred_eq, hact, Set.mem_singleton_iff]
    refine or_congr_left ⟨?_, ?_⟩
    · rintro ⟨rfl | rfl, hrun⟩
      · rw [h8] at hrun
        cases hrun
      · rfl
    · rintro rfl
      exact ⟨.inr rfl, h16⟩
  have h32 : (t 32).toList = [40] := by
    refine hq.planted.toList_singleton fun n => ?_
    rw [hlinked]
    constructor
    · rintro ⟨rfl | rfl, hhome⟩
      · cases hhome
      · rfl
    · rintro rfl
      exact ⟨.inr rfl, rfl⟩
  have h40 : (t 40).toList = [16] := by
    refine hq.planted.toList_singleton fun n => ?_
    rw [hlinked]
    constructor
    · rintro ⟨rfl | rfl, hhome⟩
      · rfl
      · cases hhome
    · rintro rfl
      exact ⟨.inl rfl, rfl⟩
  obtain ⟨next, s', hexec, hskip, hfound, -⟩ := pick_next_correct 1 hq hinv.skip hpanic
  have hnext' : next = 16 := by
    rw [hexec] at hnext
    exact Option.some.inj hnext
  subst hnext'
  have hunder : Under nestedGroup t 32 16 :=
    .deeper (c := 40) (by rw [h32]; exact List.mem_singleton.mpr rfl) rfl
      (.here (by rw [h40]; exact List.mem_singleton.mpr rfl))
  obtain ⟨hway, -, hout⟩ := hfound ⟨16, .inr rfl, hunder⟩
  exact ⟨s, t, s', h32, h40, hexec, hskip, hway, hout⟩

end OsLab
