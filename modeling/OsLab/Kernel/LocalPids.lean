import OsLab.Kernel.ExitWait
import Mathlib.Data.Set.Card

/-!
# Local pids

`start_proc` takes a local pid from the pool of the container of the process, and `wait` puts it
back into the pool of the container of the child, which the parent need not be in.  What is left
of a pool and the local pids in use are a permutation of all local pids, as long as a container
has no more than `PID_NUM` processes that are started and not reaped.

## Main definitions

* `PidPool.rest` — the pids that are left.
* `PidPool.Deals` — what is left and what is in use are a permutation of all pids.
* `ProcSys.startedIn` — the processes of a container that are started and not reaped.
* `localPids_unique` — local pids name one process of a container.
-/

namespace OsLab

/-! ## The pool -/

namespace PidPool

/-- `freelist[avail..PID_NUM)` -/
def rest (pool : PidPool) : List ℤ :=
  (List.range' pool.avail (pidNum - pool.avail)).map pool.freelist

/-- All pids -/
def all : List ℤ := (List.range pidNum).map fun i : ℕ => (i : ℤ)

/-- **What is left and what is in use are a permutation of all pids.** -/
structure Deals (pool : PidPool) (used : List ℤ) : Prop where
  avail_le : pool.avail ≤ pidNum
  perm : (pool.rest ++ used).Perm all

variable {pool : PidPool} {used : List ℤ} {pid : ℤ}

theorem Deals.avail (h : pool.Deals used) : pool.avail = used.length := by
  have hlen := h.perm.length_eq
  have hle := h.avail_le
  simp only [rest, all, List.length_append, List.length_map, List.length_range',
    List.length_range] at hlen
  omega

theorem init_deals (junk : ℕ → ℤ) : (init junk).Deals [] := by
  refine ⟨Nat.zero_le _, ?_⟩
  have heq : (init junk).rest = all := by
    simp only [rest, all, init, Nat.sub_zero, List.range_eq_range']
    refine List.map_congr_left fun i hi => if_pos ?_
    simpa using hi
  rw [heq, List.append_nil]

/-- **A pid is taken**, if there is one. -/
theorem Deals.take (h : pool.Deals used) (hroom : used.length < pidNum) :
    (pool.take).2.Deals ((pool.take).1 :: used) := by
  have havail := h.avail
  have hrest : pool.rest = (pool.take).1 :: (pool.take).2.rest := by
    have hn : pidNum - pool.avail = pidNum - (pool.avail + 1) + 1 := by omega
    rw [rest, hn, List.range'_succ]
    rfl
  refine ⟨?_, ?_⟩
  · change pool.avail + 1 ≤ pidNum
    omega
  · refine List.perm_middle.trans ?_
    have := h.perm
    rwa [hrest] at this

/-- **A pid is put back.** -/
theorem Deals.give (h : pool.Deals (pid :: used)) : (pool.give pid).Deals used := by
  have havail := h.avail
  have hle := h.avail_le
  rw [List.length_cons] at havail
  have hrest : (pool.give pid).rest = pid :: pool.rest := by
    have hn : pidNum - (pool.avail - 1) = pidNum - pool.avail + 1 := by omega
    have hsucc : pool.avail - 1 + 1 = pool.avail := by omega
    change (List.range' (pool.avail - 1) (pidNum - (pool.avail - 1))).map
      (Function.update pool.freelist (pool.avail - 1) pid) = _
    rw [hn, List.range'_succ, hsucc, List.map_cons, Function.update_self, rest]
    congr 1
    refine List.map_congr_left fun i hi => Function.update_of_ne ?_ ..
    rw [List.mem_range'_1] at hi
    omega
  refine ⟨?_, ?_⟩
  · change pool.avail - 1 ≤ pidNum
    omega
  · rw [hrest]
    exact List.perm_middle.symm.trans h.perm

end PidPool

/-! ## The processes of a container -/

namespace ProcSys

variable (s : ProcSys)

/-- The processes of the container `k` that are started and not reaped -/
def startedIn (k : ℕ) : Set ℕ :=
  { p | s.allocated p = true ∧ (s.proc p).state ≠ .unused ∧ (s.proc p).container = k }

/-- A container has at most `PID_NUM` such processes, and `kill` wakes up none that has not been
started. -/
def LocalRoom (i : ℕ × ProcAct) : Prop :=
  match i.2 with
  | .startProc c => (s.startedIn (s.proc c).container).ncard < pidNum
  | .alert => ∀ b born, s.phase i.1 = .alerting b born → (s.proc b).state ≠ .unused
  | _ => True

end ProcSys

/-- **The local pids in use are dealt from the pool of their container.** -/
def LocalPids (s : ProcSys) : Prop :=
  ∀ k < s.containers, ∃ l : List ℕ, l.Nodup ∧ (∀ p, p ∈ l ↔ p ∈ s.startedIn k) ∧
    (s.localPids k).Deals (l.map fun p => (s.proc p).localpid)

namespace LocalPids

variable {s s' : ProcSys} {kids : ℕ → List ℕ} {t c : ℕ}

theorem init (junk : ℕ → ℤ) : LocalPids (ProcSys.start junk) := by
  intro k hk
  have hk : k = 0 := Nat.lt_one_iff.mp hk
  subst hk
  refine ⟨[ProcSys.root], by simp, fun p => ?_, ?_⟩
  · simp [ProcSys.startedIn, ProcSys.start]
  · exact (PidPool.init_deals junk).take (by decide)

theorem congr (h : LocalPids s) (hcontainers : s'.containers = s.containers)
    (hpools : s'.localPids = s.localPids) (hstarted : ∀ k, s'.startedIn k = s.startedIn k)
    (hlpid : ∀ k, ∀ p ∈ s.startedIn k, (s'.proc p).localpid = (s.proc p).localpid) :
    LocalPids s' := by
  intro k hk
  obtain ⟨l, hnodup, hmem, hdeals⟩ := h k (hcontainers ▸ hk)
  refine ⟨l, hnodup, fun p => by rw [hmem, hstarted], ?_⟩
  have hmap : l.map (fun p => (s'.proc p).localpid) = l.map fun p => (s.proc p).localpid :=
    List.map_congr_left fun p hp => hlpid k p ((hmem p).mp hp)
  rw [hmap, hpools]
  exact hdeals

/-- Nobody is started or reaped, or gets another place. -/
theorem congr_proc (h : LocalPids s) (hcontainers : s'.containers = s.containers)
    (hpools : s'.localPids = s.localPids) (halloc : s'.allocated = s.allocated)
    (hproc : ∀ q, ((s'.proc q).state = .unused ↔ (s.proc q).state = .unused) ∧
      (s'.proc q).container = (s.proc q).container ∧
      (s'.proc q).localpid = (s.proc q).localpid) : LocalPids s' := by
  refine h.congr hcontainers hpools (fun k => ?_) fun k p _ => (hproc p).2.2
  ext q
  simp only [ProcSys.startedIn, Set.mem_ofPred_eq, halloc, (hproc q).2.1, ne_eq, (hproc q).1]

/-- One process changes, and keeps its place. -/
theorem congr_setProc (h : LocalPids s) {x : Proc} (hs' : s' = { s with
      proc := Function.update s.proc c x
      phase := s'.phase
      links := s'.links
      dying := s'.dying
      alerts := s'.alerts })
    (hstate : x.state = .unused ↔ (s.proc c).state = .unused)
    (hx : x.container = (s.proc c).container ∧ x.localpid = (s.proc c).localpid) :
    LocalPids s' := by
  refine h.congr_proc (by rw [hs']) (by rw [hs']) (by rw [hs']) fun q => ?_
  have hproc : s'.proc = Function.update s.proc c x := by rw [hs']
  rw [hproc]
  by_cases hq : q = c
  · subst hq
    rw [Function.update_self]
    exact ⟨hstate, hx⟩
  · rw [Function.update_of_ne hq]
    exact ⟨Iff.rfl, rfl, rfl⟩

theorem goesOn (h : LocalPids s) (hg : s.GoesOn t s') (hrun : (s.proc t).state = .runnable) :
    LocalPids s' := by
  obtain ⟨x, ph, rfl, hx, hstate⟩ := hg
  refine h.congr_setProc rfl ?_ ?_
  · rcases hstate with hst | hst
    · simp [hst, hrun]
    · simp [hst, hrun]
  · rw [hx]
    exact ⟨rfl, rfl⟩

theorem addChild (h : LocalPids s) (p : ℕ) : LocalPids (s.addChild p c) :=
  h.congr_setProc rfl Iff.rfl ⟨rfl, rfl⟩

theorem createProc (h : LocalPids s) {a : ℕ} (ha : s.allocated a = false) :
    LocalPids (s.createProc t a) := by
  have hstarted : ∀ k, (s.createProc t a).startedIn k = s.startedIn k := by
    intro k
    ext q
    by_cases hq : q = a
    · subst hq
      simp [ProcSys.startedIn, ProcSys.createProc, ha]
    · simp only [ProcSys.startedIn, Set.mem_ofPred_eq, ProcSys.createProc_proc_of_ne hq,
        ProcSys.createProc_allocated, or_iff_right hq]
  refine h.congr rfl rfl hstarted fun k q hq => ?_
  rw [ProcSys.createProc_proc_of_ne (ProcSys.ne_of_free ha hq.1)]

/-- A process that is not started gets another container. -/
theorem setContainer (h : LocalPids s) (hu : (s.proc c).state = .unused) (k : ℕ) :
    LocalPids (s.setProc c { s.proc c with container := k }) := by
  have hproc : ∀ q, q ≠ c →
      (s.setProc c { s.proc c with container := k }).proc q = s.proc q := by
    intro q hq
    simp [ProcSys.setProc, hq]
  refine h.congr rfl rfl (fun j => ?_) fun j q hq => ?_
  · ext q
    by_cases hq : q = c
    · subst hq
      simp [ProcSys.startedIn, ProcSys.setProc, hu]
    · simp only [ProcSys.startedIn, Set.mem_ofPred_eq, hproc q hq]
      rfl
  · rw [hproc q]
    rintro rfl
    exact hq.2.1 hu

theorem createContainer (h : LocalPids s) (hf : Family s kids) (hu : (s.proc c).state = .unused) :
    LocalPids (s.createContainer c) := by
  intro k hk
  have hk : k < s.containers + 1 := hk
  have hset := h.setContainer hu s.containers
  by_cases hnew : k = s.containers
  · subst hnew
    refine ⟨[], by simp, fun p => ?_, ?_⟩
    · simp only [List.not_mem_nil, false_iff]
      intro ⟨hp, hused, hcont⟩
      have hne : p ≠ c := by
        rintro rfl
        simp [ProcSys.createContainer, ProcSys.setProc, hu] at hused
      have hlt := hf.container p hp
      simp only [ProcSys.createContainer, ProcSys.setProc, Function.update_of_ne hne] at hcont
      omega
    · change (Function.update s.localPids s.containers (.init s.junk) s.containers).Deals _
      rw [Function.update_self]
      exact PidPool.init_deals s.junk
  · obtain ⟨l, hnodup, hmem, hdeals⟩ := hset k (by change k < s.containers; omega)
    refine ⟨l, hnodup, hmem, ?_⟩
    change (Function.update s.localPids s.containers (.init s.junk) k).Deals _
    rw [Function.update_of_ne hnew]
    exact hdeals

/-- **A process is started.** -/
theorem activate (h : LocalPids s) (hc : s.allocated c = true) (hu : (s.proc c).state = .unused)
    (hk : (s.proc c).container < s.containers)
    (hroom : (s.startedIn (s.proc c).container).ncard < pidNum) :
    LocalPids { s.setProc c { s.proc c with
        localpid := ((s.localPids (s.proc c).container).take).1, state := .runnable } with
      localPids := Function.update s.localPids (s.proc c).container
        ((s.localPids (s.proc c).container).take).2 } := by
  set s' : ProcSys := { s.setProc c { s.proc c with
        localpid := ((s.localPids (s.proc c).container).take).1, state := .runnable } with
      localPids := Function.update s.localPids (s.proc c).container
        ((s.localPids (s.proc c).container).take).2 } with hs'
  have hproc : ∀ q, q ≠ c → s'.proc q = s.proc q := by
    intro q hq
    simp [hs', ProcSys.setProc, hq]
  have hprocc : s'.proc c = { s.proc c with
      localpid := ((s.localPids (s.proc c).container).take).1, state := .runnable } := by
    simp [hs', ProcSys.setProc]
  have hstarted : ∀ k q, q ∈ s'.startedIn k ↔
      q ∈ s.startedIn k ∨ (q = c ∧ (s.proc c).container = k) := by
    intro k q
    by_cases hq : q = c
    · subst hq
      have hnot : q ∉ s.startedIn k := fun hin => hin.2.1 hu
      simp only [ProcSys.startedIn, Set.mem_ofPred_eq, hprocc]
      simp [hs', ProcSys.setProc, hc, hu]
    · simp only [ProcSys.startedIn, Set.mem_ofPred_eq, hproc q hq, hq, false_and, or_false]
      rfl
  intro k hk'
  obtain ⟨l, hnodup, hmem, hdeals⟩ := h k hk'
  have hnot : c ∉ l := fun hin => ((hmem c).mp hin).2.1 hu
  have hmap : l.map (fun p => (s'.proc p).localpid) = l.map fun p => (s.proc p).localpid := by
    refine List.map_congr_left fun p hp => ?_
    rw [hproc p]
    rintro rfl
    exact hnot hp
  by_cases hkc : (s.proc c).container = k
  · subst hkc
    have hlen : l.length < pidNum := by
      have hset : s.startedIn (s.proc c).container = (l.toFinset : Set ℕ) := by
        ext p
        simp [hmem]
      rwa [hset, Set.ncard_coe_finset, List.toFinset_card_of_nodup hnodup] at hroom
    refine ⟨c :: l, List.nodup_cons.mpr ⟨hnot, hnodup⟩, fun p => ?_, ?_⟩
    · rw [hstarted, List.mem_cons, hmem]
      simp [or_comm]
    · change (Function.update s.localPids _ _ _).Deals _
      rw [Function.update_self, List.map_cons, hmap, hprocc]
      exact hdeals.take (by simpa using hlen)
  · refine ⟨l, hnodup, fun p => ?_, ?_⟩
    · rw [hstarted, hmem]
      simp [hkc]
    · change (Function.update s.localPids _ _ k).Deals _
      rw [Function.update_of_ne (Ne.symm hkc), hmap]
      exact hdeals

/-- **A process is reaped.** -/
theorem free (h : LocalPids s) (hc : s.allocated c = true) (hu : (s.proc c).state ≠ .unused) :
    LocalPids (s.free t c) := by
  have hstarted : ∀ k q, q ∈ (s.free t c).startedIn k ↔ q ∈ s.startedIn k ∧ q ≠ c := by
    intro k q
    by_cases hq : q = c
    · subst hq
      simp [ProcSys.startedIn, ProcSys.free]
    · simp only [ProcSys.startedIn, ProcSys.free, Set.mem_ofPred_eq, Function.update_of_ne hq, hq,
        ne_eq, not_false_eq_true, and_true]
      rfl
  intro k hk
  obtain ⟨l, hnodup, hmem, hdeals⟩ := h k hk
  refine ⟨l.erase c, hnodup.erase c, fun p => ?_, ?_⟩
  · rw [hnodup.mem_erase_iff, hstarted, hmem, and_comm]
  · change (Function.update s.localPids (s.proc c).container _ k).Deals
      ((l.erase c).map fun p => (s.proc p).localpid)
    by_cases hkc : (s.proc c).container = k
    · subst hkc
      have hin : c ∈ l := (hmem c).mpr ⟨hc, hu, rfl⟩
      rw [Function.update_self]
      refine PidPool.Deals.give ⟨hdeals.avail_le, ?_⟩
      refine (List.Perm.append_left _ ?_).trans hdeals.perm
      exact ((List.perm_cons_erase hin).map fun p => (s.proc p).localpid).symm
    · have hnot : c ∉ l := fun hin => hkc ((hmem c).mp hin).2.2
      rw [Function.update_of_ne (Ne.symm hkc), List.erase_of_not_mem hnot]
      exact hdeals

theorem startProc (h : LocalPids s) (hf : Family s kids) (hc : s.allocated c = true)
    (hu : (s.proc c).state = .unused)
    (hroom : (s.startedIn (s.proc c).container).ncard < pidNum) : LocalPids (s.startProc c) := by
  have hk := hf.container c hc
  rw [ProcSys.startProc]
  by_cases hpar : (s.proc c).parent = none
  · -- the parent is set first, to `root_proc`
    rw [if_pos hpar]
    have hproc : ∀ q, (s.addChild ProcSys.root c).proc q = { s.proc q with
        parent := ((s.addChild ProcSys.root c).proc q).parent } := by
      intro q
      by_cases hq : q = c
      · subst hq
        simp [ProcSys.addChild, ProcSys.setProc]
      · simp [ProcSys.addChild, ProcSys.setProc, hq]
    have hstarted : ∀ k, (s.addChild ProcSys.root c).startedIn k = s.startedIn k := by
      intro k
      ext q
      simp only [ProcSys.startedIn, Set.mem_ofPred_eq]
      rw [hproc q]
      rfl
    refine (h.addChild ProcSys.root).activate hc ?_ ?_ ?_
    · rw [hproc c]
      exact hu
    · rw [hproc c]
      exact hk
    · rw [hproc c, hstarted]
      exact hroom
  · rw [if_neg hpar]
    exact h.activate hc hu hk hroom

/-- **Every step keeps the pools.** -/
theorem step (h : LocalPids s) (ht : Tree s kids) {a : ProcAct} (hs : s.step (t, a) = some s')
    (hok : s.LocalRoom (t, a)) : LocalPids s' := by
  obtain ⟨-, hta, ⟨-, hd, rfl⟩ | ⟨-, hrun, hd, hm⟩⟩ := ProcSys.step_cases hs
  · refine h.congr_setProc rfl ?_ ⟨rfl, rfl⟩
    simp [(ht.family.dying t hd).2]
  have hgo : a = .wait ∨ a = .waitSem ∨ a = .resume → LocalPids s' := fun ha =>
    h.goesOn (hm.goesOn hrun ha) hrun
  cases hm with
  | createProc hph ha => exact h.createProc ha
  | setParentToThis hph hc hp => exact h.addChild t
  | setContainerToThis hph hc hr => exact h.setContainer (ProcSys.mine_iff.mp hc).2.1 _
  | createContainer hph hc hr => exact h.createContainer ht.family (ProcSys.mine_iff.mp hc).2.1
  | startProc hph hc hdn =>
      obtain ⟨hca, hcu, -⟩ := ProcSys.mine_iff.mp hc
      exact h.startProc ht.family hca hcu hok
  | exit hph hs =>
      have hf := ProcSys.exit_frame (ht.family.kidsOf hta) hs
      have hsame := hf.same
      refine h.congr_proc (by rw [hsame]) (by rw [hsame]) (by rw [hsame]) fun q => ?_
      refine ⟨?_, by rw [hf.proc q], by rw [hf.proc q]⟩
      rcases hf.state q with heq | ⟨hsl, hrq⟩
      · rw [heq]
      · simp [hsl, hrq]
  | waitAlone hph => exact h
  | wait hph => exact hgo (.inl rfl)
  | waitSem hph hs => exact hgo (.inr (.inl rfl))
  | resume hph => exact hgo (.inr (.inr rfl))
  | interrupted hph hs => exact hgo (.inr (.inr rfl))
  | reap hph hs =>
      have hdn : s.dying = none := by
        by_contra hdn
        simp [ProcSys.reap, hdn] at hs
      have he : s.exited t = false := by simp [ProcSys.exited, hrun, hd]
      obtain ⟨c, hc, hz, hreap⟩ := ht.found hta he hph hdn
      rw [hreap] at hs
      cases hs
      exact h.free ((ht.family.mem t c hta).mp hc).1 (by simp [hz])
  | kill hph =>
      rw [ProcSys.kill]
      split
      · exact h
      · exact h.congr_setProc rfl Iff.rfl ⟨rfl, rfl⟩
  | @alert b born hph hdn =>
      have hu : (s.proc b).state ≠ .unused := hok b born hph
      refine h.congr_setProc rfl ?_ ⟨rfl, rfl⟩
      by_cases hsl : (s.proc b).state = .sleeping
      · simp [hsl]
      · simp [hsl, hu]

end LocalPids

/-! ## Runs -/

theorem localPids_invariant {junk : ℕ → ℤ} {s : ProcSys}
    (h : Reach ProcSys.step ProcSys.LocalRoom (ProcSys.start junk) s) :
    (∃ kids, Tree s kids) ∧ LocalPids s := by
  refine h.invariant (P := fun s => (∃ kids, Tree s kids) ∧ LocalPids s)
    ⟨⟨_, Tree.init junk⟩, LocalPids.init junk⟩ fun s i s' ⟨⟨kids, hk⟩, hl⟩ hok hs => ?_
  refine ⟨hk.step hs fun b born hph ha => ?_, hl.step hk hs hok⟩
  rw [ProcSys.LocalRoom, ha] at hok
  exact hok b born hph

/-- **The local pids of the processes of a container that are started and not reaped are distinct
and less than `PID_NUM`, and with what is left of the pool they are a permutation of all**, in
every run in which no container has more than `PID_NUM` such processes. -/
theorem localPids_unique (junk : ℕ → ℤ) (s : ProcSys)
    (h : Reach ProcSys.step ProcSys.LocalRoom (ProcSys.start junk) s) :
    ∀ k < s.containers,
      (∀ p ∈ s.startedIn k, ∀ q ∈ s.startedIn k,
        (s.proc p).localpid = (s.proc q).localpid → p = q) ∧
      (∀ p ∈ s.startedIn k, 0 ≤ (s.proc p).localpid ∧ (s.proc p).localpid < pidNum) ∧
      (s.localPids k).avail ≤ pidNum ∧
      ∃ l : List ℕ, l.Nodup ∧ (∀ p, p ∈ l ↔ p ∈ s.startedIn k) ∧
        ((s.localPids k).rest ++ l.map fun p => (s.proc p).localpid).Perm PidPool.all := by
  intro k hk
  obtain ⟨l, hnodup, hmem, hdeals⟩ := (localPids_invariant h).2 k hk
  have hall : PidPool.all.Nodup := List.nodup_range.map fun i j hij => by simpa using hij
  have hused := (List.nodup_append.mp ((hdeals.perm.nodup_iff).mpr hall)).2.1
  refine ⟨fun p hp q hq heq => ?_, fun p hp => ?_, hdeals.avail_le, l, hnodup, hmem, hdeals.perm⟩
  · exact List.inj_on_of_nodup_map hused ((hmem p).mpr hp) ((hmem q).mpr hq) heq
  · have hin : (s.proc p).localpid ∈ PidPool.all :=
      hdeals.perm.mem_iff.mp (List.mem_append_right _ (List.mem_map_of_mem ((hmem p).mpr hp)))
    obtain ⟨i, hi, heq⟩ := List.mem_map.mp hin
    rw [List.mem_range] at hi
    omega

/-- A step that finds a pid left in the pool -/
def ProcSys.localTest (s : ProcSys) (i : ℕ × ProcAct) : Bool :=
  match i.2 with
  | .startProc c => s.allocated c && decide ((s.localPids (s.proc c).container).avail < pidNum)
  | .alert => false
  | _ => true

theorem localRoom_of_localTest {junk : ℕ → ℤ} (s : ProcSys) (i : ℕ × ProcAct)
    (h : Reach ProcSys.step ProcSys.LocalRoom (ProcSys.start junk) s)
    (ht : s.localTest i = true) : s.LocalRoom i := by
  obtain ⟨⟨kids, hk⟩, hl⟩ := localPids_invariant h
  obtain ⟨t, a⟩ := i
  cases a with
  | startProc c =>
      simp only [ProcSys.localTest, Bool.and_eq_true, decide_eq_true_eq] at ht
      obtain ⟨l, hnodup, hmem, hdeals⟩ := hl _ (hk.family.container c ht.1)
      have hset : s.startedIn (s.proc c).container = (l.toFinset : Set ℕ) := by
        ext p
        simp [hmem]
      have havail := hdeals.avail
      rw [List.length_map] at havail
      change (s.startedIn (s.proc c).container).ncard < pidNum
      rw [hset, Set.ncard_coe_finset, List.toFinset_card_of_nodup hnodup, ← havail]
      exact ht.2
  | alert => simp [ProcSys.localTest] at ht
  | _ => trivial

/-- A process in a container of its own, whose child is reaped. -/
theorem localPids_unique_container : ∃ s : ProcSys, s.containers = 2 ∧
    (s.localPids 1).avail = 1 ∧ ∀ k < s.containers,
      (∀ p ∈ s.startedIn k, ∀ q ∈ s.startedIn k,
        (s.proc p).localpid = (s.proc q).localpid → p = q) ∧
      (∀ p ∈ s.startedIn k, 0 ≤ (s.proc p).localpid ∧ (s.proc p).localpid < pidNum) ∧
      (s.localPids k).avail ≤ pidNum ∧
      ∃ l : List ℕ, l.Nodup ∧ (∀ p, p ∈ l ↔ p ∈ s.startedIn k) ∧
        ((s.localPids k).rest ++ l.map fun p => (s.proc p).localpid).Perm PidPool.all := by
  have hrun : (runs (fun s i => if s.localTest i then s.step i else none)
      (ProcSys.start fun _ => 0) [(0, .createProc 1), (0, .createContainer 1),
        (0, .setParentToThis 1), (0, .startProc 1), (1, .createProc 2), (1, .setContainerToThis 2),
        (1, .setParentToThis 2), (1, .startProc 2), (2, .exit 7), (2, .zombie), (1, .wait),
        (1, .waitSem), (1, .reap)]).map (fun s => (s.containers, (s.localPids 1).avail)) =
      some (2, 1) := by decide +kernel
  obtain ⟨s, hs, hres⟩ := Option.map_eq_some_iff.mp hrun
  have hreach := Reach.of_checked .init localRoom_of_localTest _ hs
  exact ⟨s, congrArg Prod.fst hres, congrArg Prod.snd hres, localPids_unique _ s hreach⟩

end OsLab
