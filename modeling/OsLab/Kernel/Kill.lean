import OsLab.Kernel.Pids

/-!
# `kill` and the process it has found

`kill` finds its target under `plock` and wakes it up after dropping the lock.  Meanwhile
the target may exit and be reaped, and the next `create_proc` may get its memory.  As long
as nobody reaps a process that a `kill` is about to wake up, the process woken up is the
one that was found, and only `start_proc` makes a new process `RUNNABLE`.

## Main definitions

* `ProcSys.Unwatched` — a `wait` reaps no process that a `kill` has found.
* `Targets` — the processes found are still there.
* `kill_touches_target` — what holds in the runs all of whose steps are unwatched.
-/

namespace OsLab

namespace ProcSys

variable (s : ProcSys)

/-- The dead child that `wait` of `t` finds. -/
def deadChild (t : ℕ) : Option ℕ :=
  (s.kidsOf t).bind fun kids => kids.find? fun c => (s.proc c).state = .zombie

/-- The dead child that a `wait` reaps is not the target of a `kill` that has dropped `plock`. -/
def Unwatched (i : ℕ × ProcAct) : Prop :=
  i.2 = .reap → ∀ c, s.deadChild i.1 = some c →
    ∀ u born, s.allocated u = true → s.phase u ≠ .alerting c born

/-- **`kill` touches its target only.** -/
structure KillSafe : Prop where
  /-- the process passed to `alert_proc` is the one whose flag was set, and is not reaped -/
  target : ∀ r ∈ s.alerts, r.now = some r.found
  /-- only `start_proc` makes a new process runnable -/
  started : ∀ i s', s.step i = some s' → ∀ q, s.allocated q = true →
    (s.proc q).state = .unused → (s'.proc q).state = .runnable → i.2 = .startProc q

end ProcSys

/-- The processes that calls of `kill` have found. -/
structure Targets (s : ProcSys) : Prop where
  there : ∀ u a born, s.allocated u = true → s.phase u = .alerting a born →
    s.allocated a = true ∧ (s.proc a).birth = born ∧ (s.proc a).state ≠ .unused
  alerts : ∀ r ∈ s.alerts, r.now = some r.found

/-! ## What a step does to one process -/

/-- The process `q` stays the same process, and is started or not as before. -/
structure Remains (s s' : ProcSys) (q : ℕ) : Prop where
  alloc : s'.allocated q = s.allocated q
  birth : (s'.proc q).birth = (s.proc q).birth
  unused : (s'.proc q).state = .unused ↔ (s.proc q).state = .unused
  phase : ∀ a born, s'.phase q = .alerting a born → s.phase q = .alerting a born

namespace Remains

variable {s s' s'' : ProcSys} {q c t : ℕ}

theorem trans (h : Remains s s' q) (h' : Remains s' s'' q) : Remains s s'' q :=
  ⟨h'.alloc.trans h.alloc, h'.birth.trans h.birth, h'.unused.trans h.unused,
    fun a born hp => h.phase a born (h'.phase a born hp)⟩

/-- One process changes. -/
theorem of_setProc {x : Proc} (hb : x.birth = (s.proc c).birth)
    (hu : x.state = .unused ↔ (s.proc c).state = .unused) : Remains s (s.setProc c x) q := by
  by_cases hq : q = c
  · subst hq
    exact ⟨rfl, by simpa [ProcSys.setProc] using hb, by simpa [ProcSys.setProc] using hu,
      fun _ _ => id⟩
  · exact ⟨rfl, by simp [ProcSys.setProc, hq], by simp [ProcSys.setProc, hq], fun _ _ => id⟩

theorem of_setPhase {ph : ProcPhase} (hph : ∀ a born, ph ≠ .alerting a born) :
    Remains s (s.setPhase t ph) q := by
  refine ⟨rfl, rfl, Iff.rfl, ?_⟩
  intro a born h
  by_cases hq : q = t
  · subst hq
    exact absurd (by simpa [ProcSys.setPhase] using h) (hph a born)
  · simpa [ProcSys.setPhase, hq] using h

theorem of_addChild {p : ℕ} : Remains s (s.addChild p c) q := by
  have h : Remains s (s.setProc c { s.proc c with parent := some p }) q :=
    of_setProc rfl Iff.rfl
  exact ⟨h.alloc, h.birth, h.unused, h.phase⟩

theorem of_goesOn (h : s.GoesOn t s') (hrun : (s.proc t).state = .runnable)
    (hph : ∀ a born, s'.phase t ≠ .alerting a born) : Remains s s' q := by
  obtain ⟨x, ph, rfl, hx, hstate⟩ := h
  have hset : Remains s (s.setProc t x) q := by
    refine of_setProc (by rw [hx]) ?_
    rcases hstate with h1 | h1
    · simp [h1, hrun]
    · simp [h1, hrun]
  refine hset.trans (of_setPhase ?_)
  intro a born
  simpa [ProcSys.setPhase] using hph a born

theorem of_exit {kids : List ℕ} (h : ExitFrame s s' t kids) : Remains s s' q := by
  refine ⟨by rw [h.same], by rw [h.proc q], ?_, ?_⟩
  · rcases h.state q with h1 | ⟨h1, h2⟩
    · rw [h1]
    · simp [h1, h2]
  · intro a born hp
    rcases h.phase q with h1 | h1
    · rwa [h1] at hp
    · rw [h1] at hp
      cases hp

theorem of_zombie (hrun : (s.proc t).state = .runnable) :
    Remains s { s.setProc t { s.proc t with state := .zombie } with dying := none } q := by
  have h : Remains s (s.setProc t { s.proc t with state := .zombie }) q :=
    of_setProc rfl (by simp [hrun])
  exact ⟨h.alloc, h.birth, h.unused, h.phase⟩

theorem of_startProc (hq : q ≠ c) : Remains s (s.startProc c) q := by
  have hstart : ∀ (u : ProcSys) (pid : ℤ) (pools : ℕ → PidPool), Remains u
      { u.setProc c { u.proc c with localpid := pid, state := .runnable } with
        localPids := pools } q := by
    intro u pid pools
    exact ⟨rfl, by simp [ProcSys.setProc, hq], by simp [ProcSys.setProc, hq], fun _ _ => id⟩
  rw [ProcSys.startProc]
  split_ifs
  · exact of_addChild.trans (hstart _ _ _)
  · exact hstart _ _ _

end Remains

section Step

variable {s s' : ProcSys} {kids : ℕ → List ℕ} {t q : ℕ} {a : ProcAct}

/-- `wait` does not get into `kill`. -/
theorem goesOn_phase (h : s.Move t a s') (ha : a = .wait ∨ a = .waitSem ∨ a = .resume)
    (b born : ℕ) : s'.phase t ≠ .alerting b born := by
  cases h with
  | waitAlone hph => simp [hph]
  | wait hph => simp [ProcSys.setPhase]
  | waitSem hph hs =>
      simp only [ProcSys.waitSem] at hs
      split_ifs at hs
      all_goals
        cases hs
        simp [ProcSys.setPhase]
  | resume hph => simp [ProcSys.setPhase]
  | interrupted hph hs =>
      simp only [ProcSys.interrupted] at hs
      split_ifs at hs
      cases hs
      simp [ProcSys.setPhase]
  | _ => simp at ha

/-- What a step does to a process. -/
theorem remains_of_move (h : Tree s kids) (ht : s.allocated t = true)
    (hrun : (s.proc t).state = .runnable) (hm : s.Move t a s') (hq : a ≠ .createProc q) :
    Remains s s' q ∨ a = .reap ∨ a = .startProc q ∨ (∃ pid, a = .kill pid) ∨ a = .alert := by
  have hgo : a = .wait ∨ a = .waitSem ∨ a = .resume → Remains s s' q := fun ha =>
    .of_goesOn (hm.goesOn hrun ha) hrun (goesOn_phase hm ha)
  cases hm with
  | @createProc b hph hb =>
      have hqb : q ≠ b := fun hqb => hq (by rw [hqb])
      exact .inl ⟨by simp [ProcSys.createProc, hqb], by simp [ProcSys.createProc, hqb],
        by simp [ProcSys.createProc, hqb], by simp [ProcSys.createProc, hqb]⟩
  | setParentToThis hph hc hpar => exact .inl .of_addChild
  | setContainerToThis hph hc hr => exact .inl (.of_setProc rfl Iff.rfl)
  | @createContainer c hph hc hr =>
      have hset : Remains s (s.setProc c { s.proc c with container := s.containers }) q :=
        .of_setProc rfl Iff.rfl
      exact .inl ⟨hset.alloc, hset.birth, hset.unused, hset.phase⟩
  | @startProc c hph hc hd =>
      by_cases hqc : q = c
      · exact .inr (.inr (.inl (by rw [hqc])))
      · exact .inl (.of_startProc hqc)
  | exit hph hs => exact .inl (.of_exit (ProcSys.exit_frame (h.family.kidsOf ht) hs))
  | waitAlone hph => exact .inl (hgo (.inl rfl))
  | wait hph => exact .inl (hgo (.inl rfl))
  | waitSem hph hs => exact .inl (hgo (.inr (.inl rfl)))
  | resume hph => exact .inl (hgo (.inr (.inr rfl)))
  | interrupted hph hs => exact .inl (hgo (.inr (.inr rfl)))
  | reap hph hs => exact .inr (.inl rfl)
  | kill hph => exact .inr (.inr (.inr (.inl ⟨_, rfl⟩)))
  | alert hph hd => exact .inr (.inr (.inr (.inr rfl)))

/-- The child that is reaped. -/
theorem reap_deadChild (h : Tree s kids) (ht : s.allocated t = true) (he : s.exited t = false)
    (hph : s.phase t = .token) (hs : s.reap t = some s') :
    ∃ c, s.deadChild t = some c ∧ (s.proc c).state = .zombie ∧ s' = s.free t c := by
  have hd : s.dying = none := by
    by_contra hd
    simp [ProcSys.reap, hd] at hs
  obtain ⟨d, hd₁, hd₂, -⟩ := h.found ht he hph hd
  rw [ProcSys.reap, if_neg (by simp [hd]), h.family.kidsOf ht, Option.bind_eq_bind,
    Option.bind_some] at hs
  rw [ProcSys.deadChild, h.family.kidsOf ht, Option.bind_some]
  cases hfind : (kids t).find? fun c => (s.proc c).state = .zombie with
  | none =>
      have := List.find?_eq_none.mp hfind d hd₁
      simp [hd₂] at this
  | some c =>
      rw [hfind] at hs
      cases hs
      exact ⟨c, rfl, by simpa using List.find?_some hfind, rfl⟩

/-- Only `alert_proc` is recorded. -/
theorem alerts_of_move (h : Tree s kids) (ht : s.allocated t = true) (hm : s.Move t a s') :
    s'.alerts = s.alerts ∨ a = .alert := by
  cases hm with
  | startProc hph hc hd =>
      left
      rw [ProcSys.startProc]
      split_ifs <;> rfl
  | exit hph hs =>
      left
      rw [(ProcSys.exit_frame (h.family.kidsOf ht) hs).same]
  | waitSem hph hs =>
      left
      simp only [ProcSys.waitSem] at hs
      split_ifs at hs
      all_goals
        cases hs
        rfl
  | interrupted hph hs =>
      left
      simp only [ProcSys.interrupted] at hs
      split_ifs at hs
      cases hs
      rfl
  | reap hph hs =>
      left
      rw [ProcSys.reap, h.family.kidsOf ht] at hs
      split_ifs at hs
      simp only [Option.bind_eq_bind, Option.bind_some] at hs
      split at hs
      all_goals
        cases hs
        rfl
  | @kill pid hph =>
      left
      rw [ProcSys.kill]
      cases s.dfs pid s.births ProcSys.root <;> rfl
  | alert hph hd => exact .inr rfl
  | _ => exact .inl rfl

theorem ne_createProc (hm : s.Move t a s') (hq : s.allocated q = true) : a ≠ .createProc q := by
  rintro rfl
  cases hm with
  | createProc hph ha =>
      rw [ha] at hq
      cases hq

end Step

namespace Targets

variable {s s' : ProcSys} {kids : ℕ → List ℕ} {t c : ℕ} {a : ProcAct}

theorem init (junk : ℕ → ℤ) : Targets (ProcSys.start junk) := by
  constructor <;> simp [ProcSys.start]

/-- The processes that were found stay. -/
theorem congr (h : Targets s)
    (hu : ∀ u b born, s'.allocated u = true → s'.phase u = .alerting b born →
      s.allocated u = true ∧ s.phase u = .alerting b born)
    (hb : ∀ b, s.allocated b = true → (s.proc b).state ≠ .unused →
      (∃ u born, s.allocated u = true ∧ s.phase u = .alerting b born) →
      s'.allocated b = true ∧ (s'.proc b).birth = (s.proc b).birth ∧ (s'.proc b).state ≠ .unused)
    (halerts : s'.alerts = s.alerts) : Targets s' := by
  constructor
  · intro u b born hua hup
    obtain ⟨h1, h2⟩ := hu u b born hua hup
    obtain ⟨h3, rfl, h4⟩ := h.there u b born h1 h2
    exact hb b h3 h4 ⟨u, _, h1, h2⟩
  · rw [halerts]
    exact h.alerts

theorem free (h : Targets s)
    (hc : ∀ u born, s.allocated u = true → s.phase u ≠ .alerting c born) :
    Targets (s.free t c) := by
  have halloc : ∀ q, (s.free t c).allocated q = true ↔ q ≠ c ∧ s.allocated q = true := by
    intro q
    by_cases hq : q = c
    · simp [ProcSys.free, hq]
    · simp [ProcSys.free, hq]
  have hphase : ∀ u b born, (s.free t c).phase u = .alerting b born →
      s.phase u = .alerting b born := by
    intro u
    have hr : Remains s (s.setPhase t .idle) u := .of_setPhase (by simp)
    exact hr.phase
  refine h.congr ?_ ?_ rfl
  · intro u b born hu hp
    exact ⟨((halloc u).mp hu).2, hphase u b born hp⟩
  · rintro b hb hbu ⟨u, born, hu, hp⟩
    refine ⟨(halloc b).mpr ⟨?_, hb⟩, rfl, hbu⟩
    rintro rfl
    exact hc u born hu hp

theorem startProc (h : Targets s) (hu : (s.proc c).state = .unused) :
    Targets (s.startProc c) := by
  have hsame : (s.startProc c).allocated = s.allocated ∧ (s.startProc c).phase = s.phase ∧
      (s.startProc c).alerts = s.alerts := by
    rw [ProcSys.startProc]
    split_ifs <;> exact ⟨rfl, rfl, rfl⟩
  refine h.congr ?_ ?_ hsame.2.2
  · intro u b born
    rw [hsame.1, hsame.2.1]
    exact fun h1 h2 => ⟨h1, h2⟩
  · intro b hb hbu _
    have hbc : b ≠ c := by
      rintro rfl
      exact hbu hu
    have hr : Remains s (s.startProc c) b := .of_startProc hbc
    rw [hr.alloc]
    exact ⟨hb, hr.birth, hr.unused.not.mpr hbu⟩

theorem kill (h : Targets s) (hf : Family s kids) (pid : ℤ) : Targets (s.kill t pid) := by
  rw [ProcSys.kill]
  cases hdfs : s.dfs pid s.births ProcSys.root with
  | none => exact h
  | some b =>
      obtain ⟨hbt, -, hbu⟩ := dfs_sound hf (root_inTree hf) hdfs
      have hset : ∀ q, Remains s (s.setProc b { s.proc b with killed := true }) q :=
        fun q => .of_setProc rfl Iff.rfl
      refine ⟨?_, h.alerts⟩
      intro u d born hu hp
      have hu : s.allocated u = true := hu
      have hd : s.allocated d = true ∧ (s.proc d).birth = born ∧ (s.proc d).state ≠ .unused := by
        by_cases hut : u = t
        · subst hut
          have hp : b = d ∧ (s.proc b).birth = born := by simpa [ProcSys.setPhase] using hp
          rw [← hp.1]
          exact ⟨hbt.1, hp.2, hbu⟩
        · exact h.there u d born hu (by simpa [ProcSys.setPhase, ProcSys.setProc, hut] using hp)
      exact ⟨hd.1, (hset d).birth.trans hd.2.1, (hset d).unused.not.mpr hd.2.2⟩

theorem alert (h : Targets s) (ht : s.allocated t = true) {b born : ℕ}
    (hph : s.phase t = .alerting b born) : Targets (s.alert t b born) := by
  obtain ⟨hba, hbb, hbu⟩ := h.there t b born ht hph
  set x : Proc := { s.proc b with
    state := if (s.proc b).state = .sleeping ∨ (s.proc b).state = .unused then .runnable
      else (s.proc b).state } with hx
  have hxu : x.state ≠ .unused := by
    simp only [hx]
    split_ifs
    · simp
    · exact hbu
  have hset : ∀ q, Remains s (s.setProc b x) q := fun q => .of_setProc rfl (by simp [hxu, hbu])
  have hphase : ∀ u d n, (s.alert t b born).phase u = .alerting d n →
      s.phase u = .alerting d n := by
    intro u
    have hr : Remains s (s.setPhase t .idle) u := .of_setPhase (by simp)
    exact hr.phase
  constructor
  · intro u d n hu hp
    obtain ⟨h1, h2, h3⟩ := h.there u d n hu (hphase u d n hp)
    exact ⟨h1, (hset d).birth.trans h2, (hset d).unused.not.mpr h3⟩
  · intro r hr
    rcases List.mem_cons.mp hr with rfl | hr
    · simp [hba, hbb]
    · exact h.alerts r hr

/-- **A step keeps the processes that `kill` has found.** -/
theorem step (h : Targets s) (hk : Tree s kids) (hs : s.step (t, a) = some s')
    (hok : s.Unwatched (t, a)) : Targets s' := by
  obtain ⟨-, ht, ⟨-, hd, rfl⟩ | ⟨-, hrun, hd, hm⟩⟩ := ProcSys.step_cases hs
  · have hr : ∀ q, Remains s _ q := fun q => .of_zombie (hk.family.dying t hd).2
    refine h.congr ?_ ?_ rfl
    · exact fun u b born hu hp => ⟨hu, hp⟩
    · exact fun b hb hbu _ => ⟨hb, (hr b).birth, (hr b).unused.not.mpr hbu⟩
  · have hgen : (∀ q, a ≠ .createProc q → Remains s s' q) → s'.alerts = s.alerts → Targets s' := by
      intro hr halerts
      refine h.congr ?_ ?_ halerts
      · intro u b born hu hp
        by_cases hau : a = .createProc u
        · subst hau
          cases hm with
          | createProc hph hua => simp [ProcSys.createProc] at hp
        · rw [(hr u hau).alloc] at hu
          exact ⟨hu, (hr u hau).phase b born hp⟩
      · intro b hb hbu _
        have hrb := hr b (ne_createProc hm hb)
        rw [hrb.alloc]
        exact ⟨hb, hrb.birth, hrb.unused.not.mpr hbu⟩
    have hrem := fun q => remains_of_move (q := q) hk ht hrun hm
    have halerts := alerts_of_move hk ht hm
    cases hm with
    | startProc hph hc hdn => exact h.startProc (ProcSys.mine_iff.mp hc).2.1
    | reap hph hs =>
        obtain ⟨c, hc, -, rfl⟩ :=
          reap_deadChild hk ht (by simp [ProcSys.exited, hrun, hd]) hph hs
        exact h.free (hok rfl c hc)
    | kill hph => exact h.kill hk.family _
    | alert hph hdn => exact h.alert ht hph
    | _ => exact hgen (fun q hq => by simpa using hrem q hq) (halerts.resolve_right (by simp))

/-- Only `start_proc` makes a new process runnable. -/
theorem started (h : Targets s) (hk : Tree s kids) (hs : s.step (t, a) = some s') {q : ℕ}
    (hq : s.allocated q = true) (hu : (s.proc q).state = .unused)
    (hrun' : (s'.proc q).state = .runnable) : a = .startProc q := by
  have hno : ¬Remains s s' q := by
    intro hr
    rw [hr.unused.mpr hu] at hrun'
    cases hrun'
  obtain ⟨-, ht, ⟨-, hd, rfl⟩ | ⟨-, hrun, hd, hm⟩⟩ := ProcSys.step_cases hs
  · exact absurd (.of_zombie (hk.family.dying t hd).2) hno
  · rcases remains_of_move hk ht hrun hm (ne_createProc hm hq) with
      hr | rfl | hstart | ⟨pid, rfl⟩ | rfl
    · exact absurd hr hno
    · cases hm with
      | reap hph hs =>
          obtain ⟨c, -, -, rfl⟩ :=
            reap_deadChild hk ht (by simp [ProcSys.exited, hrun, hd]) hph hs
          have hsame : (s.proc q).state = .runnable := hrun'
          rw [hu] at hsame
          cases hsame
    · exact hstart
    · -- the flag of some process is set, and its state is left alone
      cases hm with
      | kill hph =>
          have hsame : ((s.kill t pid).proc q).state = (s.proc q).state := by
            rw [ProcSys.kill]
            cases s.dfs pid s.births ProcSys.root with
            | none => rfl
            | some b =>
                by_cases hqb : q = b
                · subst hqb
                  simp [ProcSys.setPhase, ProcSys.setProc]
                · simp [ProcSys.setPhase, ProcSys.setProc, hqb]
          rw [hsame, hu] at hrun'
          cases hrun'
    · cases hm with
      | @alert b born hph hdn =>
          -- what is woken up has been started
          have hqb : q ≠ b := by
            rintro rfl
            exact (h.there t q born ht hph).2.2 hu
          have hsame : ((s.alert t b born).proc q).state = (s.proc q).state := by
            simp [ProcSys.alert, ProcSys.setPhase, ProcSys.setProc, hqb]
          rw [hsame, hu] at hrun'
          cases hrun'

end Targets

/-! ## Runs -/

/-- **`kill` touches its target only**, in every state of every run in which no `wait` reaps a
process that a `kill` has found and not yet woken up. -/
theorem kill_touches_target (junk : ℕ → ℤ) (s : ProcSys)
    (h : Reach ProcSys.step ProcSys.Unwatched (ProcSys.start junk) s) : s.KillSafe := by
  have hinv : (∃ kids, Tree s kids) ∧ Targets s := by
    refine Reach.invariant (P := fun s => (∃ kids, Tree s kids) ∧ Targets s) h
      ⟨⟨_, Tree.init junk⟩, Targets.init junk⟩ ?_
    rintro s ⟨t, a⟩ s' ⟨⟨kids, hk⟩, htg⟩ hok hs
    refine ⟨hk.step hs ?_, htg.step hk hs hok⟩
    rintro b born hph -
    obtain ⟨-, ht, -⟩ := ProcSys.step_cases hs
    exact (htg.there t b born ht hph).2.2
  obtain ⟨⟨kids, hk⟩, htg⟩ := hinv
  exact ⟨htg.alerts, fun ⟨t, a⟩ s' hs q hq hu hrun => htg.started hk hs hq hu hrun⟩

/-- A test that there is no dead child. -/
def ProcSys.noReap (s : ProcSys) (i : ℕ × ProcAct) : Bool :=
  i.2 ≠ .reap ∨ s.deadChild i.1 = none

theorem unwatched_of_noReap (s : ProcSys) (i : ℕ × ProcAct) (h : s.noReap i = true) :
    s.Unwatched i := by
  intro ha c hc
  have h : i.2 ≠ .reap ∨ s.deadChild i.1 = none := of_decide_eq_true h
  rcases h with h | h
  · exact absurd ha h
  · rw [h] at hc
    cases hc

/-- A child is killed while it waits for its own child. -/
theorem kill_touches_target_wait : ∃ s : ProcSys, s.KillSafe ∧ s.alerts = [⟨1, some 1⟩] ∧
    (s.proc 1).state = .runnable ∧ (s.proc 1).killed = true := by
  have hrun : (runs (fun s i => if s.noReap i then s.step i else none) (ProcSys.start fun _ => 0)
      [(0, .createProc 1), (0, .setParentToThis 1), (0, .startProc 1), (1, .createProc 2),
        (1, .setParentToThis 2), (1, .startProc 2), (1, .wait), (1, .waitSem), (0, .kill 2),
        (0, .alert)]).map
      (fun s => (s.alerts, (s.proc 1).state, (s.proc 1).killed)) =
      some ([⟨1, some 1⟩], .runnable, true) := by decide +kernel
  obtain ⟨s, hs, hend⟩ := Option.map_eq_some_iff.mp hrun
  simp only [Prod.mk.injEq] at hend
  exact ⟨s, kill_touches_target _ s (Reach.of_tested .init unwatched_of_noReap _ hs), hend⟩

/-- The target exits, is reaped and its memory becomes a new process, which is woken up. -/
theorem kill_wakes_stranger : ¬∀ (junk : ℕ → ℤ) (s : ProcSys),
    Reach ProcSys.step (fun _ _ => True) (ProcSys.start junk) s → s.KillSafe := by
  intro hall
  have hrun : (runs ProcSys.step (ProcSys.start fun _ => 0)
      [(0, .createProc 1), (0, .setParentToThis 1), (0, .startProc 1), (0, .createProc 2),
        (0, .setParentToThis 2), (0, .startProc 2), (2, .kill 2), (1, .exit 0), (1, .zombie),
        (0, .wait), (0, .waitSem), (0, .reap), (0, .createProc 1), (2, .alert)]).map
      (fun s => s.alerts) = some [⟨1, some 3⟩] := by decide +kernel
  obtain ⟨s, hs, halerts⟩ := Option.map_eq_some_iff.mp hrun
  have hsafe := (hall _ s (Reach.init.of_runs _ hs)).target ⟨1, some 3⟩ (by simp [halerts])
  cases hsafe

end OsLab
