import OsLab.Lib.Run
import Mathlib.Data.Bool.Basic
import Mathlib.Tactic.Common

/-!
# Page directories and context switches

`attach_pgdir` marks the page directory of `thisproc()` offline and the one it attaches
online.  `simple_sched` has already changed `thisproc()` when it calls it, so that what is
marked offline is the directory of the process that is about to run, and the one switched
away from stays online.  The second lock that `attach_pgdir` takes is the one of its
argument, and the one it releases is again that of `thisproc()`.

A step is a call of `attach_pgdir`, the part of `simple_sched` before or after `swtch`, or
what changes the state of another process.  A lock that is held is waited for, and there
the model has no step.  Which process of the queues `pick_next` returns is left open; it
returns the idle process of its CPU only where it finds none.

## Main definitions

* `AttachSys`, `AttachSys.step` — the CPUs, the processes and their page directories.
* `OnlineMeansRunning` — a process is online exactly when its directory is attached.
* `AttachSafe` — the steps that keep it.
-/

namespace OsLab

/-- `enum procstate` -/
inductive Procstate
  | unused
  | runnable
  | running
  | sleeping
  | deepsleeping
  | zombie
  deriving DecidableEq, Repr

/-- The page directory of a process, or one that belongs to no process. -/
inductive Dir
  | proc (p : ℕ)
  | other (i : ℕ)
  deriving DecidableEq, Repr

/-- `struct pgdir`; `pt` says whether there is a page table. -/
structure Pgdir where
  pt : Bool
  online : Bool
  locked : Bool
  deriving DecidableEq, Repr

/-- The CPUs, the processes and the page directories. -/
structure AttachSys where
  cpus : ℕ
  thisproc : ℕ → ℕ
  idle : ℕ → ℕ
  state : ℕ → Procstate
  killed : ℕ → Bool
  /-- the `kcontext` of the process lies in `simple_sched`, not at `proc_entry` -/
  switched : ℕ → Bool
  pgdir : Dir → Pgdir
  /-- the directory whose table is attached; `none` is `invalid_pt` -/
  ttbr0 : ℕ → Option Dir
  /-- the CPU that holds the lock of the scheduler -/
  rqlock : Option ℕ
  /-- the processes linked in the queues of their containers -/
  queue : List ℕ
  container : ℕ → ℕ
  /-- the containers linked in the queue of their parent, and `root_container`, which is 0 -/
  active : ℕ → Bool
  panicFlag : Bool

inductive AttachAct
  /-- `_sched(new_state)`, where `pick_next` returns `next` -/
  | sched (newState : Procstate) (next : ℕ)
  /-- the process that `swtch` switched to goes on -/
  | land
  /-- the running process calls `attach_pgdir` -/
  | attach (d : Dir)
  | activate (p : ℕ) (onalert : Bool)
  /-- `activate_group` -/
  | activateGroup (g : ℕ)
  /-- `kill` sets the flag of a process -/
  | kill (p : ℕ)
  /-- `_panic` sets `panic_flag` -/
  | panic
  deriving DecidableEq, Repr

namespace AttachSys

/-- The CPUs run their idle processes, which have the first numbers. -/
def init (n : ℕ) (pt : Dir → Bool) (container : ℕ → ℕ) : AttachSys where
  cpus := n
  thisproc := id
  idle := id
  state := fun p => if p < n then .running else .unused
  killed := fun _ => false
  switched := fun _ => false
  pgdir := fun d => ⟨pt d, false, false⟩
  ttbr0 := fun _ => none
  rqlock := none
  queue := []
  container := container
  active := fun g => g = 0
  panicFlag := false

variable (s : AttachSys)

/-- `_acquire_spinlock(&pgdir->lock)` -/
def acquire (d : Dir) : Option AttachSys :=
  if (s.pgdir d).locked then none
  else some { s with pgdir := Function.update s.pgdir d { s.pgdir d with locked := true } }

/-- `_release_spinlock(&pgdir->lock)` -/
def release (d : Dir) : AttachSys :=
  { s with pgdir := Function.update s.pgdir d { s.pgdir d with locked := false } }

def setOnline (d : Dir) (b : Bool) : AttachSys :=
  { s with pgdir := Function.update s.pgdir d { s.pgdir d with online := b } }

/-- `attach_pgdir(pgdir)` on CPU `c` -/
def attachPgdir (c : ℕ) (d : Dir) : Option AttachSys := do
  let this := Dir.proc (s.thisproc c)
  let s ← s.acquire this
  let s := (s.setOnline this false).release this
  if (s.pgdir d).pt then do
    let s ← s.acquire d
    some { (s.setOnline d true).release this with ttbr0 := Function.update s.ttbr0 c (some d) }
  else some { s with ttbr0 := Function.update s.ttbr0 c none }

/-- `p->idle` -/
def isIdle (p : ℕ) : Bool := (List.range s.cpus).any fun c => s.idle c = p

/-- `update_this_state(new_state)` -/
def updateThisState (c : ℕ) (newState : Procstate) : AttachSys :=
  let this := s.thisproc c
  { s with
    state := Function.update s.state this newState
    queue := if s.isIdle this = false ∧ newState = .runnable then this :: s.queue else s.queue }

/-- `pick_next` finds process `p`. -/
def finds (p : ℕ) : Bool := s.queue.contains p && s.active (s.container p)

/-- `pick_next` may return `next`. -/
def picks (c next : ℕ) : Bool :=
  if s.panicFlag then next = s.idle c
  else s.finds next || next = s.idle c && s.queue.all fun p => !s.finds p

/-- `simple_sched(new_state)` up to `swtch`, with the lock of the scheduler -/
def simpleSched (c : ℕ) (newState : Procstate) (next : ℕ) : Option AttachSys :=
  let this := s.thisproc c
  if s.state this ≠ .running then none
  else if s.killed this ∧ newState ≠ .zombie then some { s with rqlock := none }
  else
    let s := s.updateThisState c newState
    if s.picks c next = false ∨ s.state next ≠ .runnable then none
    else
      let s := { s with
        state := Function.update s.state next .running
        queue := s.queue.erase next
        thisproc := Function.update s.thisproc c next }
      if next = this then some { s with rqlock := none }
      else do
        let s ← s.attachPgdir c (.proc next)
        some { s with switched := Function.update s.switched this true }

/-- What follows `swtch`: the rest of `simple_sched`, or `proc_entry` -/
def land (c : ℕ) : Option AttachSys :=
  if s.switched (s.thisproc c) then do
    let s ← s.attachPgdir c (.proc (s.thisproc c))
    some { s with rqlock := none }
  else some { s with rqlock := none }

/-- `_activate_proc(p, onalert)` -/
def activateProc (p : ℕ) (onalert : Bool) : AttachSys :=
  if s.state p = .running ∨ s.state p = .runnable ∨ s.state p = .zombie ∨
      s.state p = .deepsleeping ∧ onalert then s
  else { s with state := Function.update s.state p .runnable, queue := p :: s.queue }

/-- A step on CPU `c`. -/
def act (c : ℕ) : AttachAct → Option AttachSys
  | .sched newState next =>
      if s.rqlock = none then simpleSched { s with rqlock := some c } c newState next else none
  | .land => if s.rqlock = some c then s.land c else none
  | .attach d => if s.rqlock = some c then none else s.attachPgdir c d
  | .activate p onalert => if s.rqlock = none then some (s.activateProc p onalert) else none
  | .activateGroup g =>
      if s.rqlock = none then some { s with active := Function.update s.active g true } else none
  | .kill p => some { s with killed := Function.update s.killed p true }
  | .panic => some { s with panicFlag := true }

def step (i : ℕ × AttachAct) : Option AttachSys :=
  if i.1 < s.cpus then s.act i.1 i.2 else none

end AttachSys

/-- **Online means running**, whenever the lock of the scheduler is free, and no lock of a
page directory is left. -/
def OnlineMeansRunning (s : AttachSys) : Prop :=
  s.rqlock = none →
    (∀ p, (s.pgdir (.proc p)).online = true ↔ ∃ c < s.cpus, s.ttbr0 c = some (.proc p)) ∧
    ∀ d, (s.pgdir d).locked = false

/-- A switch leaves a CPU with no directory attached, and `attach_pgdir` is called with the
caller's own directory or with one that has no table. -/
def AttachSafe (s : AttachSys) (i : ℕ × AttachAct) : Prop :=
  match i.2 with
  | .sched newState next =>
      next = s.thisproc i.1 ∨ (s.killed (s.thisproc i.1) ∧ newState ≠ .zombie) ∨
        s.ttbr0 i.1 = none
  | .attach d => d = .proc (s.thisproc i.1) ∨ (s.pgdir d).pt = false
  | _ => True

instance (s : AttachSys) : (i : ℕ × AttachAct) → Decidable (AttachSafe s i)
  | (c, .sched newState next) => inferInstanceAs (Decidable (next = s.thisproc c ∨
      (s.killed (s.thisproc c) = true ∧ newState ≠ .zombie) ∨ s.ttbr0 c = none))
  | (c, .attach d) =>
      inferInstanceAs (Decidable (d = .proc (s.thisproc c) ∨ (s.pgdir d).pt = false))
  | (_, .land) => inferInstanceAs (Decidable True)
  | (_, .activate _ _) => inferInstanceAs (Decidable True)
  | (_, .activateGroup _) => inferInstanceAs (Decidable True)
  | (_, .kill _) => inferInstanceAs (Decidable True)
  | (_, .panic) => inferInstanceAs (Decidable True)

/-- What such steps keep. -/
structure AttachInv (s : AttachSys) : Prop where
  running : ∀ c < s.cpus, s.state (s.thisproc c) = .running
  inj : ∀ c < s.cpus, ∀ c' < s.cpus, s.thisproc c = s.thisproc c' → c = c'
  /-- only the directory of the process that runs is attached -/
  own : ∀ c < s.cpus, ∀ d, s.ttbr0 c = some d → d = .proc (s.thisproc c)
  online : ∀ p, (s.pgdir (.proc p)).online = true ↔ ∃ c < s.cpus, s.ttbr0 c = some (.proc p)
  free : ∀ d, (s.pgdir d).locked = false

namespace AttachSys

variable {s s' : AttachSys} {c : ℕ} {d : Dir}

/-- **What a safe call of `attach_pgdir` does.** -/
theorem attachPgdir_eq (hfree : ∀ d, (s.pgdir d).locked = false)
    (hd : d = .proc (s.thisproc c) ∨ (s.pgdir d).pt = false) :
    s.attachPgdir c d = some { s with
      pgdir := Function.update s.pgdir (.proc (s.thisproc c))
        { s.pgdir (.proc (s.thisproc c)) with online := (s.pgdir d).pt }
      ttbr0 := Function.update s.ttbr0 c (if (s.pgdir d).pt then some d else none) } := by
  have hthis := hfree (.proc (s.thisproc c))
  rcases hd with rfl | hpt
  · cases hpt : (s.pgdir (.proc (s.thisproc c))).pt <;>
      simp [attachPgdir, acquire, setOnline, release, hthis, hpt]
  · have hpt' : (Function.update s.pgdir (.proc (s.thisproc c))
        ⟨(s.pgdir (.proc (s.thisproc c))).pt, false, false⟩ d).pt = false := by
      by_cases hd : d = .proc (s.thisproc c)
      · subst hd
        simpa using hpt
      · simpa [hd] using hpt
    simp [attachPgdir, acquire, setOnline, release, hthis, hpt, hpt']

end AttachSys

namespace AttachInv

variable {s s' : AttachSys} {c : ℕ} {d : Dir}

/-- The initial state. -/
theorem init (n : ℕ) (pt : Dir → Bool) (container : ℕ → ℕ) :
    AttachInv (.init n pt container) where
  running := by
    intro c hc
    simpa [AttachSys.init] using hc
  inj := fun _ _ _ _ h => h
  own := by simp [AttachSys.init]
  online := by simp [AttachSys.init]
  free := by simp [AttachSys.init]

/-- The invariant is about neither the lock and the queues of the scheduler nor `switched` and
`killed`. -/
theorem congr (h : AttachInv s) (hcpus : s'.cpus = s.cpus) (hthis : s'.thisproc = s.thisproc)
    (hstate : s'.state = s.state) (hdir : s'.pgdir = s.pgdir) (httbr : s'.ttbr0 = s.ttbr0) :
    AttachInv s' where
  running := by
    rw [hcpus, hthis, hstate]
    exact h.running
  inj := by
    rw [hcpus, hthis]
    exact h.inj
  own := by
    rw [hcpus, hthis, httbr]
    exact h.own
  online := by
    rw [hcpus, hdir, httbr]
    exact h.online
  free := by
    rw [hdir]
    exact h.free

/-- **A safe call of `attach_pgdir` keeps it.** -/
theorem attachPgdir (h : AttachInv s) (hc : c < s.cpus)
    (hd : d = .proc (s.thisproc c) ∨ (s.pgdir d).pt = false)
    (hs : s.attachPgdir c d = some s') : AttachInv s' := by
  rw [AttachSys.attachPgdir_eq h.free hd] at hs
  obtain rfl := Option.some.inj hs
  have hnew : ∀ e, (if (s.pgdir d).pt then some d else none) = some e →
      (s.pgdir d).pt = true ∧ e = .proc (s.thisproc c) := by
    intro e he
    cases hpt : (s.pgdir d).pt with
    | false => simp [hpt] at he
    | true =>
        rcases hd with rfl | hno
        · simpa [hpt, eq_comm] using he
        · simp [hpt] at hno
  -- nobody else runs the process, so that nobody else has its directory attached
  have helse : ∀ c' < s.cpus, c' ≠ c → s.ttbr0 c' ≠ some (.proc (s.thisproc c)) := by
    intro c' hc' hne hatt
    have := h.own c' hc' _ hatt
    exact hne (h.inj c' hc' c hc (Dir.proc.inj this).symm)
  constructor
  · exact h.running
  · exact h.inj
  · intro c' hc' e he
    dsimp only at he
    by_cases hcc : c' = c
    · subst hcc
      rw [Function.update_self] at he
      exact (hnew e he).2
    · rw [Function.update_of_ne hcc] at he
      exact h.own c' hc' e he
  · intro p
    by_cases hp : p = s.thisproc c
    · subst hp
      simp only [Function.update_self]
      constructor
      · intro hpt
        refine ⟨c, hc, ?_⟩
        rcases hd with rfl | hno
        · simp [hpt]
        · simp [hpt] at hno
      · rintro ⟨c', hc', hatt⟩
        by_cases hcc : c' = c
        · subst hcc
          rw [Function.update_self] at hatt
          exact (hnew _ hatt).1
        · rw [Function.update_of_ne hcc] at hatt
          exact absurd hatt (helse c' hc' hcc)
    · have hne : Dir.proc p ≠ .proc (s.thisproc c) := by simpa using hp
      simp only [Function.update_of_ne hne]
      rw [h.online]
      refine exists_congr fun c' => and_congr_right fun hc' => ?_
      by_cases hcc : c' = c
      · subst hcc
        rw [Function.update_self]
        exact ⟨fun hatt => absurd (h.own c' hc' _ hatt) hne,
          fun hatt => absurd (hnew _ hatt).2 hne⟩
      · rw [Function.update_of_ne hcc]
  · intro e
    by_cases he : e = .proc (s.thisproc c)
    · subst he
      simpa using h.free _
    · simpa [he] using h.free e

/-- **`simple_sched` keeps it** when it leaves no directory attached. -/
theorem simpleSched (h : AttachInv s) (hc : c < s.cpus) {newState : Procstate} {next : ℕ}
    (hok : next = s.thisproc c ∨ (s.killed (s.thisproc c) ∧ newState ≠ .zombie) ∨
      s.ttbr0 c = none)
    (hs : s.simpleSched c newState next = some s') : AttachInv s' := by
  simp only [AttachSys.simpleSched] at hs
  rw [if_neg (not_not.mpr (h.running c hc))] at hs
  by_cases hk : s.killed (s.thisproc c) = true ∧ newState ≠ .zombie
  · rw [if_pos hk] at hs
    obtain rfl := Option.some.inj hs
    exact h.congr rfl rfl rfl rfl rfl
  · rw [if_neg hk] at hs
    split at hs
    · cases hs
    · rename_i hpick
      have hnext := not_not.mp (not_or.mp hpick).2
      simp only [AttachSys.updateThisState] at hs hnext
      -- a process that runs elsewhere is not runnable
      have hother : ∀ c' < s.cpus, c' ≠ c → s.thisproc c' ≠ s.thisproc c ∧ s.thisproc c' ≠ next := by
        intro c' hc' hcc
        have hne : s.thisproc c' ≠ s.thisproc c := fun heq => hcc (h.inj c' hc' c hc heq)
        refine ⟨hne, ?_⟩
        rintro rfl
        rw [Function.update_of_ne hne, h.running c' hc'] at hnext
        cases hnext
      have hmid : ∀ c' < s.cpus, ∀ d, s.ttbr0 c' = some d → d = .proc (Function.update s.thisproc c
          next c') := by
        intro c' hc' d hatt
        by_cases hcc : c' = c
        · subst hcc
          rw [Function.update_self]
          rcases hok with rfl | hkill | hnone
          · exact h.own c' hc' d hatt
          · exact absurd hkill hk
          · rw [hnone] at hatt
            cases hatt
        · rw [Function.update_of_ne hcc]
          exact h.own c' hc' d hatt
      have ht : AttachInv { s.updateThisState c newState with
          state := Function.update (Function.update s.state (s.thisproc c) newState) next .running
          queue := (s.updateThisState c newState).queue.erase next
          thisproc := Function.update s.thisproc c next } := by
        constructor
        · intro c' hc'
          by_cases hcc : c' = c
          · subst hcc
            simp
          · obtain ⟨h1, h2⟩ := hother c' hc' hcc
            simp [hcc, h1, h2, h.running c' hc']
        · intro c₁ hc₁ c₂ hc₂ heq
          by_cases h1 : c₁ = c <;> by_cases h2 : c₂ = c
          · rw [h1, h2]
          · subst h1
            simp only [Function.update_self, Function.update_of_ne h2] at heq
            exact absurd heq.symm (hother c₂ hc₂ h2).2
          · subst h2
            simp only [Function.update_self, Function.update_of_ne h1] at heq
            exact absurd heq (hother c₁ hc₁ h1).2
          · simp only [Function.update_of_ne h1, Function.update_of_ne h2] at heq
            exact h.inj c₁ hc₁ c₂ hc₂ heq
        · exact hmid
        · exact h.online
        · exact h.free
      by_cases hsame : next = s.thisproc c
      · rw [if_pos hsame] at hs
        obtain rfl := Option.some.inj hs
        exact ht.congr rfl rfl rfl rfl rfl
      · rw [if_neg hsame, Option.bind_eq_bind, Option.bind_eq_some_iff] at hs
        obtain ⟨t, hatt, hs⟩ := hs
        obtain rfl := Option.some.inj hs
        have := ht.attachPgdir (d := .proc next) hc (.inl (by simp)) hatt
        exact this.congr rfl rfl rfl rfl rfl

/-- **A safe step keeps it.** -/
theorem step (h : AttachInv s) {i : ℕ × AttachAct} (hok : AttachSafe s i)
    (hs : s.step i = some s') : AttachInv s' := by
  obtain ⟨c, a⟩ := i
  by_cases hc : c < s.cpus
  · rw [AttachSys.step, if_pos hc] at hs
    cases a with
    | sched newState next =>
        simp only [AttachSys.act] at hs
        split at hs
        · have h' : AttachInv { s with rqlock := some c } := h.congr rfl rfl rfl rfl rfl
          exact h'.simpleSched hc hok hs
        · cases hs
    | land =>
        simp only [AttachSys.act, AttachSys.land] at hs
        split at hs
        · split at hs
          · rw [Option.bind_eq_bind, Option.bind_eq_some_iff] at hs
            obtain ⟨t, hatt, hs⟩ := hs
            obtain rfl := Option.some.inj hs
            exact (h.attachPgdir hc (.inl rfl) hatt).congr rfl rfl rfl rfl rfl
          · obtain rfl := Option.some.inj hs
            exact h.congr rfl rfl rfl rfl rfl
        · cases hs
    | attach d =>
        simp only [AttachSys.act] at hs
        split at hs
        · cases hs
        · exact h.attachPgdir hc hok hs
    | activate p onalert =>
        simp only [AttachSys.act, AttachSys.activateProc] at hs
        split at hs
        · split at hs
          · obtain rfl := Option.some.inj hs
            exact h
          · rename_i hp
            obtain rfl := Option.some.inj hs
            have hne : ∀ c < s.cpus, s.thisproc c ≠ p := by
              rintro c hc rfl
              exact hp (.inl (h.running c hc))
            exact ⟨fun c hc => by simp [hne c hc, h.running c hc], h.inj, h.own, h.online, h.free⟩
        · cases hs
    | activateGroup g =>
        simp only [AttachSys.act] at hs
        split at hs
        · obtain rfl := Option.some.inj hs
          exact h.congr rfl rfl rfl rfl rfl
        · cases hs
    | kill p | panic =>
        obtain rfl := Option.some.inj hs
        exact h.congr rfl rfl rfl rfl rfl
  · rw [AttachSys.step, if_neg hc] at hs
    cases hs

end AttachInv

/-- **Online means running** in every run of safe steps. -/
theorem online_means_running {n : ℕ} {pt : Dir → Bool} {container : ℕ → ℕ} {s : AttachSys}
    (h : Reach AttachSys.step AttachSafe (.init n pt container) s) : OnlineMeansRunning s := by
  have hinv : AttachInv s :=
    h.invariant (.init n pt container) fun _ _ _ hi hok hs => hi.step hok hs
  exact fun _ => ⟨hinv.online, hinv.free⟩

/-- Two CPUs: process 3, which has no page table and is in a container of its own, runs and goes to
sleep, and both CPUs start a process with a page table. -/
theorem online_means_running_started : ∃ s : AttachSys, OnlineMeansRunning s ∧ s.rqlock = none ∧
    (s.pgdir (.proc 2)).online = true := by
  have hrun : ((runs (fun s i => if decide (AttachSafe s i) then s.step i else none)
      (AttachSys.init 2 (fun d => d = .proc 2 ∨ d = .proc 4) fun p => if p = 3 then 1 else 0)
      [(0, .activate 3 false), (0, .sched .runnable 0), (0, .activateGroup 1),
        (1, .sched .runnable 3), (1, .land), (0, .activate 2 false), (0, .sched .runnable 2),
        (0, .land), (1, .sched .sleeping 1), (1, .land), (0, .activate 4 false),
        (1, .sched .runnable 4), (1, .land), (0, .attach (.proc 2))]).map
        fun s => (s.rqlock, (s.pgdir (.proc 2)).online)) = some (none, true) := by decide +kernel
  obtain ⟨s, hs, hlast⟩ := Option.map_eq_some_iff.mp hrun
  have hreach := Reach.init.of_tested (fun s i hi => of_decide_eq_true hi) _ hs
  exact ⟨s, online_means_running hreach, (Prod.mk.inj hlast).1, (Prod.mk.inj hlast).2⟩

/-! ## Steps that are not safe -/

section Unsafe

variable {s s' t : AttachSys} {c : ℕ}

/-- The lock of a directory that is not the caller's own is not released. -/
theorem AttachInv.attach_leaks (h : AttachInv s) {d : Dir} (hd : d ≠ .proc (s.thisproc c))
    (hpt : (s.pgdir d).pt = true) (hs : s.attachPgdir c d = some s') :
    (s'.pgdir d).locked = true := by
  simp [AttachSys.attachPgdir, AttachSys.acquire, AttachSys.setOnline, AttachSys.release, h.free, hd,
    hpt] at hs
  rw [← hs]
  simp [hd]

/-- The process `p` is online, and its directory is attached nowhere. -/
structure LeftOnline (s : AttachSys) (p : ℕ) : Prop where
  online : (s.pgdir (.proc p)).online = true
  detached : ∀ c < s.cpus, s.ttbr0 c ≠ some (.proc p)
  free : ∀ d, (s.pgdir d).locked = false

/-- Attaching the directory of the process that runs changes nothing about the others. -/
theorem attachPgdir_leaves {p q : ℕ} (hs : s.attachPgdir c (.proc q) = some s')
    (hq : s.thisproc c = q) (hp : q ≠ p) (hfree : ∀ d, (s.pgdir d).locked = false)
    (honline : (s.pgdir (.proc p)).online = true)
    (hdet : ∀ c' < s.cpus, c' ≠ c → s.ttbr0 c' ≠ some (.proc p)) :
    LeftOnline s' p ∧ s'.thisproc c = q := by
  subst hq
  rw [AttachSys.attachPgdir_eq hfree (.inl rfl)] at hs
  obtain rfl := Option.some.inj hs
  have hne : Dir.proc p ≠ .proc (s.thisproc c) := by simpa using hp.symm
  refine ⟨⟨?_, ?_, ?_⟩, rfl⟩
  · simpa [hne] using honline
  · intro c' hc'
    by_cases hcc : c' = c
    · subst hcc
      cases (s.pgdir (.proc (s.thisproc c'))).pt <;> simp [hp]
    · simpa [hcc] using hdet c' hc' hcc
  · intro d
    by_cases hd : d = .proc (s.thisproc c)
    · subst hd
      simpa using hfree _
    · simpa [hd] using hfree d

/-- **A switch away from a process whose directory is attached leaves it online.** -/
theorem AttachInv.switch_leaves (h : AttachInv s) (hc : c < s.cpus) {newState : Procstate}
    {next : ℕ} (hnext : next ≠ s.thisproc c)
    (hkill : ¬(s.killed (s.thisproc c) ∧ newState ≠ .zombie))
    (hatt : s.ttbr0 c = some (.proc (s.thisproc c)))
    (hs : s.simpleSched c newState next = some t) (hland : t.land c = some s') :
    LeftOnline s' (s.thisproc c) := by
  simp only [AttachSys.simpleSched] at hs
  rw [if_neg (not_not.mpr (h.running c hc)), if_neg hkill] at hs
  split at hs
  · cases hs
  simp only [AttachSys.updateThisState] at hs
  rw [Option.bind_eq_bind, Option.bind_eq_some_iff] at hs
  obtain ⟨u, hu, hs⟩ := hs
  obtain rfl := Option.some.inj hs
  have honline := (h.online (s.thisproc c)).mpr ⟨c, hc, hatt⟩
  have hdet : ∀ c' < s.cpus, c' ≠ c → s.ttbr0 c' ≠ some (.proc (s.thisproc c)) := by
    intro c' hc' hcc hatt'
    have := h.own c' hc' _ hatt'
    exact hcc (h.inj c' hc' c hc (Dir.proc.inj this).symm)
  obtain ⟨hleft, hthis⟩ := attachPgdir_leaves hu (by simp) hnext h.free honline hdet
  simp only [AttachSys.land] at hland
  split at hland
  · rw [Option.bind_eq_bind, Option.bind_eq_some_iff] at hland
    obtain ⟨v, hv, hland⟩ := hland
    obtain rfl := Option.some.inj hland
    obtain ⟨hlast, -⟩ := attachPgdir_leaves hv rfl (by rwa [hthis]) hleft.free hleft.online
      fun c' hc' _ => hleft.detached c' hc'
    exact ⟨hlast.online, hlast.detached, hlast.free⟩
  · obtain rfl := Option.some.inj hland
    exact ⟨hleft.online, hleft.detached, hleft.free⟩

end Unsafe

/-- A process that has gone to sleep is still online. -/
theorem switched_away_online : ∃ s : AttachSys,
    Reach AttachSys.step (fun _ _ => True) (.init 1 (fun d => d = .proc 1) fun _ => 0) s ∧
      ¬OnlineMeansRunning s := by
  have hrun : ((runs AttachSys.step (.init 1 (fun d => d = .proc 1) fun _ => 0)
      [(0, .activate 1 false), (0, .sched .runnable 1), (0, .land), (0, .sched .sleeping 0),
        (0, .land)]).map fun s => (s.rqlock, s.cpus, (s.pgdir (.proc 1)).online, s.ttbr0 0)) =
      some (none, 1, true, none) := by decide +kernel
  obtain ⟨s, hs, hlast⟩ := Option.map_eq_some_iff.mp hrun
  simp only [Prod.mk.injEq] at hlast
  obtain ⟨hlock, hcpus, honline, httbr⟩ := hlast
  refine ⟨s, Reach.init.of_runs _ hs, fun hall => ?_⟩
  obtain ⟨c, hc, hatt⟩ := ((hall hlock).1 1).mp honline
  obtain rfl : c = 0 := by omega
  rw [httbr] at hatt
  cases hatt

end OsLab
