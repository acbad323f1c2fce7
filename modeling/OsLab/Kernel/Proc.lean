import OsLab.Common.Sem
import OsLab.Lib.Ring
import OsLab.Lib.Run

/-!
# Processes

The processes of `kernel/proc.c`: `create_proc`, `set_parent_to_this`, `start_proc`,
`exit`, `wait` and `kill`, with the containers they live in.  A process is the address
of its `struct proc`, which `wait` gives back and a later `create_proc` may get again;
the number `birth` tells the processes at one address apart.

A step is a section of a call under `plock`, or what lies between two of them.  The last
thing `exit` does under `plock` is to take the scheduler's lock, which it keeps until the
process is a `ZOMBIE`: in between the process is `dying`, and nobody else gets into
`is_zombie`, `activate_proc` or the end of `exit`.  `RUNNING` and `RUNNABLE` are one
state here.

Until it is started a process is known only to its creator, who alone gives it a parent
or a container and starts it, as all callers do.  A failed `ASSERT` is `none`; the
`PANIC` at the end of `wait` is recorded.

## Main definitions

* `ProcSys`, `ProcSys.step` — the processes and what they do.
* `ProcSys.kidsOf` — a loop over the children of a process.
* `ProcSys.dfs` — the search of `kill`.
* `ProcSys.step_cases` — what a step can do.
-/

namespace OsLab

/-- `PID_NUM` -/
def pidNum : ℕ := 100

inductive ProcState
  | unused
  | runnable
  | sleeping
  | zombie
  deriving DecidableEq, Repr

/-- `struct pid_pool`.  What `freelist` has from index `PID_NUM` on is memory that nothing else
uses here.  In the source `freelist[PID_NUM]` is `avail`, with other variables behind it, so that
the runs of the source are those in which no index gets there (`PidsIdentify.inside`). -/
structure PidPool where
  freelist : ℕ → ℤ
  avail : ℕ

namespace PidPool

/-- A pool with all pids, if `junk` lies behind the array. -/
def init (junk : ℕ → ℤ) : PidPool := ⟨fun i => if i < pidNum then i else junk i, 0⟩

/-- `freelist[avail++]` -/
def take (p : PidPool) : ℤ × PidPool := (p.freelist p.avail, { p with avail := p.avail + 1 })

/-- `freelist[--avail] = pid` -/
def give (p : PidPool) (pid : ℤ) : PidPool :=
  ⟨Function.update p.freelist (p.avail - 1) pid, p.avail - 1⟩

end PidPool

/-- `struct proc` -/
structure Proc where
  state : ProcState
  parent : Option ℕ
  pid : ℤ
  localpid : ℤ
  exitcode : ℤ
  container : ℕ
  childexit : Semaphore
  killed : Bool
  /-- how many processes were created before -/
  birth : ℕ
  /-- the `birth` of the process that called `create_proc` -/
  creator : ℕ

/-- The list nodes of a `struct proc`. -/
inductive PNode
  | children (p : ℕ)
  | ptnode (p : ℕ)
  deriving DecidableEq, Repr

/-- `container_of` -/
def PNode.proc : PNode → ℕ
  | .children p => p
  | .ptnode p => p

/-- Where a process is. -/
inductive ProcPhase
  | idle
  /-- in `wait`, before `wait_sem` -/
  | waiting
  /-- in `sched`, called by `_wait_sem`, with `wait->up` -/
  | inSem (up : Bool)
  /-- `wait_sem` has returned true -/
  | token
  /-- in `kill`, before `alert_proc`; `born` is the `birth` of the process that was found -/
  | alerting (target born : ℕ)
  deriving DecidableEq, Repr

/-- What a process took along when it exited. -/
structure Exited where
  birth : ℕ
  exitcode : ℤ
  localpid : ℤ
  pid : ℤ
  deriving DecidableEq, Repr

/-- What a `wait` has returned, for which process, and that process's parent. -/
structure Reaped where
  reaper : ℕ
  parent : Option ℕ
  child : Exited
  deriving DecidableEq, Repr

/-- An `alert_proc` by `kill`: the process found, and the one at that address now, if any. -/
structure Alerted where
  found : ℕ
  now : Option ℕ
  deriving DecidableEq, Repr

inductive ProcAct
  /-- `create_proc`, if `kalloc` returns `a` -/
  | createProc (a : ℕ)
  | setParentToThis (c : ℕ)
  | setContainerToThis (c : ℕ)
  /-- `create_container` makes `c` the root process of a new container -/
  | createContainer (c : ℕ)
  | startProc (c : ℕ)
  | exit (code : ℤ)
  /-- `sched(ZOMBIE)` -/
  | zombie
  /-- `wait` up to `wait_sem` -/
  | wait
  | waitSem
  /-- `sched` returns to `_wait_sem` -/
  | resume
  /-- the rest of `wait` -/
  | reap
  /-- `kill` up to `alert_proc` -/
  | kill (pid : ℤ)
  | alert
  deriving DecidableEq, Repr

structure ProcSys where
  allocated : ℕ → Bool
  proc : ℕ → Proc
  phase : ℕ → ProcPhase
  links : Links PNode
  /-- the root process of each container -/
  rootproc : ℕ → ℕ
  containers : ℕ
  /-- `global_pids` -/
  pids : PidPool
  /-- the local pids of each container -/
  localPids : ℕ → PidPool
  /-- what lies behind the arrays of new pid pools -/
  junk : ℕ → ℤ
  /-- has left `plock` in `exit`, and holds the scheduler's lock -/
  dying : Option ℕ
  /-- processes created so far -/
  births : ℕ
  exits : List Exited
  reaped : List Reaped
  alerts : List Alerted
  panicked : Bool

namespace ProcSys

variable (s : ProcSys)

/-- `&root_proc` -/
def root : ℕ := 0

def setProc (p : ℕ) (x : Proc) : ProcSys := { s with proc := Function.update s.proc p x }

def setPhase (p : ℕ) (ph : ProcPhase) : ProcSys :=
  { s with phase := Function.update s.phase p ph }

/-- The process has passed the post in `exit`. -/
def exited (p : ℕ) : Bool := (s.proc p).state = .zombie ∨ s.dying = some p

/-- The nodes that a loop over the children of `p` visits. -/
def kidsOf (p : ℕ) : Option (List ℕ) :=
  (s.links.nodes (.children p) (s.births + 1)).map (List.map PNode.proc)

/-- `post_sem(&p->childexit)` -/
def postSem (p : ℕ) : Option ProcSys := do
  let (woken, sem) ← (s.proc p).childexit.postSem
  let s := s.setProc p { s.proc p with childexit := sem }
  match woken with
  | none => some s
  | some w =>
      let s := s.setPhase w (.inSem true)
      some (if (s.proc w).state = .sleeping then s.setProc w { s.proc w with state := .runnable }
        else s)

/-- The first loop of `exit`: the new parent learns of the children that are dead. -/
def postZombies (r : ℕ) : List ℕ → ProcSys → Option ProcSys
  | [], s => some s
  | c :: cs, s =>
      if (s.proc c).state = .zombie then (s.postSem r).bind (postZombies r cs)
      else postZombies r cs s

/-- The second loop of `exit`: the children get a new parent. -/
def setParents (r : ℕ) : List ℕ → ProcSys → ProcSys
  | [], s => s
  | c :: cs, s => setParents r cs (s.setProc c { s.proc c with parent := some r })

/-- The list of the children of `t` is merged into that of `r`. -/
def mergeChildren (t r : ℕ) : ProcSys :=
  let first := s.links.next (.children t)
  if first = .children t then s
  else { s with links := (s.links.detachFromList (.children t)).mergeList first (.children r) }

def createProc (t a : ℕ) : ProcSys :=
  let (pid, pids) := s.pids.take
  { s with
    allocated := Function.update s.allocated a true
    proc := Function.update s.proc a ⟨.unused, none, pid, 0, 0, 0, .initSem 0, false, s.births,
      (s.proc t).birth⟩
    phase := Function.update s.phase a .idle
    links := (s.links.initListNode (.children a)).initListNode (.ptnode a)
    pids := pids
    births := s.births + 1 }

/-- `c` becomes the first child of `p`. -/
def addChild (p c : ℕ) : ProcSys :=
  { s.setProc c { s.proc c with parent := some p } with
    links := s.links.insertIntoList (.children p) (.ptnode c) }

def createContainer (c : ℕ) : ProcSys :=
  { s.setProc c { s.proc c with container := s.containers } with
    rootproc := Function.update s.rootproc s.containers c
    containers := s.containers + 1
    localPids := Function.update s.localPids s.containers (.init s.junk) }

def startProc (c : ℕ) : ProcSys :=
  let s := if (s.proc c).parent = none then s.addChild root c else s
  let k := (s.proc c).container
  let (id, pool) := (s.localPids k).take
  { s.setProc c { s.proc c with localpid := id, state := .runnable } with
    localPids := Function.update s.localPids k pool }

def exit (t : ℕ) (code : ℤ) : Option ProcSys := do
  let r := s.rootproc (s.proc t).container
  if t = r ∨ s.dying ≠ none then none
  else do
    let kids ← s.kidsOf t
    let s ← postZombies r kids (s.setProc t { s.proc t with exitcode := code })
    let s := (setParents r kids s).mergeChildren t r
    let parent ← (s.proc t).parent
    let s ← s.postSem parent
    let x := s.proc t
    some { s with
      pids := s.pids.give x.pid
      dying := some t
      exits := ⟨x.birth, code, x.localpid, x.pid⟩ :: s.exits }

def waitSem (t : ℕ) : Option ProcSys :=
  let (got, sem) := (s.proc t).childexit.waitSem t
  let x := { s.proc t with childexit := sem }
  if got then some ((s.setProc t x).setPhase t .token)
  else if s.dying ≠ none then none
  else some ((s.setProc t { x with state := if x.killed then .runnable else .sleeping }).setPhase t
    (.inSem false))

/-- `wait_sem` returns false. -/
def interrupted (t : ℕ) : Option ProcSys :=
  let sem := (s.proc t).childexit
  if sem.val + 1 ≤ 0 then
    some ((s.setProc t { s.proc t with
      childexit := ⟨sem.val + 1, sem.sleeplist.erase t⟩ }).setPhase t .idle)
  else none

/-- The end of `wait` once the zombie child `c` is found. -/
def free (t c : ℕ) : ProcSys :=
  let x := s.proc c
  { s.setPhase t .idle with
    localPids := Function.update s.localPids x.container
      ((s.localPids x.container).give x.localpid)
    links := s.links.detachFromList (.ptnode c)
    allocated := Function.update s.allocated c false
    reaped := ⟨(s.proc t).birth, x.parent.map fun p => (s.proc p).birth,
      ⟨x.birth, x.exitcode, x.localpid, x.pid⟩⟩ :: s.reaped }

def reap (t : ℕ) : Option ProcSys :=
  if s.dying ≠ none then none
  else do
    let kids ← s.kidsOf t
    match kids.find? fun c => (s.proc c).state = .zombie with
    | some c => some (s.free t c)
    | none => some { s with panicked := true }

/-- `dfs(proc, pid, false)`; `fuel` bounds the depth. -/
def dfs (pid : ℤ) : ℕ → ℕ → Option ℕ
  | 0, _ => none
  | fuel + 1, p =>
      if (s.proc p).pid = pid ∧ (s.proc p).state ≠ .unused then some p
      else ((s.kidsOf p).getD []).findSome? (dfs pid fuel)

def kill (t : ℕ) (pid : ℤ) : ProcSys :=
  match s.dfs pid s.births root with
  | none => s
  | some a => (s.setProc a { s.proc a with killed := true }).setPhase t
      (.alerting a (s.proc a).birth)

/-- `alert_proc`, on whatever is at the address now. -/
def alert (t a born : ℕ) : ProcSys :=
  let x := s.proc a
  { (s.setProc a { x with
      state := if x.state = .sleeping ∨ x.state = .unused then .runnable else x.state }).setPhase t
        .idle with
    alerts := ⟨born, if s.allocated a then some x.birth else none⟩ :: s.alerts }

/-- The process that `create_proc` returned to `t` and that is not started yet. -/
def mine (t c : ℕ) : Bool :=
  s.allocated c ∧ (s.proc c).state = .unused ∧ (s.proc c).creator = (s.proc t).birth

/-- A step of a process that is in none of these functions. -/
def call (t : ℕ) : ProcAct → Option ProcSys
  | .createProc a => if s.allocated a then none else some (s.createProc t a)
  | .setParentToThis c =>
      if s.mine t c ∧ (s.proc c).parent = none then some (s.addChild t c) else none
  | .setContainerToThis c =>
      if s.mine t c ∧ s.rootproc (s.proc c).container ≠ c then
        some (s.setProc c { s.proc c with container := (s.proc t).container })
      else none
  | .createContainer c =>
      if s.mine t c ∧ s.rootproc (s.proc c).container ≠ c then some (s.createContainer c) else none
  | .startProc c => if s.mine t c ∧ s.dying = none then some (s.startProc c) else none
  | .exit code => s.exit t code
  | .wait =>
      if s.links.next (.children t) = .children t then some s else some (s.setPhase t .waiting)
  | .kill pid => some (s.kill t pid)
  | _ => none

def step (i : ℕ × ProcAct) : Option ProcSys :=
  let t := i.1
  if s.panicked ∨ s.allocated t = false then none
  else if i.2 = .zombie then
    if s.dying = some t then
      some { s.setProc t { s.proc t with state := .zombie } with dying := none }
    else none
  else if (s.proc t).state ≠ .runnable ∨ s.dying = some t then none
  else match s.phase t, i.2 with
    | .waiting, .waitSem => s.waitSem t
    | .inSem true, .resume => some (s.setPhase t .token)
    | .inSem false, .resume => s.interrupted t
    | .token, .reap => s.reap t
    | .alerting a born, .alert => if s.dying = none then some (s.alert t a born) else none
    | .idle, a => s.call t a
    | _, _ => none

/-- After the initialization of `root_proc`. -/
def start (junk : ℕ → ℤ) : ProcSys where
  allocated := fun p => p = root
  proc := fun _ => ⟨.runnable, some root, 1, 0, 0, 0, .initSem 0, false, 0, 0⟩
  phase := fun _ => .idle
  links := ⟨id, id⟩
  rootproc := fun _ => root
  containers := 1
  pids := ⟨(PidPool.init junk).freelist, 2⟩
  localPids := fun _ => ⟨(PidPool.init junk).freelist, 1⟩
  junk := junk
  dying := none
  births := 1
  exits := []
  reaped := []
  alerts := []
  panicked := false

/-! ## What a step can do -/

/-- What the running process `t` can do, and the state after it. -/
inductive Move (s : ProcSys) (t : ℕ) : ProcAct → ProcSys → Prop
  | createProc {a : ℕ} (hph : s.phase t = .idle) (ha : s.allocated a = false) :
      Move s t (.createProc a) (s.createProc t a)
  | setParentToThis {c : ℕ} (hph : s.phase t = .idle) (hc : s.mine t c = true)
      (hp : (s.proc c).parent = none) : Move s t (.setParentToThis c) (s.addChild t c)
  | setContainerToThis {c : ℕ} (hph : s.phase t = .idle) (hc : s.mine t c = true)
      (hr : s.rootproc (s.proc c).container ≠ c) : Move s t (.setContainerToThis c)
        (s.setProc c { s.proc c with container := (s.proc t).container })
  | createContainer {c : ℕ} (hph : s.phase t = .idle) (hc : s.mine t c = true)
      (hr : s.rootproc (s.proc c).container ≠ c) : Move s t (.createContainer c)
        (s.createContainer c)
  | startProc {c : ℕ} (hph : s.phase t = .idle) (hc : s.mine t c = true) (hd : s.dying = none) :
      Move s t (.startProc c) (s.startProc c)
  | exit {code : ℤ} {s' : ProcSys} (hph : s.phase t = .idle) (hs : s.exit t code = some s') :
      Move s t (.exit code) s'
  | waitAlone (hph : s.phase t = .idle) : Move s t .wait s
  | wait (hph : s.phase t = .idle) : Move s t .wait (s.setPhase t .waiting)
  | waitSem {s' : ProcSys} (hph : s.phase t = .waiting) (hs : s.waitSem t = some s') :
      Move s t .waitSem s'
  | resume (hph : s.phase t = .inSem true) : Move s t .resume (s.setPhase t .token)
  | interrupted {s' : ProcSys} (hph : s.phase t = .inSem false)
      (hs : s.interrupted t = some s') : Move s t .resume s'
  | reap {s' : ProcSys} (hph : s.phase t = .token) (hs : s.reap t = some s') : Move s t .reap s'
  | kill {pid : ℤ} (hph : s.phase t = .idle) : Move s t (.kill pid) (s.kill t pid)
  | alert {a born : ℕ} (hph : s.phase t = .alerting a born) (hd : s.dying = none) :
      Move s t .alert (s.alert t a born)

variable {s}

theorem call_cases {s' : ProcSys} {t : ℕ} {a : ProcAct} (hph : s.phase t = .idle)
    (h : s.call t a = some s') : Move s t a s' := by
  cases a with
  | createProc b =>
      simp only [call] at h
      split_ifs at h with hb
      cases h
      exact .createProc hph (by simpa using hb)
  | setParentToThis c =>
      simp only [call] at h
      split_ifs at h with hc
      cases h
      exact .setParentToThis hph hc.1 hc.2
  | setContainerToThis c =>
      simp only [call] at h
      split_ifs at h with hc
      cases h
      exact .setContainerToThis hph hc.1 hc.2
  | createContainer c =>
      simp only [call] at h
      split_ifs at h with hc
      cases h
      exact .createContainer hph hc.1 hc.2
  | startProc c =>
      simp only [call] at h
      split_ifs at h with hc
      cases h
      exact .startProc hph hc.1 hc.2
  | exit code => exact .exit hph h
  | wait =>
      simp only [call] at h
      split_ifs at h with hc
      · cases h
        exact .waitAlone hph
      · cases h
        exact .wait hph
  | kill pid =>
      cases h
      exact .kill hph
  | _ => cases h

/-- **A step.** -/
theorem step_cases {s' : ProcSys} {t : ℕ} {a : ProcAct} (h : s.step (t, a) = some s') :
    s.panicked = false ∧ s.allocated t = true ∧
      (a = .zombie ∧ s.dying = some t ∧
        s' = { s.setProc t { s.proc t with state := .zombie } with dying := none } ∨
      a ≠ .zombie ∧ (s.proc t).state = .runnable ∧ s.dying ≠ some t ∧ Move s t a s') := by
  rw [step] at h
  by_cases hp : s.panicked = true ∨ s.allocated t = false
  · rw [if_pos hp] at h
    cases h
  rw [if_neg hp] at h
  rw [not_or, Bool.not_eq_true, Bool.not_eq_false] at hp
  refine ⟨hp.1, hp.2, ?_⟩
  by_cases hz : a = .zombie
  · rw [if_pos hz] at h
    split_ifs at h with hd
    cases h
    exact .inl ⟨hz, hd, rfl⟩
  rw [if_neg hz] at h
  by_cases hrun : (s.proc t).state ≠ .runnable ∨ s.dying = some t
  · rw [if_pos hrun] at h
    cases h
  rw [if_neg hrun] at h
  rw [not_or, not_not] at hrun
  refine .inr ⟨hz, hrun.1, hrun.2, ?_⟩
  dsimp only at h
  split at h
  case h_1 hph => exact .waitSem hph h
  case h_2 hph =>
    cases h
    exact .resume hph
  case h_3 hph => exact .interrupted hph h
  case h_4 hph => exact .reap hph h
  case h_5 hph =>
    split_ifs at h with hd
    cases h
    exact .alert hph hd
  case h_6 hph => exact call_cases hph h
  case h_7 => cases h

/-! ## Creation and adoption -/

section Members

variable {t a p c q : ℕ}

/-- A new process is none of the old ones. -/
theorem ne_of_free (ha : s.allocated a = false) (hq : s.allocated q = true) : q ≠ a := by
  rintro rfl
  rw [ha] at hq
  cases hq

theorem createProc_proc_self : (s.createProc t a).proc a =
    ⟨.unused, none, (s.pids.take).1, 0, 0, 0, .initSem 0, false, s.births, (s.proc t).birth⟩ := by
  simp [createProc]

theorem createProc_proc_of_ne (hq : q ≠ a) : (s.createProc t a).proc q = s.proc q := by
  simp [createProc, hq]

theorem createProc_allocated :
    (s.createProc t a).allocated q = true ↔ q = a ∨ s.allocated q = true := by
  by_cases hq : q = a
  · simp [createProc, hq]
  · simp [createProc, hq]

theorem createProc_exited_of_ne (hq : q ≠ a) : (s.createProc t a).exited q = s.exited q := by
  simp only [exited, createProc_proc_of_ne hq]
  rfl

theorem addChild_proc (q : ℕ) : (s.addChild p c).proc q =
    { s.proc q with parent := if q = c then some p else (s.proc q).parent } := by
  by_cases hq : q = c
  · subst hq
    simp [addChild, setProc]
  · simp [addChild, setProc, hq]

theorem addChild_proc_self :
    (s.addChild p c).proc c = { s.proc c with parent := some p } := by
  rw [addChild_proc, if_pos rfl]

theorem addChild_proc_of_ne (hq : q ≠ c) : (s.addChild p c).proc q = s.proc q := by
  rw [addChild_proc, if_neg hq]

theorem addChild_exited : (s.addChild p c).exited = s.exited := by
  funext q
  simp only [exited, addChild_proc]
  rfl

end Members

/-! ## A process that goes on -/

theorem mine_iff {t c : ℕ} : s.mine t c = true ↔ s.allocated c = true ∧
    (s.proc c).state = .unused ∧ (s.proc c).creator = (s.proc t).birth := by
  simp [mine]

/-- `t` goes on in `wait`: its semaphore, its state and its phase change. -/
def GoesOn (s : ProcSys) (t : ℕ) (s' : ProcSys) : Prop :=
  ∃ (x : Proc) (ph : ProcPhase), s' = (s.setProc t x).setPhase t ph ∧
    x = { s.proc t with childexit := x.childexit, state := x.state } ∧
    (x.state = .runnable ∨ x.state = .sleeping)

theorem goesOn_setPhase {t : ℕ} (hrun : (s.proc t).state = .runnable) (ph : ProcPhase) :
    s.GoesOn t (s.setPhase t ph) := by
  refine ⟨s.proc t, ph, ?_, rfl, .inl hrun⟩
  simp [setProc]

theorem waitSem_goesOn {s' : ProcSys} {t : ℕ} (hrun : (s.proc t).state = .runnable)
    (h : s.waitSem t = some s') : s.GoesOn t s' := by
  simp only [waitSem] at h
  split_ifs at h with hgot hd hk
  · cases h
    exact ⟨_, _, rfl, rfl, .inl hrun⟩
  · cases h
    exact ⟨_, _, rfl, rfl, .inl rfl⟩
  · cases h
    exact ⟨_, _, rfl, rfl, .inr rfl⟩

theorem interrupted_goesOn {s' : ProcSys} {t : ℕ} (hrun : (s.proc t).state = .runnable)
    (h : s.interrupted t = some s') : s.GoesOn t s' := by
  simp only [interrupted] at h
  split_ifs at h
  cases h
  exact ⟨_, _, rfl, rfl, .inl hrun⟩

/-- `wait`, up to the point where the child is reaped. -/
theorem Move.goesOn {s' : ProcSys} {t : ℕ} {a : ProcAct} (h : Move s t a s')
    (hrun : (s.proc t).state = .runnable) (ha : a = .wait ∨ a = .waitSem ∨ a = .resume) :
    s.GoesOn t s' := by
  cases h with
  | waitAlone hph =>
      have hsame := goesOn_setPhase hrun (s.phase t)
      have hid : s.setPhase t (s.phase t) = s := by simp [setPhase]
      rwa [hid] at hsame
  | wait hph => exact goesOn_setPhase hrun _
  | waitSem hph hs => exact waitSem_goesOn hrun hs
  | resume hph => exact goesOn_setPhase hrun _
  | interrupted hph hs => exact interrupted_goesOn hrun hs
  | _ => simp at ha

end ProcSys

end OsLab
