import OsLab.Common.RbForest
import OsLab.Kernel.Attach
import Mathlib.Algebra.Ring.Int.Defs

/-!
# The scheduler

`kernel/sched.c`.  A process or a container is the address of its `schinfo`, whose first field
is the node of the tree; `group` tells the two apart.  The trees of all `schqueue`s lie in one
memory.  An `ASSERT` that fails, a read through `NULL` and a loop without an end are `none`.

The scheduler lock is held over each of these functions, so that one is one step.  What
belongs to the timers of the CPUs (`sched_timer`), to the page directory and to `swtch` is
left out: the functions do not read it back.

## Main definitions

* `SchedLayout` — the processes, the containers and how they are nested.
* `Sched` — the fields that the scheduler reads and writes.
* `activateProc`, `activateGroup`, `simpleSched` — the functions of the source.
-/

namespace OsLab

/-- `NCPU` -/
def ncpu : ℕ := 4

/-- **The processes and containers**, and the fields that are set before they are activated. -/
structure SchedLayout where
  /-- The processes, without the idle ones. -/
  procs : Set ℕ
  containers : List ℕ
  rootContainer : ℕ
  /-- `container->parent`, 0 for `NULL` -/
  parent : ℕ → ℕ
  /-- `proc->container` -/
  container : ℕ → ℕ
  /-- `schinfo.group` -/
  group : ℕ → Bool
  /-- `proc->idle` -/
  idle : ℕ → Bool
  /-- `cpus[i].sched.idle` -/
  idleOf : ℕ → ℕ
  /-- `con_to_weight[container->id]` -/
  conToWeight : ℕ → UInt64
  /-- How deep a container is nested. -/
  depth : ℕ → ℕ
  height : ℕ
  root_mem : rootContainer ∈ containers
  root_parent : parent rootContainer = 0
  parent_mem : ∀ g ∈ containers, g ≠ rootContainer → parent g ∈ containers
  depth_parent : ∀ g ∈ containers, g ≠ rootContainer → depth (parent g) < depth g
  depth_le : ∀ g ∈ containers, depth g ≤ height
  container_mem : ∀ p ∈ procs, container p ∈ containers
  container_node : ∀ g ∈ containers, IsNode g
  proc_node : ∀ p ∈ procs, IsNode p
  container_group : ∀ g ∈ containers, group g = true
  proc_group : ∀ p ∈ procs, group p = false
  proc_idle : ∀ p ∈ procs, idle p = false
  idle_idle : ∀ i, idle (idleOf i) = true
  idle_inj : ∀ i j, idleOf i = idleOf j → i = j

/-- What the scheduler reads and writes. -/
structure Sched where
  /-- `schinfo.rq` and `schqueue.rq` -/
  rq : RbForest
  /-- `schqueue.node_cnt` -/
  nodeCnt : ℕ → ℤ
  vruntime : ℕ → UInt64
  startTime : ℕ → UInt64
  skip : ℕ → Bool
  state : ℕ → Procstate
  killed : ℕ → Bool
  /-- `cpus[i].sched.thisproc` -/
  thisproc : ℕ → ℕ
  panicFlag : Bool

/-- `__sched_cmp(lnode, rnode)` -/
def schedCmp (vruntime : ℕ → UInt64) (lnode rnode : ℕ) : Bool :=
  let d := (vruntime lnode - vruntime rnode).toInt64
  if d < 0 then true
  else if d = 0 then lnode < rnode
  else false

namespace Sched

variable (L : SchedLayout) (s : Sched)

/-- The rounds for a loop over the tree of `g`: one for each node, and two. -/
def fuel (g : ℕ) : ℕ := (s.nodeCnt g).toNat + 2

/-- `ASSERT(_rb_insert(&node, &g->schqueue.rq, __sched_cmp) == 0)` -/
def enqueue (node g : ℕ) : Option Sched := do
  let (ret, m) ← rbInsert (schedCmp s.vruntime) (s.fuel g) node (s.rq.mem g)
  if ret = 0 then some { s with rq := s.rq.set g m } else none

/-- `_rb_erase(&node, &g->schqueue.rq)` -/
def dequeue (node g : ℕ) : Option Sched := do
  let m ← rbErase (s.fuel g) node (s.rq.mem g)
  some { s with rq := s.rq.set g m }

/-- `g->schqueue.node_cnt += d` -/
def addCnt (g : ℕ) (d : ℤ) : Sched :=
  { s with nodeCnt := Function.update s.nodeCnt g (s.nodeCnt g + d) }

def setState (p : ℕ) (st : Procstate) : Sched :=
  { s with state := Function.update s.state p st }

def setSkip (n : ℕ) (b : Bool) : Sched := { s with skip := Function.update s.skip n b }

/-- `schinfo.vruntime += delta_time` -/
def addVruntime (n : ℕ) (deltaTime : UInt64) : Sched :=
  { s with vruntime := Function.update s.vruntime n (s.vruntime n + deltaTime) }

/-- `_activate_proc(p, onalert)` -/
def activateProc (p : ℕ) (onalert : Bool) : Option (Bool × Sched) :=
  if s.state p = .running ∨ s.state p = .runnable ∨ s.state p = .zombie ∨
      (s.state p = .deepsleeping ∧ onalert) then some (false, s)
  else if s.state p = .sleeping ∨ s.state p = .unused ∨
      (s.state p = .deepsleeping ∧ ¬onalert) then do
    let s := s.setState p .runnable
    let s ← s.enqueue p (L.container p)
    some (true, s.addCnt (L.container p) 1)
  else some (true, s)

/-- `activate_group(group)` -/
def activateGroup (group : ℕ) : Option Sched := do
  let s ← s.enqueue group (L.parent group)
  some (s.addCnt (L.parent group) 1)

/-- The loop of `update_this_state` over the containers -/
def chargeLoop (deltaTime : UInt64) : ℕ → ℕ → Sched → Option Sched
  | 0, _, _ => none
  | fuel + 1, container, s =>
      if L.parent container = 0 then some s
      else do
        let s := s.addVruntime container deltaTime
        let s ← s.dequeue container (L.parent container)
        let s ← s.enqueue container (L.parent container)
        chargeLoop deltaTime fuel (L.parent container) s

/-- `(get_timestamp_ms() - start_time) * con_to_weight[container->id] / WEIGHT_SUM` -/
def deltaTime (this : ℕ) (now : UInt64) : UInt64 :=
  (now - s.startTime this) * L.conToWeight (L.container this) / 1

/-- `update_this_state(new_state)` on a CPU that runs `this` -/
def updateThisState (this : ℕ) (newState : Procstate) (now : UInt64) : Option Sched := do
  let s ←
    if ¬L.idle this ∧ s.state this = .running ∧ newState = .runnable then do
      let deltaTime := s.deltaTime L this now
      let s := s.addVruntime this deltaTime
      let s ← s.enqueue this (L.container this)
      let s := s.addCnt (L.container this) 1
      chargeLoop L deltaTime (L.depth (L.container this) + 1) (L.container this) s
    else some s
  some (s.setState this newState)

/-- `_rb_first_ex_p(n)` -/
def rbFirstExP : ℕ → ℕ → Option ℕ
  | 0, _ => none
  | fuel + 1, n =>
      if n = 0 then some 0
      else do
        let node := s.rq.nodes n
        let left ← if node.left ≠ 0 then rbFirstExP fuel node.left else some 0
        if left ≠ 0 then some left
        else if ¬(L.group n ∧ s.skip n) then some n
        else if node.right ≠ 0 then rbFirstExP fuel node.right
        else some 0

/-- `_rb_fix_skip(rt_node)` -/
def rbFixSkip : ℕ → ℕ → Sched → Option Sched
  | 0, _, _ => none
  | fuel + 1, rtNode, s =>
      if rtNode ≠ 0 then do
        let s := s.setSkip rtNode false
        let s ← if L.group rtNode then rbFixSkip fuel (s.rq.root rtNode) s else some s
        let s ← rbFixSkip fuel (s.rq.nodes rtNode).left s
        rbFixSkip fuel (s.rq.nodes rtNode).right s
      else some s

/-- `pick_next_r(rt)` on the CPU `cpu`, where `rt` is the tree of the container `g` -/
def pickNextR (cpu : ℕ) : ℕ → ℕ → Sched → Option (ℕ × Sched)
  | 0, _, _ => none
  | fuel + 1, g, s =>
      if s.panicFlag then some (L.idleOf cpu, s)
      else do
        let getNode ← s.rbFirstExP L (s.fuel g) (s.rq.root g)
        if g ≠ L.rootContainer ∧ s.nodeCnt g ≠ 0 ∧ getNode = 0 then
          pickNextR cpu fuel (L.parent g) (s.setSkip g true)
        else if getNode = 0 then some (L.idleOf cpu, s)
        else if ¬L.group getNode then do
          let s ← s.dequeue getNode (L.container getNode)
          let s := s.addCnt (L.container getNode) (-1)
          if 0 ≤ s.nodeCnt (L.container getNode) then some (getNode, s) else none
        else if s.nodeCnt getNode = 0 then pickNextR cpu fuel g (s.setSkip getNode true)
        else pickNextR cpu fuel getNode s

/-- The rounds for `pick_next_r`: each container is skipped once, and entered from above in
between. -/
def pickFuel : ℕ := (L.containers.length + 1) * (L.height + 2)

/-- The rounds for `_rb_fix_skip`: through the trees of nested containers -/
def fixFuel : ℕ := ((L.containers.map s.nodeCnt).sum.toNat + 2) * (L.height + 2)

/-- `pick_next()` -/
def pickNext (cpu : ℕ) : Option (ℕ × Sched) := do
  let (ret, s) ← pickNextR L cpu (pickFuel L) L.rootContainer s
  let s ← rbFixSkip L (s.fixFuel L) (s.rq.root L.rootContainer) s
  some (ret, s)

/-- `simple_sched(new_state)` on the CPU `cpu`; the clock is read at `now` and, for the process
that is switched to, at `later`. -/
def simpleSched (cpu : ℕ) (newState : Procstate) (now later : UInt64) : Option Sched :=
  let this := s.thisproc cpu
  if s.state this ≠ .running then none
  else if s.killed this ∧ newState ≠ .zombie then some s
  else do
    let s ← s.updateThisState L this newState now
    let (next, s) ← s.pickNext L cpu
    let s := { s with thisproc := Function.update s.thisproc cpu next }
    if s.state next ≠ .runnable then none
    else
      let s := s.setState next .running
      if next ≠ this then
        some { s with startTime := Function.update s.startTime next later }
      else some s

/-! ## The updates -/

variable {s : Sched} {g n m p q : ℕ} {d : ℤ} {st : Procstate} {b : Bool} {δ : UInt64}

@[simp] theorem setSkip_skip : (s.setSkip n b).skip n = b := Function.update_self ..
theorem setSkip_skip_of_ne (h : m ≠ n) : (s.setSkip n b).skip m = s.skip m :=
  Function.update_of_ne h ..
@[simp] theorem setSkip_rq : (s.setSkip n b).rq = s.rq := rfl
@[simp] theorem setSkip_nodeCnt : (s.setSkip n b).nodeCnt = s.nodeCnt := rfl
@[simp] theorem setSkip_vruntime : (s.setSkip n b).vruntime = s.vruntime := rfl

@[simp] theorem addVruntime_vruntime : (s.addVruntime n δ).vruntime n = s.vruntime n + δ :=
  Function.update_self ..
theorem addVruntime_vruntime_of_ne (h : m ≠ n) : (s.addVruntime n δ).vruntime m = s.vruntime m :=
  Function.update_of_ne h ..
@[simp] theorem addVruntime_rq : (s.addVruntime n δ).rq = s.rq := rfl
@[simp] theorem addVruntime_nodeCnt : (s.addVruntime n δ).nodeCnt = s.nodeCnt := rfl

@[simp] theorem setState_state : (s.setState p st).state p = st := Function.update_self ..
@[simp] theorem setState_rq : (s.setState p st).rq = s.rq := rfl
@[simp] theorem setState_nodeCnt : (s.setState p st).nodeCnt = s.nodeCnt := rfl
@[simp] theorem setState_vruntime : (s.setState p st).vruntime = s.vruntime := rfl

@[simp] theorem addCnt_nodeCnt : (s.addCnt g d).nodeCnt g = s.nodeCnt g + d :=
  Function.update_self ..
@[simp] theorem addCnt_rq : (s.addCnt g d).rq = s.rq := rfl
@[simp] theorem addCnt_vruntime : (s.addCnt g d).vruntime = s.vruntime := rfl

end Sched

end OsLab
