import OsLab.Lib.Ring
import OsLab.Lib.Run

/-!
# Message queues

`sys_msgsnd` and `sys_msgrcv` of `common/ipc.c` on one live queue, by any number of
processes.  A step is one section of a call under `msg_ids.lock`, what comes before the
first one or after the last one, a return from `_sched`, or one of the two halves of
`kill`.  A process that calls `_sched` takes the scheduler's lock before it gives up
`msg_ids.lock`, so that its falling asleep belongs to the section.

The nodes of `q_sender` and `q_receiver` lie on the stacks of the callers, one of each
kind for a process.  Their pointers are part of the state.  What a loop over a list
would read from the frame of a call that has returned is unknown, and there the model
has no step.

When `pipeline_send` meets a matching receiver whose buffer is too small it detaches
the node and goes on with `node->next`, which is now the node itself.  The loop does
not end and the lock is not released (`spinning`).

## Main definitions

* `IpcSys`, `IpcSys.step` — the queue and the processes.
* `pipelineSend`, `ssWakeup`, `findMsg` — the loops of the source.
-/

namespace OsLab

/-- `MAX_MSGNUM` -/
def maxMsgnum : ℕ := 256

/-- `struct msg_msg`, with a number of its own. -/
structure Msg where
  id : ℕ
  mtype : ℤ
  size : ℤ
  deriving DecidableEq, Repr

/-- The heads of the two waiting lists and the nodes on the stacks. -/
inductive IpcNode
  | qSender
  | qReceiver
  | sender (p : ℕ)
  | receiver (p : ℕ)
  deriving DecidableEq, Repr

/-- The errors of `ipc.h` that the two calls return. -/
inductive IpcError
  | enomem
  | einval
  | eagain
  | e2big
  | enomsg
  deriving DecidableEq, Repr

/-- Where a process is. -/
inductive IpcPhase
  | idle
  /-- at `retry` in `sys_msgsnd` -/
  | sending (m : Msg) (nowait : Bool)
  /-- in `_sched`, called by `sys_msgsnd` -/
  | sndWait (m : Msg) (nowait : Bool)
  /-- before the lock in `sys_msgrcv` -/
  | receiving (mtype size : ℤ) (nowait : Bool)
  /-- in `_sched`, called by `sys_msgrcv`; `rmsg` is `none` as long as nobody has stored there -/
  | rcvWait (mtype size : ℤ) (rmsg : Option (Option Msg))
  /-- `sys_msgrcv` has its `found_msg`, which is `none` if that was never stored -/
  | found (m : Option Msg) (size : ℤ)
  deriving DecidableEq, Repr

/-- How a call has ended. -/
inductive IpcReturn
  | sent (p : ℕ) (m : Msg)
  /-- the type stored in the buffer and the return value -/
  | received (p : ℕ) (m : Msg) (mtype ret : ℤ)
  /-- `sys_msgrcv` took what was on its stack for a message -/
  | garbage (p : ℕ)
  | error (p : ℕ) (e : IpcError)
  deriving DecidableEq, Repr

inductive IpcAct
  /-- `sys_msgsnd` up to `retry`; `mem` says whether `load_msg` gets its pages -/
  | msgsnd (mtype size : ℤ) (nowait mem : Bool)
  | send
  | msgrcv (mtype size : ℤ) (nowait : Bool)
  | receive
  /-- `_sched` returns -/
  | resume
  /-- the rest of `sys_msgrcv` -/
  | finish
  /-- `kill` sets the flag of the process -/
  | kill
  /-- `kill` calls `alert_proc` -/
  | alert
  deriving DecidableEq, Repr

/-- A queue and the processes that use it. -/
structure IpcSys where
  procs : ℕ
  maxMsg : ℕ
  sumMsg : ℕ
  links : Links IpcNode
  /-- `q_message` -/
  queued : List Msg
  phase : ℕ → IpcPhase
  killed : ℕ → Bool
  /-- the state is `SLEEPING` -/
  asleep : ℕ → Bool
  /-- a sender loops in `pipeline_send` and keeps the lock -/
  spinning : Bool
  /-- messages loaded so far -/
  nextId : ℕ
  /-- the calls that have returned, latest first -/
  log : List IpcReturn

/-- `testmsg(rqtype, type)` -/
def testmsg (rqtype type : ℤ) : Bool :=
  if rqtype = 0 then true
  else if rqtype < 0 then rqtype + type ≤ 0
  else rqtype = type

/-- The search of `sys_msgrcv` through `q_message`: `mtype` grows with every match. -/
def findMsg : ℤ → List Msg → Option Msg → Option Msg
  | _, [], found => found
  | mtype, m :: ms, found =>
      if testmsg mtype m.mtype then
        if mtype < -1 then findMsg (mtype + 1) ms (some m) else some m
      else findMsg mtype ms found

namespace IpcSys

/-- A queue made by `newque`, and `n` processes. -/
def init (n : ℕ) : IpcSys where
  procs := n
  maxMsg := maxMsgnum
  sumMsg := 0
  links := ⟨id, id⟩
  queued := []
  phase := fun _ => .idle
  killed := fun _ => false
  asleep := fun _ => false
  spinning := false
  nextId := 0
  log := []

def setPhase (s : IpcSys) (p : ℕ) (ph : IpcPhase) : IpcSys :=
  { s with phase := Function.update s.phase p ph }

/-- The call of `p` returns. -/
def ret (s : IpcSys) (p : ℕ) (r : IpcReturn) : IpcSys :=
  { s.setPhase p .idle with log := r :: s.log }

/-- `activate_proc` and, in these calls, `alert_proc` -/
def activate (s : IpcSys) (p : ℕ) : IpcSys :=
  { s with asleep := Function.update s.asleep p false }

/-- `_sched(SLEEPING)` returns at once to a process that has been killed. -/
def sched (s : IpcSys) (p : ℕ) : IpcSys :=
  { s with asleep := Function.update s.asleep p !s.killed p }

def detach (s : IpcSys) (a : IpcNode) : IpcSys := { s with links := s.links.detachFromList a }

/-- `_insert_into_list(head.prev, node)` -/
def append (s : IpcSys) (h a : IpcNode) : IpcSys :=
  { s with links := s.links.insertIntoList (s.links.prev h) a }

section
variable (s : IpcSys) (p : ℕ) (ph : IpcPhase) (r : IpcReturn) (h a : IpcNode)

@[simp] theorem setPhase_phase : (s.setPhase p ph).phase = Function.update s.phase p ph := rfl
@[simp] theorem setPhase_links : (s.setPhase p ph).links = s.links := rfl
@[simp] theorem setPhase_log : (s.setPhase p ph).log = s.log := rfl
@[simp] theorem ret_phase : (s.ret p r).phase = Function.update s.phase p .idle := rfl
@[simp] theorem ret_links : (s.ret p r).links = s.links := rfl
@[simp] theorem ret_log : (s.ret p r).log = r :: s.log := rfl
@[simp] theorem activate_phase : (s.activate p).phase = s.phase := rfl
@[simp] theorem activate_links : (s.activate p).links = s.links := rfl
@[simp] theorem activate_log : (s.activate p).log = s.log := rfl
@[simp] theorem sched_phase : (s.sched p).phase = s.phase := rfl
@[simp] theorem sched_links : (s.sched p).links = s.links := rfl
@[simp] theorem sched_log : (s.sched p).log = s.log := rfl
@[simp] theorem detach_phase : (s.detach a).phase = s.phase := rfl
@[simp] theorem detach_links : (s.detach a).links = s.links.detachFromList a := rfl
@[simp] theorem detach_log : (s.detach a).log = s.log := rfl
@[simp] theorem append_phase : (s.append h a).phase = s.phase := rfl
@[simp] theorem append_links :
    (s.append h a).links = s.links.insertIntoList (s.links.prev h) a := rfl
@[simp] theorem append_log : (s.append h a).log = s.log := rfl

end

/-- The loop of `pipeline_send` from `node` on; `fuel` bounds the rounds. -/
def pipelineSend (m : Msg) : ℕ → IpcNode → IpcSys → Option (Bool × IpcSys)
  | fuel + 1, .receiver q, s =>
      match s.phase q with
      | .rcvWait mtype size _ =>
          if testmsg mtype m.mtype then
            let s := (s.detach (.receiver q)).activate q
            if m.size > size then
              some (false, { s.setPhase q (.rcvWait mtype size (some none)) with spinning := true })
            else some (true, s.setPhase q (.rcvWait mtype size (some (some m))))
          else pipelineSend m fuel (s.links.next (.receiver q)) s
      | _ => none
  | _ + 1, .qReceiver, s => some (false, s)
  | _, _, _ => none

/-- `ss_wakeup(&msgq->q_sender)`; `fuel` bounds the rounds. -/
def ssWakeup : ℕ → IpcSys → Option IpcSys
  | 0, _ => none
  | fuel + 1, s =>
      match s.links.next .qSender with
      | .qSender => some s
      | .sender q =>
          match s.phase q with
          | .sndWait _ _ => ssWakeup fuel ((s.detach (.sender q)).activate q)
          | _ => none
      | _ => none

/-- The section of `sys_msgsnd` under the lock. -/
def send (s : IpcSys) (p : ℕ) : Option IpcSys :=
  match s.phase p with
  | .sending m nowait =>
      if s.sumMsg + 1 > s.maxMsg then
        if nowait then some (s.ret p (.error p .eagain))
        else some (((s.append .qSender (.sender p)).setPhase p (.sndWait m nowait)).sched p)
      else do
        let (direct, s) ← pipelineSend m (s.procs + 1) (s.links.next .qReceiver) s
        if s.spinning then some s
        else if direct then some (s.ret p (.sent p m))
        else some ({ s with
          queued := s.queued ++ [m]
          sumMsg := s.sumMsg + 1 }.ret p (.sent p m))
  | _ => none

/-- The section of `sys_msgrcv` under the lock. -/
def receive (s : IpcSys) (p : ℕ) : Option IpcSys :=
  match s.phase p with
  | .receiving mtype size nowait =>
      match findMsg mtype s.queued none with
      | some m =>
          if m.size > size then some (s.ret p (.error p .e2big))
          else do
            let s ← ssWakeup (s.procs + 1) { s with
              queued := s.queued.erase m
              sumMsg := s.sumMsg - 1 }
            some (s.setPhase p (.found (some m) size))
      | none =>
          if nowait then some (s.ret p (.error p .enomsg))
          else some (((s.append .qReceiver (.receiver p)).setPhase p
            (.rcvWait mtype size none)).sched p)
  | _ => none

/-- One step of process `p`. -/
def act (s : IpcSys) (p : ℕ) : IpcAct → Option IpcSys
  | .msgsnd mtype size nowait mem =>
      if s.phase p ≠ .idle then none
      else if size < 0 ∨ mtype < 1 then some (s.ret p (.error p .einval))
      else if mem = false then some (s.ret p (.error p .enomem))
      else some { s.setPhase p (.sending ⟨s.nextId, mtype, size⟩ nowait) with
        nextId := s.nextId + 1 }
  | .send => if s.spinning then none else s.send p
  | .msgrcv mtype size nowait =>
      if s.phase p ≠ .idle then none
      else if size < 0 then some (s.ret p (.error p .einval))
      else some (s.setPhase p (.receiving mtype size nowait))
  | .receive => if s.spinning then none else s.receive p
  | .resume =>
      if s.asleep p then none
      else match s.phase p with
        | .sndWait m nowait => some (s.setPhase p (.sending m nowait))
        | .rcvWait _ size none => some (s.setPhase p (.found none size))
        | .rcvWait _ _ (some none) => some (s.ret p (.error p .e2big))
        | .rcvWait _ size (some (some m)) => some (s.setPhase p (.found (some m) size))
        | _ => none
  | .finish =>
      match s.phase p with
      | .found (some m) size => some (s.ret p (.received p m m.mtype (min size m.size)))
      | .found none _ => some (s.ret p (.garbage p))
      | _ => none
  | .kill => some { s with killed := Function.update s.killed p true }
  | .alert => if s.killed p then some (s.activate p) else none

def step (s : IpcSys) (i : ℕ × IpcAct) : Option IpcSys :=
  if i.1 < s.procs then s.act i.1 i.2 else none

end IpcSys

end OsLab
