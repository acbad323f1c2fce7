import OsLab.Common.IpcTable
import OsLab.Common.IpcRuns

/-!
# Removing a message queue

`freeque` is to wake up everybody who waits at the queue.  It calls `ss_wakeup` on
`q_receiver`, which takes the nodes there for those of senders: the receivers wake up,
but nobody stores a `NULL` for them, and `expunge_all` finds the list empty.  The senders
are not woken up, and their nodes stay linked to the memory of the queue.

## Main definitions

* `IpcSys.removeQueue` — what `freeque` does to the queue.
* `MsgSys.sysMsgctl` — the call.
* `Releases` — everybody and everything is released.
* `releases_iff` — when that is so.
-/

namespace OsLab

namespace IpcSys

/-- `ss_wakeup(&msgq->q_receiver)`; `proc` is at the same place in both kinds of nodes. -/
def ssWakeupReceiver : ℕ → IpcSys → Option IpcSys
  | 0, _ => none
  | fuel + 1, s =>
      match s.links.next .qReceiver with
      | .qReceiver => some s
      | .receiver q =>
          match s.phase q with
          | .rcvWait _ _ _ => ssWakeupReceiver fuel ((s.detach (.receiver q)).activate q)
          | _ => none
      | _ => none

/-- `expunge_all(msgq)` -/
def expungeAll : ℕ → IpcSys → Option IpcSys
  | 0, _ => none
  | fuel + 1, s =>
      match s.links.next .qReceiver with
      | .qReceiver => some s
      | .receiver q =>
          match s.phase q with
          | .rcvWait mtype size _ => expungeAll fuel (((s.detach (.receiver q)).setPhase q
              (.rcvWait mtype size (some none))).activate q)
          | _ => none
      | _ => none

/-- The loop of `freeque` over `q_message`, with the messages freed so far. -/
def freeMsgs : List Msg → List Msg → List Msg
  | [], freed => freed
  | m :: ms, freed => freeMsgs ms (m :: freed)

/-- What `freeque` does to the queue, and the messages it frees. -/
def removeQueue (s : IpcSys) : Option (IpcSys × List Msg) := do
  let s ← ssWakeupReceiver (s.procs + 1) s
  let s ← expungeAll (s.procs + 1) s
  some ({ s with queued := [] }, freeMsgs s.queued [])

end IpcSys

/-- The table, and the queues by their numbers. -/
structure MsgSys where
  ids : IpcIds
  queue : ℕ → IpcSys
  /-- the messages freed, latest first -/
  freed : List Msg

/-- `sys_msgctl(msgid, IPC_RMID)` -/
def MsgSys.sysMsgctl (w : MsgSys) (msgid : ℤ) : Option MsgSys := do
  let ids ← w.ids.freeque msgid
  match ← w.ids.getMsgq msgid with
  | none => some w
  | some q => do
      let (s, freed) ← (w.queue q.num).removeQueue
      some ⟨ids, Function.update w.queue q.num s, freed ++ w.freed⟩

/-- The senders `snd` and the receivers `rcv` wait at the queue. -/
structure Waiting (s : IpcSys) (snd rcv : List ℕ) : Prop where
  sring : IsRing s.links .qSender (snd.map .sender)
  rring : IsRing s.links .qReceiver (rcv.map .receiver)
  sblock : ∀ p ∈ snd, ∃ m nowait, s.phase p = .sndWait m nowait
  rblock : ∀ p ∈ rcv, ∃ mtype size, s.phase p = .rcvWait mtype size none
  room : rcv.length ≤ s.procs

/-- **Everybody and everything is released** when the queue `q` with this id is removed. -/
def Releases (w : MsgSys) (msgid : ℤ) (q : MsgQueue) (snd rcv : List ℕ) : Prop :=
  ∃ w', w.sysMsgctl msgid = some w' ∧
    -- everybody is awake, and the receivers get `NULL`
    (∀ p, p ∈ snd ∨ p ∈ rcv → (w'.queue q.num).asleep p = false) ∧
    (∀ p ∈ rcv, ∃ mtype size, (w'.queue q.num).phase p = .rcvWait mtype size (some none)) ∧
    -- a sender that tries again finds no queue
    w'.ids.getMsgq msgid = some none ∧
    -- every message is freed once
    w'.freed.Perm ((w.queue q.num).queued ++ w.freed) ∧ (w'.queue q.num).queued = [] ∧
    -- no node is linked to the queue
    ∀ a ∈ snd.map IpcNode.sender ++ rcv.map .receiver, ∀ h : IpcNode, h = .qSender ∨ h = .qReceiver →
      (w'.queue q.num).links.next a ≠ h ∧ (w'.queue q.num).links.prev a ≠ h

/-- The lists of a run are in order. -/
theorem IpcLists.waiting {s : IpcSys} {snd rcv : List ℕ} (h : IpcLists s snd rcv) :
    Waiting s snd rcv where
  sring := h.sring
  rring := h.rring
  sblock := h.sblock
  rblock := h.rblock
  room := by
    have hnodup : rcv.Nodup := (List.nodup_cons.mp h.rring.nodup).2.of_map
    have hsub : rcv ⊆ List.range s.procs := fun p hp => List.mem_range.mpr (h.inRange p hp)
    simpa using (hnodup.subperm hsub).length_le

/-! ## The loops of `freeque` -/

namespace IpcSys

variable {s s' : IpcSys} {snd rcv : List ℕ} {fuel : ℕ}

/-- `ss_wakeup` on `q_receiver` empties it, and stores nothing for the receivers. -/
theorem ssWakeupReceiver_spec (hs : IsRing s.links .qSender (snd.map .sender))
    (hr : IsRing s.links .qReceiver (rcv.map .receiver))
    (hb : ∀ p ∈ rcv, ∃ mtype size, s.phase p = .rcvWait mtype size none)
    (hfuel : rcv.length < fuel) :
    ∃ links asleep, ssWakeupReceiver fuel s = some { s with links := links, asleep := asleep } ∧
      IsRing links .qReceiver [] ∧ IsRing links .qSender (snd.map .sender) := by
  induction rcv generalizing s fuel with
  | nil =>
      have hlink : s.links.Link .qReceiver .qReceiver := by simpa using hr.chain
      refine ⟨s.links, s.asleep, ?_, hr, hs⟩
      cases fuel with
      | zero => cases hfuel
      | succ fuel => rw [ssWakeupReceiver, hlink.1]
  | cons p rcv ih =>
      have hc := hr.chain
      rw [List.map_cons, List.cons_append, List.isChain_cons_cons] at hc
      obtain ⟨mtype, size, hp⟩ := hb p List.mem_cons_self
      have hr' := hr.detach_erase (x := IpcNode.receiver p) (by simp)
      rw [List.map_cons, List.erase_cons_head] at hr'
      have hs' := hs.detach_frame hr (by simp) (x := IpcNode.receiver p) (by simp)
      have hb' : ∀ q ∈ rcv, ∃ mtype size,
          ((s.detach (.receiver p)).activate p).phase q = .rcvWait mtype size none :=
        fun q hq => hb q (List.mem_cons_of_mem _ hq)
      cases fuel with
      | zero => cases hfuel
      | succ fuel =>
          obtain ⟨links, asleep, hrec, h1, h2⟩ := ih hs' hr' hb' (Nat.succ_lt_succ_iff.mp hfuel)
          refine ⟨links, asleep, ?_, h1, h2⟩
          rw [ssWakeupReceiver, hc.1.1]
          simp only [hp]
          rw [hrec]
          rfl

theorem freeMsgs_eq (ms freed : List Msg) : freeMsgs ms freed = ms.reverse ++ freed := by
  induction ms generalizing freed with
  | nil => rfl
  | cons m ms ih => simp [freeMsgs, ih]

/-- What `freeque` does to a queue: the receivers are taken off their list, and that is all. -/
theorem removeQueue_spec (h : Waiting s snd rcv) :
    ∃ links asleep, s.removeQueue = some ({ s with
        links := links
        asleep := asleep
        queued := [] }, s.queued.reverse) ∧
      IsRing links .qReceiver [] ∧ IsRing links .qSender (snd.map .sender) := by
  obtain ⟨links, asleep, hwake, hr, hs⟩ :=
    ssWakeupReceiver_spec h.sring h.rring h.rblock (Nat.lt_succ_of_le h.room)
  have hexp : expungeAll (s.procs + 1) { s with links := links, asleep := asleep } =
      some { s with links := links, asleep := asleep } := by
    have hlink : links.Link .qReceiver .qReceiver := by simpa using hr.chain
    rw [expungeAll, hlink.1]
  refine ⟨links, asleep, ?_, hr, hs⟩
  rw [removeQueue, Option.bind_eq_bind, hwake, Option.bind_some]
  change (expungeAll (s.procs + 1) _).bind _ = _
  rw [hexp, Option.bind_some, freeMsgs_eq, List.append_nil]

end IpcSys

/-! ## When everybody is released -/

section Releases

variable {w : MsgSys} {msgid : ℤ} {q : MsgQueue} {snd rcv : List ℕ}

/-- `get_msgq` does not find a queue that `freeque` has taken out. -/
theorem IpcIds.freeque_getMsgq {t : IpcIds} (hq : t.getMsgq msgid = some (some q)) :
    ∃ ids, t.freeque msgid = some ids ∧ ids.getMsgq msgid = some none := by
  refine ⟨_, by rw [freeque, Option.bind_eq_bind, hq, Option.bind_some], ?_⟩
  simp only [getMsgq] at hq ⊢
  by_cases hlarge : msgid.tmod seqMultiplier ≥ t.size
  · rw [if_pos hlarge]
  · rw [if_neg hlarge] at hq ⊢
    by_cases hneg : msgid.tmod seqMultiplier < 0
    · rw [if_pos hneg] at hq
      cases hq
    · rw [if_neg hneg]
      simp

/-- The call on a queue that is there. -/
theorem MsgSys.sysMsgctl_spec (hq : w.ids.getMsgq msgid = some (some q))
    (h : Waiting (w.queue q.num) snd rcv) : ∃ ids links asleep,
      w.sysMsgctl msgid = some ⟨ids, Function.update w.queue q.num { w.queue q.num with
        links := links
        asleep := asleep
        queued := [] }, (w.queue q.num).queued.reverse ++ w.freed⟩ ∧
      ids.getMsgq msgid = some none ∧ IsRing links .qReceiver [] ∧
      IsRing links .qSender (snd.map .sender) := by
  obtain ⟨links, asleep, hrem, hr, hs⟩ := IpcSys.removeQueue_spec h
  obtain ⟨ids, hids, hnone⟩ := IpcIds.freeque_getMsgq hq
  refine ⟨ids, links, asleep, ?_, hnone, hr, hs⟩
  rw [sysMsgctl, Option.bind_eq_bind, hids, Option.bind_some, hq, Option.bind_eq_bind,
    Option.bind_some]
  simp [hrem]

/-- **Removing a queue releases everybody** exactly when nobody waits there. -/
theorem releases_iff (w : MsgSys) (msgid : ℤ) (q : MsgQueue) (snd rcv : List ℕ)
    (hq : w.ids.getMsgq msgid = some (some q)) (h : Waiting (w.queue q.num) snd rcv) :
    Releases w msgid q snd rcv ↔ snd = [] ∧ rcv = [] := by
  obtain ⟨ids, links, asleep, hctl, hnone, hr, hs⟩ := MsgSys.sysMsgctl_spec hq h
  constructor
  · rintro ⟨w', hw', -, hnull, -, -, -, hlinks⟩
    rw [hctl] at hw'
    obtain rfl := Option.some.inj hw'
    simp only [Function.update_self] at hnull hlinks
    constructor
    · -- the node of the last sender is still linked to the queue
      by_contra hsnd
      have hlast := hs.last_link
      rcases List.mem_cons.mp hs.last_mem with hhead | hmem
      · rw [hhead] at hlast
        exact hsnd (List.map_eq_nil_iff.mp (hs.next_head_iff.mp hlast.1))
      · exact (hlinks _ (List.mem_append_left _ hmem) .qSender (.inl rfl)).1 hlast.1
    · by_contra hrcv
      obtain ⟨p, rest, rfl⟩ := List.exists_cons_of_ne_nil hrcv
      obtain ⟨mtype, size, hp⟩ := h.rblock p List.mem_cons_self
      obtain ⟨mtype', size', hp'⟩ := hnull p List.mem_cons_self
      rw [hp] at hp'
      cases hp'
  · rintro ⟨rfl, rfl⟩
    refine ⟨_, hctl, by simp, by simp, hnone, ?_, by simp, by simp⟩
    exact (List.reverse_perm _).append_right _

/-- The first queue created, with two processes and one message. -/
theorem releases_iff_message : ∃ w : MsgSys, (w.queue 0).queued ≠ [] ∧
    Releases w 0 ⟨5, 0, 0⟩ [] [] := by
  let w : MsgSys := ⟨(IpcIds.init.sysMsgget 5 true false true).2,
    fun _ => { IpcSys.init 2 with queued := [⟨0, 1, 4⟩], sumMsg := 1, nextId := 1 }, []⟩
  have hw : Waiting (w.queue 0) [] [] :=
    { sring := (IpcLists.init 2).sring
      rring := (IpcLists.init 2).rring
      sblock := by simp
      rblock := by simp
      room := by simp }
  exact ⟨w, by simp [w], (releases_iff w 0 ⟨5, 0, 0⟩ [] [] (by decide) hw).mpr ⟨rfl, rfl⟩⟩

/-- A receiver that waits is left without an answer. -/
theorem receiver_left_behind : ¬∀ (w : MsgSys) (msgid : ℤ) (q : MsgQueue) (snd rcv : List ℕ),
    w.ids.getMsgq msgid = some (some q) → Waiting (w.queue q.num) snd rcv →
    Releases w msgid q snd rcv := by
  intro hall
  let s : IpcSys := ((IpcSys.init 2).append .qReceiver (.receiver 0)).setPhase 0
    (.rcvWait 0 4 none)
  let w : MsgSys := ⟨(IpcIds.init.sysMsgget 5 true false true).2, fun _ => s.sched 0, []⟩
  have hl := IpcLists.init 2
  have hw : Waiting (w.queue 0) [] [0] :=
    { sring := hl.sring.insert_frame hl.rring hl.rring.last_mem (by simp) (by simp)
        (by simp)
      rring := hl.rring.insert (by simp)
      sblock := by simp
      rblock := by simp [w, s]
      room := by decide }
  obtain ⟨w', hw', -, hnull, -⟩ := hall w 0 ⟨5, 0, 0⟩ [] [0] (by decide) hw
  obtain ⟨mtype, size, hp⟩ := hnull 0 (by simp)
  have hrun : ((w.sysMsgctl 0).map fun w => (w.queue 0).phase 0) = some (.rcvWait 0 4 none) := by
    decide +kernel
  rw [hw', Option.map_some] at hrun
  rw [Option.some.inj hrun] at hp
  cases hp

end Releases

end OsLab
