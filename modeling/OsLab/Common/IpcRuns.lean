import OsLab.Common.IpcInv

/-!
# Runs of the message queue

Two results about all runs of `sys_msgsnd` and `sys_msgrcv` on one queue.

As long as nobody is killed, a process that waits is asleep, so it comes back from
`_sched` only after a sender or a receiver has taken its node off the list.  Then no
message is lost or doubled (`messages_delivered_once`).

`kill` breaks this: an alert, or the early return of `_sched` for a process that is
already killed, brings the process back with its node still linked.  `sys_msgsnd`
inserts the node again, and `sys_msgrcv` takes whatever is in `r_msg` for a message
(`receiver_takes_garbage`).  The waiting lists stay in order in the runs in which every
return from `_sched` comes after the node has been detached (`waiting_lists_clean`).

## Main definitions

* `IpcSys.Protocol` — the queue is consistent and every message is in one place.
* `IpcSys.Clean` — the waiting lists are in order and nothing but messages is received.
* `DetachedFirst` — the condition on a return from `_sched`.
-/

namespace OsLab

namespace IpcSys

/-- **The queue is consistent, and every message that was sent is in exactly one place.** -/
structure Protocol (s : IpcSys) : Prop where
  sum : s.sumMsg = s.queued.length
  max : s.sumMsg ≤ s.maxMsg
  /-- somebody waits to send only if the queue is full -/
  full : s.links.next .qSender ≠ .qSender → s.sumMsg = s.maxMsg
  /-- `q_receiver` holds the receivers that wait, and no queued message suits them -/
  unsuited : ∃ rcv : List ℕ, IsRing s.links .qReceiver (rcv.map .receiver) ∧ ∀ p ∈ rcv,
    ∃ mtype size, s.phase p = .rcvWait mtype size none ∧
      ∀ m ∈ s.queued, testmsg mtype m.mtype = false
  once : ∀ m ∈ s.sent, s.queued.count m + s.holders m + s.returned.count m = 1
  own : ∀ p m mtype ret, .received p m mtype ret ∈ s.log → mtype = m.mtype ∧ ret = m.size

/-- **The waiting lists are in order, and only messages are received.** -/
structure Clean (s : IpcSys) : Prop where
  /-- the nodes of `q_sender` belong to processes that wait in `sys_msgsnd` -/
  senders : ∃ snd : List ℕ, IsRing s.links .qSender (snd.map .sender) ∧
    ∀ p ∈ snd, ∃ m nowait, s.phase p = .sndWait m nowait
  /-- the nodes of `q_receiver` belong to processes that wait in `sys_msgrcv` -/
  receivers : ∃ rcv : List ℕ, IsRing s.links .qReceiver (rcv.map .receiver) ∧
    ∀ p ∈ rcv, ∃ mtype size, s.phase p = .rcvWait mtype size none
  /-- what is received has been stored by a sender -/
  found : ∀ p size, s.phase p ≠ .found none size
  garbage : ∀ p, .garbage p ∉ s.log

end IpcSys

/-- A step that is no part of `kill`. -/
def Spared (a : IpcAct) : Prop := a ≠ .kill ∧ a ≠ .alert

instance (a : IpcAct) : Decidable (Spared a) := inferInstanceAs (Decidable (_ ∧ _))

/-- `_sched` returns to a process only after its node has been detached. -/
def DetachedFirst (s : IpcSys) (i : ℕ × IpcAct) : Prop :=
  i.2 = .resume → s.links.next (.sender i.1) = .sender i.1 ∧
    s.links.next (.receiver i.1) = .receiver i.1

instance (s : IpcSys) (i : ℕ × IpcAct) : Decidable (DetachedFirst s i) :=
  inferInstanceAs (Decidable (_ → _))

/-! ## Nobody is killed -/

/-- Whoever waits is asleep. -/
structure IpcQuiet (s : IpcSys) (snd rcv : List ℕ) : Prop where
  killed : ∀ p, s.killed p = false
  asleep : ∀ p, p ∈ snd ∨ p ∈ rcv → s.asleep p = true

namespace IpcQuiet

variable {s s' : IpcSys} {snd rcv snd' rcv' : List ℕ} {p q : ℕ} {a : IpcAct}

/-- The process `q` that is woken up leaves the list. -/
theorem wake (h : IpcQuiet s snd rcv) (hl : IpcLists s snd rcv) (hq : q ∈ rcv) :
    ∀ p, p ∈ snd ∨ p ∈ rcv.erase q → Function.update s.asleep q false p = true := by
  intro p hp
  have hnd : rcv.Nodup := List.Nodup.of_map _ (List.nodup_cons.mp hl.rring.nodup).2
  have hpq : p ≠ q := by
    rintro rfl
    rcases hp with hp | hp
    · exact hl.snd_disjoint hq hp
    · exact hnd.not_mem_erase hp
  rw [Function.update_of_ne hpq]
  exact h.asleep p (hp.imp_right List.mem_of_mem_erase)

theorem fall (h : IpcQuiet s snd rcv) (hp : q ∈ snd ∨ q ∈ rcv ∨ q = p) :
    Function.update s.asleep p (!s.killed p) q = true := by
  by_cases hqp : q = p
  · subst hqp
    simp [h.killed]
  · rw [Function.update_of_ne hqp]
    exact h.asleep q (hp.imp_right fun hp => hp.resolve_right hqp)

theorem step (h : IpcQuiet s snd rcv) (hl : IpcLists s snd rcv) (ha : Spared a)
    (he : Effect s snd rcv p a s' snd' rcv') : IpcQuiet s' snd' rcv' := by
  cases he with
  | error | received | start | move | queue => exact ⟨h.killed, h.asleep⟩
  | blockSender m nowait hph hfull =>
      refine ⟨h.killed, ?_⟩
      intro q hq
      apply h.fall
      simpa [or_assoc, or_comm, or_left_comm] using hq
  | blockReceiver mtype size nowait hph hnone =>
      refine ⟨h.killed, ?_⟩
      intro q hq
      apply h.fall
      simpa using hq
  | direct m nowait q mtype size hph hq hphq hsize => exact ⟨h.killed, h.wake hl hq⟩
  | spin m nowait q mtype size hph hq hphq ht hsize => exact ⟨h.killed, h.wake hl hq⟩
  | take m mtype size nowait links asleep hph hm hsize hs hr hasleep =>
      refine ⟨h.killed, ?_⟩
      intro q hq
      have hq : q ∈ rcv := by simpa using hq
      exact (hasleep q (hl.snd_disjoint hq)).trans (h.asleep q (.inr hq))
  | flags killed asleep hor =>
      rcases hor with rfl | rfl
      · exact absurd rfl ha.1
      · exact absurd rfl ha.2

/-- A process that comes back from `_sched` waits nowhere. -/
theorem resume (h : IpcQuiet s snd rcv) (hs : s.act p a = some s') :
    a = .resume → p ∉ snd ∧ p ∉ rcv := by
  rintro rfl
  rw [← not_or]
  intro hmem
  simp [IpcSys.act, h.asleep p hmem] at hs

end IpcQuiet

/-! ## The results -/

theorem IpcLists.init (n : ℕ) : IpcLists (.init n) [] [] := by
  have hring : ∀ h, IsRing (IpcSys.init n).links h [] := by
    intro h
    refine ⟨by simp, ?_⟩
    simp [IpcSys.init, Links.Link]
  exact ⟨hring _, hring _, by simp, by simp, by simp [IpcSys.init], by simp [IpcSys.init],
    by simp [IpcSys.init], by simp⟩

theorem IpcMsgs.init (n : ℕ) : IpcMsgs (.init n) [] [] := by
  constructor <;> simp [IpcSys.init, IpcSys.places, IpcSys.sent, IpcSys.returned, IpcSys.holders,
    IpcSys.carriers, IpcPhase.held, IpcPhase.carried]

theorem IpcLists.protocol {s : IpcSys} {snd rcv : List ℕ} (hl : IpcLists s snd rcv)
    (hm : IpcMsgs s snd rcv) : s.Protocol := by
  refine ⟨hm.sum, hm.max, ?_, ⟨rcv, hl.rring, ?_⟩, ?_, hm.own⟩
  · intro hne
    apply hm.full
    rintro rfl
    exact hne (hl.sring.next_head_iff.mpr rfl)
  · intro p hp
    obtain ⟨mtype, size, hph⟩ := hl.rblock p hp
    exact ⟨mtype, size, hph, hm.unsuited p hp mtype size none hph⟩
  · intro m hsent
    have hpos : 0 < s.sent.count m := List.count_pos_iff.mpr hsent
    have honce := hm.once m
    have hplaces := hm.places m
    rw [IpcSys.places] at hplaces
    omega

/-- **No message is lost or doubled**, in any interleaving of sends and receives by any number of
processes, as long as nobody is killed. -/
theorem messages_delivered_once {n : ℕ} {s : IpcSys}
    (h : Reach IpcSys.step (fun _ i => Spared i.2) (.init n) s) : s.Protocol := by
  have hinv : ∃ snd rcv, IpcLists s snd rcv ∧ IpcMsgs s snd rcv ∧ IpcQuiet s snd rcv := by
    apply h.invariant
    · exact ⟨[], [], IpcLists.init n, IpcMsgs.init n, fun _ => rfl, by simp⟩
    · rintro s ⟨p, a⟩ s' ⟨snd, rcv, hl, hm, hq⟩ hspared hs
      simp only [IpcSys.step] at hs
      split_ifs at hs with hp
      obtain ⟨snd', rcv', he⟩ := hl.effect (hq.resume hs) hs
      exact ⟨snd', rcv', hl.step hp he, hm.step hl hp he, hq.step hl hspared he⟩
  obtain ⟨snd, rcv, hl, hm, -⟩ := hinv
  exact hl.protocol hm

/-- One process sends a message and another one receives it. -/
theorem messages_delivered_one : ∃ s : IpcSys,
    s.log = [.received 1 ⟨0, 1, 4⟩ 1 4, .sent 0 ⟨0, 1, 4⟩] ∧ s.Protocol := by
  have hrun : (runs (fun s i => if decide (Spared i.2) then IpcSys.step s i else none) (.init 2)
      [(1, .msgrcv 0 8 false), (1, .receive), (0, .msgsnd 1 4 false true), (0, .send),
        (1, .resume), (1, .finish)]).map (·.log) =
      some [.received 1 ⟨0, 1, 4⟩ 1 4, .sent 0 ⟨0, 1, 4⟩] := by decide +kernel
  obtain ⟨s, hs, hlog⟩ := Option.map_eq_some_iff.mp hrun
  exact ⟨s, hlog, messages_delivered_once
    (Reach.of_tested .init (fun _ _ h => of_decide_eq_true h) _ hs)⟩

/-- **The waiting lists stay in order** in every run in which `_sched` returns to a process only
after its node has been detached. -/
theorem waiting_lists_clean {n : ℕ} {s : IpcSys} (h : Reach IpcSys.step DetachedFirst (.init n) s) :
    s.Clean := by
  have hinv : ∃ snd rcv, IpcLists s snd rcv := by
    apply h.invariant
    · exact ⟨[], [], IpcLists.init n⟩
    · rintro s ⟨p, a⟩ s' ⟨snd, rcv, hl⟩ hdet hs
      simp only [IpcSys.step] at hs
      split_ifs at hs with hp
      have hres : a = .resume → p ∉ snd ∧ p ∉ rcv := by
        intro ha
        obtain ⟨hsnd, hrcv⟩ := hdet ha
        constructor
        · exact fun hmem => hl.sring.next_ne (List.mem_map_of_mem hmem) hsnd
        · exact fun hmem => hl.rring.next_ne (List.mem_map_of_mem hmem) hrcv
      obtain ⟨snd', rcv', he⟩ := hl.effect hres hs
      exact ⟨snd', rcv', hl.step hp he⟩
  obtain ⟨snd, rcv, hl⟩ := hinv
  exact ⟨⟨snd, hl.sring, hl.sblock⟩, ⟨rcv, hl.rring, hl.rblock⟩, hl.found, hl.garbage⟩

/-- A receiver is killed after it has been given its message. -/
theorem waiting_lists_clean_killed : ∃ s : IpcSys,
    s.killed 1 = true ∧ s.log = [.received 1 ⟨0, 1, 4⟩ 1 4, .sent 0 ⟨0, 1, 4⟩] ∧ s.Clean := by
  have hrun : (runs (fun s i => if decide (DetachedFirst s i) then IpcSys.step s i else none)
      (.init 2) [(1, .msgrcv 0 8 false), (1, .receive), (0, .msgsnd 1 4 false true), (0, .send),
        (1, .kill), (1, .alert), (1, .resume), (1, .finish)]).map (fun s => (s.killed 1, s.log)) =
      some (true, [.received 1 ⟨0, 1, 4⟩ 1 4, .sent 0 ⟨0, 1, 4⟩]) := by decide +kernel
  obtain ⟨s, hs, heq⟩ := Option.map_eq_some_iff.mp hrun
  rw [Prod.mk.injEq] at heq
  exact ⟨s, heq.1, heq.2, waiting_lists_clean
    (Reach.of_tested .init (fun _ _ h => of_decide_eq_true h) _ hs)⟩

/-- A receiver that is killed while it waits takes what is on its stack for a message, and its
node stays on the list after the call. -/
theorem receiver_takes_garbage : ∃ s : IpcSys,
    Reach IpcSys.step (fun _ _ => True) (.init 1) s ∧ s.log = [.garbage 0] ∧
      s.phase 0 = .idle ∧ s.links.next .qReceiver = .receiver 0 ∧ ¬ s.Clean := by
  have hrun : (runs IpcSys.step (.init 1) [(0, .msgrcv 0 8 false), (0, .receive), (0, .kill),
      (0, .alert), (0, .resume), (0, .finish)]).map
        (fun s => (s.log, s.phase 0, s.links.next .qReceiver)) =
      some ([.garbage 0], .idle, .receiver 0) := by decide +kernel
  obtain ⟨s, hs, heq⟩ := Option.map_eq_some_iff.mp hrun
  rw [Prod.mk.injEq, Prod.mk.injEq] at heq
  obtain ⟨hlog, hphase, hnext⟩ := heq
  refine ⟨s, Reach.of_runs .init _ hs, hlog, hphase, hnext, ?_⟩
  intro hclean
  exact hclean.garbage 0 (by simp [hlog])

end OsLab
