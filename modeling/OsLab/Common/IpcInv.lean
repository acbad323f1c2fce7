import OsLab.Common.Ipc
import Mathlib.Algebra.BigOperators.Group.Finset.Basic
import Mathlib.Data.List.Perm.Basic

/-!
# The message queue, step by step

What a step of the message queue does, as long as nobody comes back from `_sched` with
a node that is still linked, and what it keeps.

`Effect` lists the things a step can do, in terms of the processes on the two waiting
lists.  Every property of the queue is preserved by each of them: `IpcLists`, that the
waiting lists are in order, and `IpcMsgs`, that no message is lost or doubled.

## Main definitions

* `IpcSys.places` — how many times a message is queued, held by a receiver or returned.
* `IpcLists`, `IpcMsgs` — the invariants.
* `Effect` — what a step does.
-/

namespace OsLab

namespace IpcPhase

/-- The message that a receiver has been given. -/
def held : IpcPhase → List Msg
  | .rcvWait _ _ (some (some m)) => [m]
  | .found (some m) _ => [m]
  | _ => []

/-- The message that a sender still has. -/
def carried : IpcPhase → List Msg
  | .sending m _ => [m]
  | .sndWait m _ => [m]
  | _ => []

end IpcPhase

namespace IpcReturn

/-- The message of a `sys_msgsnd` that returned 0. -/
def sentMsg : IpcReturn → Option Msg
  | .sent _ m => some m
  | _ => none

/-- The message that a `sys_msgrcv` returned. -/
def receivedMsg : IpcReturn → Option Msg
  | .received _ m _ _ => some m
  | _ => none

end IpcReturn

namespace IpcSys

def sent (s : IpcSys) : List Msg := s.log.filterMap IpcReturn.sentMsg

def returned (s : IpcSys) : List Msg := s.log.filterMap IpcReturn.receivedMsg

/-- The number of receivers that `m` has been handed to. -/
def holders (s : IpcSys) (m : Msg) : ℕ :=
  ∑ p ∈ Finset.range s.procs, (s.phase p).held.count m

def carriers (s : IpcSys) (m : Msg) : ℕ :=
  ∑ p ∈ Finset.range s.procs, (s.phase p).carried.count m

/-- In how many places `m` is. -/
def places (s : IpcSys) (m : Msg) : ℕ := s.queued.count m + s.holders m + s.returned.count m

end IpcSys

/-- The waiting lists hold the processes `snd` and `rcv`, which are waiting. -/
structure IpcLists (s : IpcSys) (snd rcv : List ℕ) : Prop where
  sring : IsRing s.links .qSender (snd.map .sender)
  rring : IsRing s.links .qReceiver (rcv.map .receiver)
  sblock : ∀ p ∈ snd, ∃ m nowait, s.phase p = .sndWait m nowait
  rblock : ∀ p ∈ rcv, ∃ mtype size, s.phase p = .rcvWait mtype size none
  /-- a receiver without a message is on the list -/
  rget : ∀ p mtype size, s.phase p = .rcvWait mtype size none → p ∈ rcv
  found : ∀ p size, s.phase p ≠ .found none size
  garbage : ∀ p, .garbage p ∉ s.log
  inRange : ∀ p ∈ rcv, p < s.procs

/-- The messages are accounted for. -/
structure IpcMsgs (s : IpcSys) (snd rcv : List ℕ) : Prop where
  sum : s.sumMsg = s.queued.length
  max : s.sumMsg ≤ s.maxMsg
  full : snd ≠ [] → s.sumMsg = s.maxMsg
  /-- no queued message suits a receiver that waits -/
  unsuited : ∀ p ∈ rcv, ∀ mtype size r, s.phase p = .rcvWait mtype size r →
    ∀ m ∈ s.queued, testmsg mtype m.mtype = false
  places : ∀ m, s.places m = s.sent.count m
  once : ∀ m, s.sent.count m + s.carriers m ≤ 1
  fresh : ∀ m, s.nextId ≤ m.id → s.sent.count m + s.carriers m = 0
  /-- what a receiver has been given fits its buffer -/
  fits : ∀ p m size, s.phase p = .found (some m) size ∨
    (∃ mtype, s.phase p = .rcvWait mtype size (some (some m))) → m.size ≤ size
  own : ∀ p m mtype ret, .received p m mtype ret ∈ s.log → mtype = m.mtype ∧ ret = m.size

/-- What a step of process `p` can do, from a state where `snd` and `rcv` wait. -/
inductive Effect (s : IpcSys) (snd rcv : List ℕ) (p : ℕ) :
    IpcAct → IpcSys → List ℕ → List ℕ → Prop
  /-- a call ends with an error -/
  | error (a : IpcAct) (e : IpcError) : p ∉ snd → p ∉ rcv → (s.phase p).held = [] →
      Effect s snd rcv p a (s.ret p (.error p e)) snd rcv
  /-- a receiver returns with its message -/
  | received (a : IpcAct) (m : Msg) (size : ℤ) : s.phase p = .found (some m) size →
      Effect s snd rcv p a (s.ret p (.received p m m.mtype (min size m.size))) snd rcv
  | start (a : IpcAct) (mtype size : ℤ) (nowait : Bool) : s.phase p = .idle →
      Effect s snd rcv p a { s.setPhase p (.sending ⟨s.nextId, mtype, size⟩ nowait) with
        nextId := s.nextId + 1 } snd rcv
  /-- a process goes on with the message it had -/
  | move (a : IpcAct) (ph : IpcPhase) : p ∉ snd → p ∉ rcv → ph.held = (s.phase p).held →
      ph.carried = (s.phase p).carried → (∀ size, ph ≠ .found none size) →
      (∀ mtype size r, ph ≠ .rcvWait mtype size r) →
      (∀ m size, ph = .found (some m) size →
        ∃ mtype, s.phase p = .rcvWait mtype size (some (some m))) →
      Effect s snd rcv p a (s.setPhase p ph) snd rcv
  | blockSender (a : IpcAct) (m : Msg) (nowait : Bool) : s.phase p = .sending m nowait →
      s.maxMsg < s.sumMsg + 1 →
      Effect s snd rcv p a
        (((s.append .qSender (.sender p)).setPhase p (.sndWait m nowait)).sched p)
        (snd ++ [p]) rcv
  | blockReceiver (a : IpcAct) (mtype size : ℤ) (nowait : Bool) :
      s.phase p = .receiving mtype size nowait →
      (∀ m ∈ s.queued, testmsg mtype m.mtype = false) →
      Effect s snd rcv p a
        (((s.append .qReceiver (.receiver p)).setPhase p (.rcvWait mtype size none)).sched p)
        snd (rcv ++ [p])
  /-- nobody waits for the message -/
  | queue (a : IpcAct) (m : Msg) (nowait : Bool) : s.phase p = .sending m nowait →
      s.sumMsg + 1 ≤ s.maxMsg →
      (∀ q ∈ rcv, ∀ mtype size r, s.phase q = .rcvWait mtype size r →
        testmsg mtype m.mtype = false) →
      Effect s snd rcv p a ({ s with
        queued := s.queued ++ [m]
        sumMsg := s.sumMsg + 1 }.ret p (.sent p m)) snd rcv
  /-- the message goes to receiver `q` -/
  | direct (a : IpcAct) (m : Msg) (nowait : Bool) (q : ℕ) (mtype size : ℤ) :
      s.phase p = .sending m nowait → q ∈ rcv → s.phase q = .rcvWait mtype size none →
      m.size ≤ size →
      Effect s snd rcv p a ((((s.detach (.receiver q)).activate q).setPhase q
        (.rcvWait mtype size (some (some m)))).ret p (.sent p m)) snd (rcv.erase q)
  /-- the buffer of receiver `q` is too small -/
  | spin (a : IpcAct) (m : Msg) (nowait : Bool) (q : ℕ) (mtype size : ℤ) :
      s.phase p = .sending m nowait → q ∈ rcv → s.phase q = .rcvWait mtype size none →
      testmsg mtype m.mtype = true → size < m.size →
      Effect s snd rcv p a { ((s.detach (.receiver q)).activate q).setPhase q
        (.rcvWait mtype size (some none)) with spinning := true } snd (rcv.erase q)
  /-- a receiver takes a queued message, and all senders wake up -/
  | take (a : IpcAct) (m : Msg) (mtype size : ℤ) (nowait : Bool) (links : Links IpcNode)
      (asleep : ℕ → Bool) : s.phase p = .receiving mtype size nowait → m ∈ s.queued →
      m.size ≤ size → IsRing links .qSender [] → IsRing links .qReceiver (rcv.map .receiver) →
      (∀ q, q ∉ snd → asleep q = s.asleep q) →
      Effect s snd rcv p a ({ s with
        links := links
        asleep := asleep
        queued := s.queued.erase m
        sumMsg := s.sumMsg - 1 }.setPhase p (.found (some m) size)) [] rcv
  | flags (a : IpcAct) (killed asleep : ℕ → Bool) : a = .kill ∨ a = .alert →
      Effect s snd rcv p a { s with killed := killed, asleep := asleep } snd rcv

/-! ## The loops -/

/-- `findMsg` returns a message of the queue, or there is none that suits. -/
theorem findMsg_mem {ms : List Msg} {mtype : ℤ} {found : Option Msg} {m : Msg}
    (h : findMsg mtype ms found = some m) : m ∈ ms ∨ found = some m := by
  induction ms generalizing mtype found with
  | nil => exact .inr h
  | cons a ms ih =>
      rw [findMsg] at h
      split_ifs at h
      · rcases ih h with h | h
        · exact .inl (by simp [h])
        · exact .inl (by simp [Option.some.inj h])
      · exact .inl (by simp [Option.some.inj h])
      · exact (ih h).imp_left fun h => by simp [h]

theorem findMsg_some (mtype : ℤ) (ms : List Msg) (m : Msg) :
    findMsg mtype ms (some m) ≠ none := by
  induction ms generalizing mtype m with
  | nil => simp [findMsg]
  | cons a ms ih =>
      rw [findMsg]
      split_ifs
      · exact ih _ _
      · simp
      · exact ih _ _

theorem findMsg_none {ms : List Msg} {mtype : ℤ} (h : findMsg mtype ms none = none) :
    ∀ m ∈ ms, testmsg mtype m.mtype = false := by
  induction ms with
  | nil => simp
  | cons a ms ih =>
      rw [findMsg] at h
      split_ifs at h with ht hm
      · exact absurd h (findMsg_some _ _ _)
      · intro m hmem
        rcases List.mem_cons.mp hmem with rfl | hmem
        · simpa using ht
        · exact ih h m hmem

namespace IpcSys

variable {s s' : IpcSys} {snd rcv qs : List ℕ} {p : ℕ} {m : Msg}

/-- `pipeline_send` finds nobody, or the first receiver whom the message suits. -/
theorem pipelineSend_spec {a : IpcNode} {fuel : ℕ} {b : Bool}
    (hc : List.IsChain s.links.Link (a :: (qs.map .receiver ++ [.qReceiver])))
    (hw : ∀ q ∈ qs, ∃ mtype size, s.phase q = .rcvWait mtype size none)
    (h : pipelineSend m fuel (s.links.next a) s = some (b, s')) :
    (b = false ∧ s' = s ∧ ∀ q ∈ qs, ∀ mtype size r, s.phase q = .rcvWait mtype size r →
      testmsg mtype m.mtype = false) ∨
    ∃ q ∈ qs, ∃ mtype size, s.phase q = .rcvWait mtype size none ∧
      testmsg mtype m.mtype = true ∧
      ((size < m.size ∧ b = false ∧ s' = { ((s.detach (.receiver q)).activate q).setPhase q
          (.rcvWait mtype size (some none)) with spinning := true }) ∨
        (m.size ≤ size ∧ b = true ∧ s' = ((s.detach (.receiver q)).activate q).setPhase q
          (.rcvWait mtype size (some (some m))))) := by
  induction qs generalizing a fuel with
  | nil =>
      have hlink : s.links.Link a .qReceiver := by simpa using hc
      rw [hlink.1] at h
      cases fuel with
      | zero => cases h
      | succ fuel =>
          cases h
          exact .inl ⟨rfl, rfl, by simp⟩
  | cons q qs ih =>
      rw [List.map_cons, List.cons_append, List.isChain_cons_cons] at hc
      obtain ⟨mtype, size, hq⟩ := hw q (by simp)
      rw [hc.1.1] at h
      cases fuel with
      | zero => cases h
      | succ fuel =>
          simp only [pipelineSend, hq] at h
          split_ifs at h with ht hsize
          · cases h
            exact .inr ⟨q, by simp, mtype, size, hq, ht, .inl ⟨hsize, rfl, rfl⟩⟩
          · cases h
            exact .inr ⟨q, by simp, mtype, size, hq, ht, .inr ⟨by omega, rfl, rfl⟩⟩
          · rcases ih hc.2 (fun q hq => hw q (by simp [hq])) h with ⟨h1, h2, h3⟩ | ⟨q', hq', h'⟩
            · refine .inl ⟨h1, h2, ?_⟩
              intro q' hq' mtype' size' r hph
              rcases List.mem_cons.mp hq' with rfl | hq'
              · rw [hq] at hph
                cases hph
                simpa using ht
              · exact h3 q' hq' mtype' size' r hph
            · exact .inr ⟨q', by simp [hq'], h'⟩

/-- `ss_wakeup` empties `q_sender` and touches nothing else. -/
theorem ssWakeup_spec {fuel : ℕ} (hs : IsRing s.links .qSender (snd.map .sender))
    (hr : IsRing s.links .qReceiver (rcv.map .receiver)) (h : ssWakeup fuel s = some s') :
    ∃ links asleep, s' = { s with links := links, asleep := asleep } ∧ IsRing links .qSender [] ∧
      IsRing links .qReceiver (rcv.map .receiver) ∧ ∀ q, q ∉ snd → asleep q = s.asleep q := by
  induction fuel generalizing s snd with
  | zero => cases h
  | succ fuel ih =>
      rw [ssWakeup] at h
      have hc := hs.chain
      cases snd with
      | nil =>
          have hlink : s.links.Link .qSender .qSender := by simpa using hc
          rw [hlink.1] at h
          rw [← Option.some.inj h]
          exact ⟨s.links, s.asleep, rfl, hs, hr, fun _ _ => rfl⟩
      | cons p snd =>
          rw [List.map_cons, List.cons_append, List.isChain_cons_cons] at hc
          rw [hc.1.1] at h
          cases hph : s.phase p with
          | sndWait m nowait =>
              simp only [hph] at h
              have hdisj : ∀ a ∈ IpcNode.qReceiver :: rcv.map .receiver,
                  a ∉ IpcNode.qSender :: (p :: snd).map .sender := by simp
              have hs' := hs.detach_erase (x := IpcNode.sender p) (by simp)
              rw [List.map_cons, List.erase_cons_head] at hs'
              obtain ⟨links, asleep, rfl, h1, h2, h3⟩ :=
                ih hs' (hr.detach_frame hs hdisj (by simp)) h
              refine ⟨links, asleep, rfl, h1, h2, ?_⟩
              intro q hq
              rw [List.mem_cons, not_or] at hq
              rw [h3 q hq.2]
              simp [activate, detach, hq.1]
          | _ => simp [hph] at h

end IpcSys

/-! ## What a step does -/

namespace IpcLists

variable {s s' : IpcSys} {snd rcv : List ℕ} {p : ℕ}

theorem notMem_snd (h : IpcLists s snd rcv) (hp : ∀ m nowait, s.phase p ≠ .sndWait m nowait) :
    p ∉ snd := by
  intro hmem
  obtain ⟨m, nowait, hph⟩ := h.sblock p hmem
  exact hp m nowait hph

theorem notMem_rcv (h : IpcLists s snd rcv)
    (hp : ∀ mtype size, s.phase p ≠ .rcvWait mtype size none) : p ∉ rcv := by
  intro hmem
  obtain ⟨mtype, size, hph⟩ := h.rblock p hmem
  exact hp mtype size hph

theorem send_effect (h : IpcLists s snd rcv) (hs : s.spinning = false)
    (hsend : s.send p = some s') : ∃ snd' rcv', Effect s snd rcv p .send s' snd' rcv' := by
  cases hph : s.phase p with
  | sending m nowait =>
      simp only [IpcSys.send, hph] at hsend
      split_ifs at hsend with hfull hnow
      · cases hsend
        exact ⟨snd, rcv, .error _ _ (h.notMem_snd (by simp [hph])) (h.notMem_rcv (by simp [hph]))
          (by simp [hph, IpcPhase.held])⟩
      · cases hsend
        exact ⟨_, _, .blockSender _ m nowait hph hfull⟩
      · rw [Option.bind_eq_bind, Option.bind_eq_some_iff] at hsend
        obtain ⟨⟨b, t⟩, hpipe, hsend⟩ := hsend
        rcases IpcSys.pipelineSend_spec h.rring.chain h.rblock hpipe with
          ⟨rfl, rfl, hnone⟩ | ⟨q, hq, mtype, size, hphq, ht, ⟨hsize, rfl, rfl⟩ | ⟨hsize, rfl, rfl⟩⟩
        · rw [if_neg (by simp [hs]), if_neg (by simp), Option.some.injEq] at hsend
          subst hsend
          exact ⟨_, _, .queue _ m nowait hph (by omega) hnone⟩
        · simp only [if_true, Option.some.injEq] at hsend
          subst hsend
          exact ⟨_, _, .spin _ m nowait q mtype size hph hq hphq ht hsize⟩
        · have hspin : (((s.detach (.receiver q)).activate q).setPhase q
              (.rcvWait mtype size (some (some m)))).spinning = false := hs
          simp only [hspin, Bool.false_eq_true, if_false, if_true, Option.some.injEq] at hsend
          subst hsend
          exact ⟨_, _, .direct _ m nowait q mtype size hph hq hphq hsize⟩
  | _ => simp [IpcSys.send, hph] at hsend

theorem receive_effect (h : IpcLists s snd rcv) (hrec : s.receive p = some s') :
    ∃ snd' rcv', Effect s snd rcv p .receive s' snd' rcv' := by
  cases hph : s.phase p with
  | receiving mtype size nowait =>
      have herror : ∀ e, Effect s snd rcv p .receive (s.ret p (.error p e)) snd rcv := fun e =>
        .error _ _ (h.notMem_snd (by simp [hph])) (h.notMem_rcv (by simp [hph]))
          (by simp [hph, IpcPhase.held])
      simp only [IpcSys.receive, hph] at hrec
      cases hfind : findMsg mtype s.queued none with
      | some m =>
          simp only [hfind] at hrec
          split_ifs at hrec with hsize
          · cases hrec
            exact ⟨_, _, herror _⟩
          · rw [Option.bind_eq_bind, Option.bind_eq_some_iff] at hrec
            obtain ⟨t, hwake, hrec⟩ := hrec
            obtain ⟨links, asleep, rfl, h1, h2, h3⟩ := IpcSys.ssWakeup_spec (s := { s with
              queued := s.queued.erase m
              sumMsg := s.sumMsg - 1 }) h.sring h.rring hwake
            have hmem : m ∈ s.queued := by simpa using findMsg_mem hfind
            cases hrec
            exact ⟨_, _, .take _ m mtype size nowait links asleep hph hmem (by omega) h1 h2 h3⟩
      | none =>
          simp only [hfind] at hrec
          split_ifs at hrec
          · cases hrec
            exact ⟨_, _, herror _⟩
          · cases hrec
            exact ⟨_, _, .blockReceiver _ mtype size nowait hph (findMsg_none hfind)⟩
  | _ => simp [IpcSys.receive, hph] at hrec

/-- **What a step can do**, if it is not a return from `_sched` with a linked node. -/
theorem effect (h : IpcLists s snd rcv) {a : IpcAct}
    (hres : a = .resume → p ∉ snd ∧ p ∉ rcv) (hs : s.act p a = some s') :
    ∃ snd' rcv', Effect s snd rcv p a s' snd' rcv' := by
  have hidle : s.phase p = .idle → p ∉ snd ∧ p ∉ rcv := fun hph =>
    ⟨h.notMem_snd (by simp [hph]), h.notMem_rcv (by simp [hph])⟩
  cases a with
  | msgsnd mtype size nowait mem =>
      simp only [IpcSys.act] at hs
      split_ifs at hs with hph h1 h2
      · cases hs
        exact ⟨_, _, .error _ _ (hidle (by simpa using hph)).1 (hidle (by simpa using hph)).2
          (by simp [not_not.mp hph, IpcPhase.held])⟩
      · cases hs
        exact ⟨_, _, .error _ _ (hidle (by simpa using hph)).1 (hidle (by simpa using hph)).2
          (by simp [not_not.mp hph, IpcPhase.held])⟩
      · cases hs
        exact ⟨_, _, .start _ _ _ _ (not_not.mp hph)⟩
  | send =>
      simp only [IpcSys.act] at hs
      split_ifs at hs with hspin
      exact h.send_effect (by simpa using hspin) hs
  | msgrcv mtype size nowait =>
      simp only [IpcSys.act] at hs
      split_ifs at hs with hph h1
      · cases hs
        exact ⟨_, _, .error _ _ (hidle (by simpa using hph)).1 (hidle (by simpa using hph)).2
          (by simp [not_not.mp hph, IpcPhase.held])⟩
      · cases hs
        exact ⟨_, _, .move _ _ (hidle (by simpa using hph)).1 (hidle (by simpa using hph)).2
          (by simp [not_not.mp hph, IpcPhase.held]) (by simp [not_not.mp hph, IpcPhase.carried])
          (by simp) (by simp) (by simp)⟩
  | receive =>
      simp only [IpcSys.act] at hs
      split_ifs at hs
      exact h.receive_effect hs
  | resume =>
      obtain ⟨hsnd, hrcv⟩ := hres rfl
      simp only [IpcSys.act] at hs
      split_ifs at hs
      cases hph : s.phase p with
      | sndWait m nowait =>
          simp only [hph, Option.some.injEq] at hs
          subst hs
          exact ⟨_, _, .move _ _ hsnd hrcv (by simp [hph, IpcPhase.held])
            (by simp [hph, IpcPhase.carried]) (by simp) (by simp) (by simp)⟩
      | rcvWait mtype size rmsg =>
          match rmsg with
          | none => exact absurd (h.rget p _ _ hph) hrcv
          | some none =>
              simp only [hph, Option.some.injEq] at hs
              subst hs
              exact ⟨_, _, .error _ _ hsnd hrcv (by simp [hph, IpcPhase.held])⟩
          | some (some m) =>
              simp only [hph, Option.some.injEq] at hs
              subst hs
              exact ⟨_, _, .move _ _ hsnd hrcv (by simp [hph, IpcPhase.held])
                (by simp [hph, IpcPhase.carried]) (by simp) (by simp)
                (by simpa using ⟨mtype, hph⟩)⟩
      | _ => simp [hph] at hs
  | finish =>
      simp only [IpcSys.act] at hs
      cases hph : s.phase p with
      | found m size =>
          cases m with
          | none => exact absurd hph (h.found p size)
          | some m =>
              simp only [hph, Option.some.injEq] at hs
              subst hs
              exact ⟨_, _, .received _ m size hph⟩
      | _ => simp [hph] at hs
  | kill =>
      cases hs
      exact ⟨_, _, .flags _ _ _ (.inl rfl)⟩
  | alert =>
      simp only [IpcSys.act] at hs
      split_ifs at hs
      cases hs
      exact ⟨_, _, .flags _ s.killed _ (.inr rfl)⟩

/-- A process that waits nowhere changes its phase. -/
theorem setPhase (h : IpcLists s snd rcv) (ph : IpcPhase) (hs : p ∉ snd) (hr : p ∉ rcv)
    (hwait : ∀ mtype size, ph ≠ .rcvWait mtype size none) (hfound : ∀ size, ph ≠ .found none size) :
    IpcLists (s.setPhase p ph) snd rcv := by
  have hne : ∀ q, q ∈ snd ∨ q ∈ rcv → (s.setPhase p ph).phase q = s.phase q := by
    intro q hq
    have hqp : q ≠ p := by
      rintro rfl
      exact hq.elim hs hr
    simp [IpcSys.setPhase, hqp]
  refine ⟨h.sring, h.rring, ?_, ?_, ?_, ?_, h.garbage, h.inRange⟩
  · intro q hq
    rw [hne q (.inl hq)]
    exact h.sblock q hq
  · intro q hq
    rw [hne q (.inr hq)]
    exact h.rblock q hq
  · intro q mtype size hq
    by_cases hqp : q = p
    · subst hqp
      exact absurd (by simpa [IpcSys.setPhase] using hq) (hwait mtype size)
    · exact h.rget q mtype size (by simpa [IpcSys.setPhase, hqp] using hq)
  · intro q size hq
    by_cases hqp : q = p
    · subst hqp
      exact hfound size (by simpa [IpcSys.setPhase] using hq)
    · exact h.found q size (by simpa [IpcSys.setPhase, hqp] using hq)

theorem ret (h : IpcLists s snd rcv) (hs : p ∉ snd) (hr : p ∉ rcv) {r : IpcReturn}
    (hg : ∀ q, r ≠ .garbage q) : IpcLists (s.ret p r) snd rcv := by
  have h' := h.setPhase .idle hs hr (by simp) (by simp)
  refine ⟨h'.sring, h'.rring, h'.sblock, h'.rblock, h'.rget, h'.found, ?_, h'.inRange⟩
  intro q hq
  rcases List.mem_cons.mp hq with heq | hq
  · exact hg q heq.symm
  · exact h.garbage q hq

theorem snd_disjoint (h : IpcLists s snd rcv) {q : ℕ} (hq : q ∈ rcv) : q ∉ snd := by
  obtain ⟨mtype, size, hph⟩ := h.rblock q hq
  exact h.notMem_snd (by simp [hph])

/-- A receiver gets its answer and is taken off the list. -/
theorem answer (h : IpcLists s snd rcv) {q : ℕ} (hq : q ∈ rcv) (mtype size : ℤ)
    (r : Option Msg) : IpcLists (((s.detach (.receiver q)).activate q).setPhase q
      (.rcvWait mtype size (some r))) snd (rcv.erase q) := by
  have hnd : rcv.Nodup := List.Nodup.of_map _ (List.nodup_cons.mp h.rring.nodup).2
  have hmem : IpcNode.receiver q ∈ rcv.map IpcNode.receiver := List.mem_map_of_mem hq
  have hinj : Function.Injective IpcNode.receiver := by
    intro a b hab
    cases hab
    rfl
  have hrring := h.rring.detach_erase hmem
  rw [← List.map_erase hinj] at hrring
  have hsring := h.sring.detach_frame h.rring (by simp) (List.mem_cons_of_mem _ hmem)
  have hphase : ∀ q', q' ≠ q →
      Function.update s.phase q (.rcvWait mtype size (some r)) q' = s.phase q' := by
    intro q' hq'
    simp [hq']
  refine ⟨hsring, hrring, ?_, ?_, ?_, ?_, h.garbage,
    fun p hp => h.inRange p (List.mem_of_mem_erase hp)⟩
  · intro p hp
    have hpq : p ≠ q := fun heq => h.snd_disjoint hq (heq ▸ hp)
    simp only [IpcSys.setPhase, IpcSys.activate, IpcSys.detach, hphase p hpq]
    exact h.sblock p hp
  · intro p hp
    have hpq : p ≠ q := fun heq => hnd.not_mem_erase (heq ▸ hp)
    simp only [IpcSys.setPhase, IpcSys.activate, IpcSys.detach, hphase p hpq]
    exact h.rblock p (List.mem_of_mem_erase hp)
  · intro p mtype' size' hp
    by_cases hpq : p = q
    · subst hpq
      simp [IpcSys.setPhase] at hp
    · simp only [IpcSys.setPhase, IpcSys.activate, IpcSys.detach, hphase p hpq] at hp
      exact (List.mem_erase_of_ne hpq).mpr (h.rget p _ _ hp)
  · intro p size' hp
    by_cases hpq : p = q
    · subst hpq
      simp [IpcSys.setPhase] at hp
    · simp only [IpcSys.setPhase, IpcSys.activate, IpcSys.detach, hphase p hpq] at hp
      exact h.found p _ hp

/-- **The waiting lists stay in order.** -/
theorem step (h : IpcLists s snd rcv) (hp : p < s.procs) {a : IpcAct} {snd' rcv' : List ℕ}
    (he : Effect s snd rcv p a s' snd' rcv') : IpcLists s' snd' rcv' := by
  cases he with
  | error e hsnd hrcv hheld => exact h.ret hsnd hrcv (by simp)
  | received m size hph =>
      exact h.ret (h.notMem_snd (by simp [hph])) (h.notMem_rcv (by simp [hph])) (by simp)
  | start mtype size nowait hph =>
      have hsnd : p ∉ snd := h.notMem_snd (by simp [hph])
      have hrcv : p ∉ rcv := h.notMem_rcv (by simp [hph])
      have h' := h.setPhase (.sending ⟨s.nextId, mtype, size⟩ nowait) hsnd hrcv (by simp)
        (by simp)
      exact ⟨h'.sring, h'.rring, h'.sblock, h'.rblock, h'.rget, h'.found, h'.garbage, h'.inRange⟩
  | move ph hsnd hrcv hheld hcarried hfound hwait =>
      exact h.setPhase ph hsnd hrcv (fun mtype size => hwait mtype size none) hfound
  | blockSender m nowait hph hfull =>
      have hsnd : p ∉ snd := h.notMem_snd (by simp [hph])
      have hrcv : p ∉ rcv := h.notMem_rcv (by simp [hph])
      have hsring := h.sring.insert (x := .sender p) (by simpa using hsnd)
      have hrring := h.rring.insert_frame h.sring h.sring.last_mem (by simp)
        (x := .sender p) (by simp) (by simpa using hsnd)
      have h' := h.setPhase (.sndWait m nowait) hsnd hrcv (by simp) (by simp)
      refine ⟨by simpa using hsring, hrring, ?_, h'.rblock, h'.rget, h'.found, h'.garbage, h'.inRange⟩
      intro q hq
      rcases List.mem_append.mp hq with hq | hq
      · exact h'.sblock q hq
      · rw [List.mem_singleton.mp hq]
        exact ⟨m, nowait, by simp⟩
  | blockReceiver mtype size nowait hph hnone =>
      have hsnd : p ∉ snd := h.notMem_snd (by simp [hph])
      have hrcv : p ∉ rcv := h.notMem_rcv (by simp [hph])
      have hrring := h.rring.insert (x := .receiver p) (by simpa using hrcv)
      have hsring := h.sring.insert_frame h.rring h.rring.last_mem (by simp)
        (x := .receiver p) (by simp) (by simpa using hrcv)
      have hphase : ∀ q, q ≠ p →
          Function.update s.phase p (.rcvWait mtype size none) q = s.phase q := by
        intro q hq
        simp [hq]
      refine ⟨hsring, by simpa using hrring, ?_, ?_, ?_, ?_, h.garbage, ?_⟩
      · intro q hq
        simp only [IpcSys.setPhase_phase, IpcSys.sched_phase, IpcSys.append_phase,
          hphase q fun heq => hsnd (heq ▸ hq)]
        exact h.sblock q hq
      · intro q hq
        rcases List.mem_append.mp hq with hq | hq
        · simp only [IpcSys.setPhase_phase, IpcSys.sched_phase, IpcSys.append_phase,
            hphase q fun heq => hrcv (heq ▸ hq)]
          exact h.rblock q hq
        · rw [List.mem_singleton.mp hq]
          exact ⟨mtype, size, by simp⟩
      · intro q mtype' size' hq
        by_cases hqp : q = p
        · simp [hqp]
        · simp only [IpcSys.setPhase_phase, IpcSys.sched_phase, IpcSys.append_phase,
            hphase q hqp] at hq
          exact List.mem_append_left _ (h.rget q _ _ hq)
      · intro q size' hq
        by_cases hqp : q = p
        · subst hqp
          simp at hq
        · simp only [IpcSys.setPhase_phase, IpcSys.sched_phase, IpcSys.append_phase,
            hphase q hqp] at hq
          exact h.found q _ hq
      · intro q hq
        rcases List.mem_append.mp hq with hq | hq
        · exact h.inRange q hq
        · rw [List.mem_singleton.mp hq]
          exact hp
  | queue m nowait hph hroom hnone =>
      have hsnd : p ∉ snd := h.notMem_snd (by simp [hph])
      have hrcv : p ∉ rcv := h.notMem_rcv (by simp [hph])
      have h' := h.ret (r := .sent p m) hsnd hrcv (by simp)
      exact ⟨h'.sring, h'.rring, h'.sblock, h'.rblock, h'.rget, h'.found, h'.garbage, h'.inRange⟩
  | direct m nowait q mtype size hph hq hphq hsize =>
      have hsnd : p ∉ snd := h.notMem_snd (by simp [hph])
      have hrcv : p ∉ rcv := h.notMem_rcv (by simp [hph])
      exact (h.answer hq mtype size (some m)).ret hsnd
        (fun hmem => hrcv (List.mem_of_mem_erase hmem)) (by simp)
  | spin m nowait q mtype size hph hq hphq ht hsize =>
      have h' := h.answer hq mtype size none
      exact ⟨h'.sring, h'.rring, h'.sblock, h'.rblock, h'.rget, h'.found, h'.garbage, h'.inRange⟩
  | take m mtype size nowait links asleep hph hm hsize hs hr hasleep =>
      have hsnd : p ∉ snd := h.notMem_snd (by simp [hph])
      have hrcv : p ∉ rcv := h.notMem_rcv (by simp [hph])
      have h' := h.setPhase (.found (some m) size) hsnd hrcv (by simp) (by simp)
      exact ⟨hs, hr, by simp, h'.rblock, h'.rget, h'.found, h'.garbage, h'.inRange⟩
  | flags killed asleep ha =>
      exact ⟨h.sring, h.rring, h.sblock, h.rblock, h.rget, h.found, h.garbage, h.inRange⟩

end IpcLists

/-! ## The messages -/

namespace IpcSys

variable {s : IpcSys} {p : ℕ} {ph : IpcPhase}

theorem sum_range_update {β : Type} {n p : ℕ} (hp : p < n) (g : β → ℕ) (f : ℕ → β) (v : β) :
    ∑ x ∈ Finset.range n, g (Function.update f p v x) + g (f p) =
      ∑ x ∈ Finset.range n, g (f x) + g v := by
  have hmem : p ∈ Finset.range n := Finset.mem_range.mpr hp
  have hrest : ∑ x ∈ (Finset.range n).erase p, g (Function.update f p v x) =
      ∑ x ∈ (Finset.range n).erase p, g (f x) := by
    apply Finset.sum_congr rfl
    intro x hx
    rw [Function.update_of_ne (Finset.ne_of_mem_erase hx)]
  rw [← Finset.add_sum_erase _ _ hmem, ← Finset.add_sum_erase _ (fun x => g (f x)) hmem, hrest,
    Function.update_self]
  omega

theorem holders_update (hp : p < s.procs) (m : Msg) {t : IpcSys} (hprocs : t.procs = s.procs)
    (hphase : t.phase = Function.update s.phase p ph) :
    t.holders m + (s.phase p).held.count m = s.holders m + ph.held.count m := by
  rw [holders, hprocs, hphase]
  exact sum_range_update hp (fun ph => ph.held.count m) s.phase ph

theorem carriers_update (hp : p < s.procs) (m : Msg) {t : IpcSys} (hprocs : t.procs = s.procs)
    (hphase : t.phase = Function.update s.phase p ph) :
    t.carriers m + (s.phase p).carried.count m = s.carriers m + ph.carried.count m := by
  rw [carriers, hprocs, hphase]
  exact sum_range_update hp (fun ph => ph.carried.count m) s.phase ph

end IpcSys

namespace IpcMsgs

variable {s s' t : IpcSys} {snd rcv : List ℕ} {p : ℕ} {ph : IpcPhase}

/-- A step of one process that moves a message from one place to another. -/
theorem counts (h : IpcMsgs s snd rcv) (hp : p < s.procs) (hprocs : t.procs = s.procs)
    (hphase : t.phase = Function.update s.phase p ph) (hid : t.nextId = s.nextId)
    (hplaces : ∀ m, t.queued.count m + ph.held.count m + t.returned.count m + s.sent.count m =
      s.queued.count m + (s.phase p).held.count m + s.returned.count m + t.sent.count m)
    (hsent : ∀ m, t.sent.count m + ph.carried.count m ≤
      s.sent.count m + (s.phase p).carried.count m) :
    (∀ m, t.places m = t.sent.count m) ∧ (∀ m, t.sent.count m + t.carriers m ≤ 1) ∧
      ∀ m, t.nextId ≤ m.id → t.sent.count m + t.carriers m = 0 := by
  refine ⟨?_, ?_, ?_⟩
  · intro m
    have h1 := h.places m
    have h2 := hplaces m
    have h3 := IpcSys.holders_update hp m hprocs hphase
    simp only [IpcSys.places] at h1 ⊢
    omega
  · intro m
    have h1 := h.once m
    have h2 := hsent m
    have h3 := IpcSys.carriers_update hp m hprocs hphase
    omega
  · intro m hm
    have h1 := h.fresh m (by omega)
    have h2 := hsent m
    have h3 := IpcSys.carriers_update hp m hprocs hphase
    omega

theorem fits_update (h : IpcMsgs s snd rcv) (hphase : t.phase = Function.update s.phase p ph)
    (hfit : ∀ m size, ph = .found (some m) size ∨
      (∃ mtype, ph = .rcvWait mtype size (some (some m))) → m.size ≤ size) :
    ∀ q m size, t.phase q = .found (some m) size ∨
      (∃ mtype, t.phase q = .rcvWait mtype size (some (some m))) → m.size ≤ size := by
  intro q m size hq
  rw [hphase] at hq
  by_cases hqp : q = p
  · subst hqp
    simp only [Function.update_self] at hq
    exact hfit m size hq
  · simp only [Function.update_of_ne hqp] at hq
    exact h.fits q m size hq

theorem unsuited_update (h : IpcMsgs s snd rcv) (hr : p ∉ rcv)
    (hphase : t.phase = Function.update s.phase p ph) (hqueued : ∀ m ∈ t.queued, m ∈ s.queued) :
    ∀ q ∈ rcv, ∀ mtype size r, t.phase q = .rcvWait mtype size r →
      ∀ m ∈ t.queued, testmsg mtype m.mtype = false := by
  intro q hq mtype size r hph m hm
  have hqp : q ≠ p := fun heq => hr (heq ▸ hq)
  rw [hphase, Function.update_of_ne hqp] at hph
  exact h.unsuited q hq mtype size r hph m (hqueued m hm)

/-- A process that waits nowhere goes on. -/
theorem alone (h : IpcMsgs s snd rcv) (hp : p < s.procs) (hr : p ∉ rcv)
    (hphase : t.phase = Function.update s.phase p ph)
    (hsame : t.procs = s.procs ∧ t.maxMsg = s.maxMsg ∧ t.sumMsg = s.sumMsg ∧
      t.queued = s.queued ∧ t.nextId = s.nextId)
    (hsent : t.sent = s.sent)
    (hheld : ∀ m, ph.held.count m + t.returned.count m =
      (s.phase p).held.count m + s.returned.count m)
    (hcarried : ∀ m, ph.carried.count m ≤ (s.phase p).carried.count m)
    (hfit : ∀ m size, ph = .found (some m) size ∨
      (∃ mtype, ph = .rcvWait mtype size (some (some m))) → m.size ≤ size)
    (hown : ∀ q m mtype ret, .received q m mtype ret ∈ t.log → mtype = m.mtype ∧ ret = m.size) :
    IpcMsgs t snd rcv := by
  obtain ⟨hprocs, hmax, hsum, hqueued, hid⟩ := hsame
  obtain ⟨hplaces, honce, hfresh⟩ := h.counts hp hprocs hphase hid
    (by intro m; have := hheld m; rw [hqueued, hsent]; omega)
    (by intro m; have := hcarried m; rw [hsent]; omega)
  refine ⟨?_, ?_, ?_, ?_, hplaces, honce, hfresh, h.fits_update hphase hfit, hown⟩
  · rw [hsum, hqueued, h.sum]
  · rw [hsum, hmax]
    exact h.max
  · rw [hsum, hmax]
    exact h.full
  · exact h.unsuited_update hr hphase (by simp [hqueued])

theorem own_cons (h : IpcMsgs s snd rcv) {r : IpcReturn}
    (hr : ∀ q m mtype ret, r = .received q m mtype ret → mtype = m.mtype ∧ ret = m.size) :
    ∀ q m mtype ret, .received q m mtype ret ∈ r :: s.log → mtype = m.mtype ∧ ret = m.size := by
  intro q m mtype ret hmem
  rcases List.mem_cons.mp hmem with heq | hmem
  · exact hr q m mtype ret heq.symm
  · exact h.own q m mtype ret hmem

theorem start (h : IpcMsgs s snd rcv) (hp : p < s.procs) (hr : p ∉ rcv) (hph : s.phase p = .idle)
    (mtype size : ℤ) (nowait : Bool) :
    IpcMsgs { s.setPhase p (.sending ⟨s.nextId, mtype, size⟩ nowait) with
      nextId := s.nextId + 1 } snd rcv := by
  set t : IpcSys := { s.setPhase p (.sending ⟨s.nextId, mtype, size⟩ nowait) with
    nextId := s.nextId + 1 } with ht
  have hphase : t.phase = Function.update s.phase p (.sending ⟨s.nextId, mtype, size⟩ nowait) :=
    rfl
  have hcarriers : ∀ m, t.carriers m = s.carriers m + [⟨s.nextId, mtype, size⟩].count m := by
    intro m
    have := IpcSys.carriers_update hp m (t := t) rfl hphase
    simpa [hph, IpcPhase.carried] using this
  refine ⟨h.sum, h.max, h.full, h.unsuited_update hr hphase (fun _ => id), ?_, ?_, ?_,
    h.fits_update hphase (by simp), h.own⟩
  · intro m
    have h1 := h.places m
    have h2 := IpcSys.holders_update hp m (t := t) rfl hphase
    simp only [hph, IpcPhase.held, List.count_nil] at h2
    simp only [IpcSys.places] at h1 ⊢
    change s.queued.count m + t.holders m + s.returned.count m = s.sent.count m
    omega
  · intro m
    rw [hcarriers m]
    change s.sent.count m + _ ≤ 1
    by_cases hm : m = ⟨s.nextId, mtype, size⟩
    · have := h.fresh m (by simp [hm])
      simp only [hm, List.count_singleton_self] at this ⊢
      omega
    · have h1 := h.once m
      have h2 : [⟨s.nextId, mtype, size⟩].count m = 0 :=
        List.count_eq_zero_of_not_mem (by simpa using hm)
      omega
  · intro m hm
    have hid : s.nextId + 1 ≤ m.id := hm
    have h1 := h.fresh m (by omega)
    have h2 : [⟨s.nextId, mtype, size⟩].count m = 0 := by
      apply List.count_eq_zero_of_not_mem
      rw [List.mem_singleton]
      rintro rfl
      exact absurd hid (Nat.not_succ_le_self _)
    rw [hcarriers m]
    change s.sent.count m + _ = 0
    omega

theorem queue (h : IpcMsgs s snd rcv) (hp : p < s.procs) (hr : p ∉ rcv) {m : Msg} {nowait : Bool}
    (hph : s.phase p = .sending m nowait) (hroom : s.sumMsg + 1 ≤ s.maxMsg)
    (hnone : ∀ q ∈ rcv, ∀ mtype size r, s.phase q = .rcvWait mtype size r →
      testmsg mtype m.mtype = false) :
    IpcMsgs ({ s with queued := s.queued ++ [m], sumMsg := s.sumMsg + 1 }.ret p (.sent p m))
      snd rcv := by
  set t : IpcSys :=
    { s with queued := s.queued ++ [m], sumMsg := s.sumMsg + 1 }.ret p (.sent p m) with ht
  have hphase : t.phase = Function.update s.phase p .idle := rfl
  have hsent : t.sent = m :: s.sent := rfl
  have hret : t.returned = s.returned := rfl
  have hqueued : t.queued = s.queued ++ [m] := rfl
  obtain ⟨hplaces, honce, hfresh⟩ := h.counts hp (t := t) rfl hphase rfl
    (by
      intro m'
      rw [hqueued, hsent, hret, hph]
      simp only [IpcPhase.held, List.count_append, List.count_nil, List.count_cons]
      omega)
    (by
      intro m'
      rw [hsent, hph]
      simp only [IpcPhase.carried, List.count_nil, List.count_cons]
      omega)
  refine ⟨?_, hroom, ?_, ?_, hplaces, honce, hfresh, h.fits_update hphase (by simp),
    h.own_cons (by simp)⟩
  · change s.sumMsg + 1 = (s.queued ++ [m]).length
    simp [h.sum]
  · intro hsnd
    have := h.full hsnd
    omega
  · intro q hq mtype size r hphq m' hm'
    have hqp : q ≠ p := fun heq => hr (heq ▸ hq)
    rw [hphase, Function.update_of_ne hqp] at hphq
    rw [hqueued, List.mem_append, List.mem_singleton] at hm'
    rcases hm' with hm' | rfl
    · exact h.unsuited q hq mtype size r hphq m' hm'
    · exact hnone q hq mtype size r hphq

theorem direct (h : IpcMsgs s snd rcv) (hl : IpcLists s snd rcv) (hp : p < s.procs) {m : Msg}
    {nowait : Bool} {q : ℕ} {mtype size : ℤ} (hph : s.phase p = .sending m nowait) (hq : q ∈ rcv)
    (hphq : s.phase q = .rcvWait mtype size none) (hsize : m.size ≤ size) :
    IpcMsgs ((((s.detach (.receiver q)).activate q).setPhase q
      (.rcvWait mtype size (some (some m)))).ret p (.sent p m)) snd (rcv.erase q) := by
  -- first the receiver changes, then the sender
  set u : IpcSys := s.setPhase q (.rcvWait mtype size (some (some m))) with hu
  set t : IpcSys := (((s.detach (.receiver q)).activate q).setPhase q
    (.rcvWait mtype size (some (some m)))).ret p (.sent p m) with ht
  have hpq : p ≠ q := by
    rintro rfl
    simp [hph] at hphq
  have hphu : u.phase p = .sending m nowait := by
    simp [hu, hpq, hph]
  have hphase : t.phase = Function.update u.phase p .idle := rfl
  have hsent : t.sent = m :: s.sent := rfl
  have hholders : ∀ m', t.holders m' = s.holders m' + [m].count m' := by
    intro m'
    have h1 := IpcSys.holders_update (hl.inRange q hq) m' (t := u) rfl rfl
    have h2 := IpcSys.holders_update (s := u) hp m' (t := t) rfl hphase
    simp only [hphq, hphu, IpcPhase.held, List.count_nil] at h1 h2
    omega
  have hcarriers : ∀ m', t.carriers m' + [m].count m' = s.carriers m' := by
    intro m'
    have h1 := IpcSys.carriers_update (hl.inRange q hq) m' (t := u) rfl rfl
    have h2 := IpcSys.carriers_update (s := u) hp m' (t := t) rfl hphase
    simp only [hphq, hphu, IpcPhase.carried, List.count_nil] at h1 h2
    omega
  have hcons : ∀ m', (m :: s.sent).count m' = s.sent.count m' + [m].count m' := by
    intro m'
    simp [List.count_cons]
  refine ⟨h.sum, h.max, h.full, ?_, ?_, ?_, ?_, ?_, h.own_cons (by simp)⟩
  · intro q' hq' mtype' size' r hph' m' hm'
    have hmem := List.mem_of_mem_erase hq'
    have hqp : q' ≠ p := by
      rintro rfl
      exact hl.notMem_rcv (by simp [hph]) hmem
    have hnd : rcv.Nodup := List.Nodup.of_map _ (List.nodup_cons.mp hl.rring.nodup).2
    have hqq : q' ≠ q := fun heq => hnd.not_mem_erase (heq ▸ hq')
    rw [hphase, Function.update_of_ne hqp, hu, IpcSys.setPhase_phase,
      Function.update_of_ne hqq] at hph'
    exact h.unsuited q' hmem mtype' size' r hph' m' hm'
  · intro m'
    have h1 := h.places m'
    rw [hsent, hcons]
    simp only [IpcSys.places] at h1
    change s.queued.count m' + t.holders m' + s.returned.count m' = _
    rw [hholders]
    omega
  · intro m'
    have h1 := h.once m'
    have h2 := hcarriers m'
    rw [hsent, hcons]
    omega
  · intro m' hm'
    have h1 := h.fresh m' hm'
    have h2 := hcarriers m'
    rw [hsent, hcons]
    omega
  · have hfit := h.fits_update (t := u) (p := q) rfl (by simpa using hsize)
    intro q' m' size' hq'
    apply hfit q' m' size'
    by_cases hqp : q' = p
    · subst hqp
      simp [hphase] at hq'
    · simpa [hphase, hqp] using hq'

theorem take (h : IpcMsgs s snd rcv) (hp : p < s.procs) (hr : p ∉ rcv) {m : Msg}
    {mtype size : ℤ} {nowait : Bool} (links : Links IpcNode) (asleep : ℕ → Bool)
    (hph : s.phase p = .receiving mtype size nowait) (hm : m ∈ s.queued) (hsize : m.size ≤ size) :
    IpcMsgs ({ s with
      links := links
      asleep := asleep
      queued := s.queued.erase m
      sumMsg := s.sumMsg - 1 }.setPhase p (.found (some m) size)) [] rcv := by
  set t : IpcSys := { s with
    links := links
    asleep := asleep
    queued := s.queued.erase m
    sumMsg := s.sumMsg - 1 }.setPhase p (.found (some m) size) with ht
  have hphase : t.phase = Function.update s.phase p (.found (some m) size) := rfl
  have hqueued : t.queued = s.queued.erase m := rfl
  have hsent : t.sent = s.sent := rfl
  have hret : t.returned = s.returned := rfl
  obtain ⟨hplaces, honce, hfresh⟩ := h.counts hp (t := t) rfl hphase rfl
    (by
      intro m'
      have hpos : m' = m → 0 < s.queued.count m' := by
        rintro rfl
        exact List.count_pos_iff.mpr hm
      rw [hqueued, hsent, hret, hph]
      simp only [IpcPhase.held, List.count_nil, List.count_erase, List.count_cons]
      by_cases heq : m = m'
      · have := hpos heq.symm
        simp only [heq, beq_self_eq_true, if_true]
        omega
      · simp only [beq_eq_false_iff_ne.mpr heq, Bool.false_eq_true, if_false]
        omega)
    (by
      intro m'
      rw [hsent, hph]
      simp [IpcPhase.carried])
  have hpos : 0 < s.queued.length := List.length_pos_of_mem hm
  refine ⟨?_, ?_, by simp, h.unsuited_update hr hphase (fun m' => List.mem_of_mem_erase), hplaces,
    honce, hfresh, h.fits_update hphase (by simpa using hsize), h.own⟩
  · change s.sumMsg - 1 = (s.queued.erase m).length
    rw [List.length_erase_of_mem hm, h.sum]
  · change s.sumMsg - 1 ≤ s.maxMsg
    have := h.max
    omega

/-- **No step loses or doubles a message.** -/
theorem step (h : IpcMsgs s snd rcv) (hl : IpcLists s snd rcv) (hp : p < s.procs) {a : IpcAct}
    {snd' rcv' : List ℕ} (he : Effect s snd rcv p a s' snd' rcv') : IpcMsgs s' snd' rcv' := by
  cases he with
  | error e hsnd hrcv hheld =>
      refine h.alone hp hrcv rfl ⟨rfl, rfl, rfl, rfl, rfl⟩ rfl ?_ ?_ (by simp)
        (h.own_cons (by simp))
      · intro m
        rw [hheld]
        rfl
      · simp [IpcPhase.carried]
  | received m size hph =>
      refine h.alone hp (hl.notMem_rcv (by simp [hph])) rfl ⟨rfl, rfl, rfl, rfl, rfl⟩ rfl ?_ ?_
        (by simp) (h.own_cons ?_)
      · intro m'
        rw [hph]
        change ([] : List Msg).count m' + (m :: s.returned).count m' = [m].count m' + _
        simp only [List.count_nil, List.count_cons]
        omega
      · simp [IpcPhase.carried]
      · have := h.fits p m size (.inl hph)
        rintro q m' mtype ret ⟨rfl, rfl, rfl, rfl⟩
        exact ⟨rfl, min_eq_right this⟩
  | start mtype size nowait hph =>
      exact h.start hp (hl.notMem_rcv (by simp [hph])) hph mtype size nowait
  | move ph hsnd hrcv hheld hcarried hfound hwait hfit =>
      refine h.alone hp hrcv rfl ⟨rfl, rfl, rfl, rfl, rfl⟩ rfl ?_ ?_ ?_ h.own
      · intro m
        rw [hheld]
        rfl
      · intro m
        rw [hcarried]
      · rintro m size (hph | ⟨mtype, hph⟩)
        · exact h.fits p m size (.inr (hfit m size hph))
        · exact absurd hph (hwait _ _ _)
  | blockSender m nowait hph hfull =>
      have hmsgs : IpcMsgs (((s.append .qSender (.sender p)).setPhase p (.sndWait m nowait)).sched p)
          snd rcv := by
        refine h.alone hp (hl.notMem_rcv (by simp [hph])) rfl ⟨rfl, rfl, rfl, rfl, rfl⟩ rfl ?_ ?_
          (by simp) h.own
        · intro m'
          rw [hph]
          rfl
        · simp [hph, IpcPhase.carried]
      refine ⟨hmsgs.sum, hmsgs.max, ?_, hmsgs.unsuited, hmsgs.places, hmsgs.once, hmsgs.fresh,
        hmsgs.fits, hmsgs.own⟩
      intro _
      have := h.max
      change s.sumMsg = s.maxMsg
      omega
  | blockReceiver mtype size nowait hph hnone =>
      have hmsgs : IpcMsgs (((s.append .qReceiver (.receiver p)).setPhase p
          (.rcvWait mtype size none)).sched p) snd rcv := by
        refine h.alone hp (hl.notMem_rcv (by simp [hph])) rfl ⟨rfl, rfl, rfl, rfl, rfl⟩ rfl ?_ ?_
          (by simp) h.own
        · intro m'
          rw [hph]
          rfl
        · simp [IpcPhase.carried]
      refine ⟨hmsgs.sum, hmsgs.max, hmsgs.full, ?_, hmsgs.places, hmsgs.once, hmsgs.fresh,
        hmsgs.fits, hmsgs.own⟩
      intro q hq mtype' size' r hphq m hm
      rcases List.mem_append.mp hq with hq | hq
      · exact hmsgs.unsuited q hq mtype' size' r hphq m hm
      · rw [List.mem_singleton.mp hq] at hphq
        simp only [IpcSys.sched_phase, IpcSys.setPhase_phase, Function.update_self] at hphq
        cases hphq
        exact hnone m hm
  | queue m nowait hph hroom hnone =>
      exact h.queue hp (hl.notMem_rcv (by simp [hph])) hph hroom hnone
  | direct m nowait q mtype size hph hq hphq hsize => exact h.direct hl hp hph hq hphq hsize
  | spin m nowait q mtype size hph hq hphq ht hsize =>
      have hnd : rcv.Nodup := List.Nodup.of_map _ (List.nodup_cons.mp hl.rring.nodup).2
      have hsub : IpcMsgs s snd (rcv.erase q) :=
        ⟨h.sum, h.max, h.full, fun q' hq' => h.unsuited q' (List.mem_of_mem_erase hq'), h.places,
          h.once, h.fresh, h.fits, h.own⟩
      refine hsub.alone (hl.inRange q hq) hnd.not_mem_erase rfl ⟨rfl, rfl, rfl, rfl, rfl⟩ rfl ?_ ?_
        (by simp) h.own
      · intro m'
        rw [hphq]
        rfl
      · simp [IpcPhase.carried]
  | take m mtype size nowait links asleep hph hm hsize hs hr hasleep =>
      exact h.take hp (hl.notMem_rcv (by simp [hph])) links asleep hph hm hsize
  | flags killed asleep ha =>
      exact ⟨h.sum, h.max, h.full, h.unsuited, h.places, h.once, h.fresh, h.fits, h.own⟩

end IpcMsgs

end OsLab
