import OsLab.Lib.Ring
import OsLab.Lib.Run
import Mathlib.Tactic.Common

/-!
# Queues

`Queue` of `common/list.c` and `BufQueue` of `driver/sd.c`, which are the same code; a
`BufQueue` is handed buffers, and finds the node inside the buffer and the buffer around
the node.  A queue keeps its first and its last node, and the nodes in between are a
circular list without a head.

What is pushed and popped is not owned by the queue: a node that is not queued can be
changed by anyone between two calls, and keeps whatever links it had when it was popped.
`sz` counts distinct nodes in memory, and does not overflow.

## Main definitions

* `queuePush`, `queuePop`, `queueFront`, `queueEmpty` — as in the source.
* `QueueImpl.step` — calls in any order, with the items that are queued.
* `IsQueue` — how the items lie in memory.
* `queue_fifo` — queues are first in, first out.
-/

namespace OsLab

universe u v
variable {α : Type u} {β : Type v}

/-- `struct Queue` without its lock, where `none` is `NULL` -/
structure Queue (α : Type u) where
  beginNode : Option α
  endNode : Option α
  sz : ℤ

/-- Why a call does not return. -/
inductive QueueFault
  | panic
  /-- a member of `NULL` is read -/
  | null
  deriving DecidableEq, Repr

/-- `queue_init` -/
def queueInit : Queue α := ⟨none, none, 0⟩

/-- `queue_front` -/
def queueFront (x : Queue α) : Except QueueFault α :=
  match x.beginNode with
  | none => .error .panic
  | some t => .ok t

/-- `queue_empty` -/
def queueEmpty (x : Queue α) : Bool := x.sz = 0

section Calls

variable [DecidableEq α]

/-- `queue_push` -/
def queuePush (l : Links α) (x : Queue α) (item : α) : Links α × Queue α :=
  let l := l.initListNode item
  if x.sz = 0 then (l, ⟨some item, some item, x.sz + 1⟩)
  else ((l.mergePtr x.endNode (some item)).1, { x with endNode := some item, sz := x.sz + 1 })

/-- `queue_pop` -/
def queuePop (l : Links α) (x : Queue α) : Except QueueFault (Links α × Queue α) :=
  if x.sz = 0 then .error .panic
  else if x.sz = 1 then .ok (l, ⟨none, none, x.sz - 1⟩)
  else match x.beginNode with
    | none => .error .null
    | some t => .ok ((l.detachPtr t).1, { x with beginNode := some (l.next t), sz := x.sz - 1 })

end Calls

/-- A structure with a node in it: `&b->node`, and `container_of(node, buf, node)`. -/
structure ListEntry (α : Type u) (β : Type v) where
  node : β → α
  containerOf : α → β
  containerOf_node : ∀ b, containerOf (node b) = b

/-- The node is the structure. -/
def ListEntry.self : ListEntry α α := ⟨id, id, fun _ => rfl⟩

/-- The node lies `off` bytes behind the start. -/
def ListEntry.offset (off : ℤ) : ListEntry ℤ ℤ :=
  ⟨fun b => b + off, fun a => a - off, fun b => Int.add_sub_cancel b off⟩

theorem ListEntry.injective (e : ListEntry α β) : Function.Injective e.node :=
  Function.LeftInverse.injective e.containerOf_node

/-- `bufqueue_front` -/
def bufqueueFront (e : ListEntry α β) (x : Queue α) : Except QueueFault β :=
  match x.beginNode with
  | none => .error .panic
  | some t => .ok (e.containerOf t)

/-- `bufqueue_empty` -/
def bufqueueEmpty (x : Queue α) : Bool := x.sz = 0

section BufCalls

variable [DecidableEq α]

/-- `bufqueue_push` -/
def bufqueuePush (e : ListEntry α β) (l : Links α) (x : Queue α) (b : β) : Links α × Queue α :=
  queuePush l x (e.node b)

/-- `bufqueue_pop` -/
def bufqueuePop (l : Links α) (x : Queue α) : Except QueueFault (Links α × Queue α) :=
  queuePop l x

end BufCalls

/-! ## Calls in any order -/

/-- The functions of a queue of `β`. -/
structure QueueImpl (α : Type u) (β : Type v) where
  node : β → α
  push : Links α → Queue α → β → Links α × Queue α
  pop : Links α → Queue α → Except QueueFault (Links α × Queue α)
  front : Queue α → Except QueueFault β
  empty : Queue α → Bool

def queueImpl [DecidableEq α] : QueueImpl α α := ⟨id, queuePush, queuePop, queueFront, queueEmpty⟩

def bufqueueImpl [DecidableEq α] (e : ListEntry α β) : QueueImpl α β :=
  ⟨e.node, bufqueuePush e, bufqueuePop, bufqueueFront e, bufqueueEmpty⟩

/-- A queue, and the links of all nodes. -/
structure QueueSys (α : Type u) where
  links : Links α
  queue : Queue α

inductive QueueCall (α : Type u) (β : Type v)
  | push (b : β)
  | pop
  | front
  /-- other code changes links -/
  | other (l : Links α)

/-- A call that panics has no step.  The second component has the items that were pushed and
not popped, oldest first. -/
def QueueImpl.step (I : QueueImpl α β) (s : QueueSys α × List β) :
    QueueCall α β → Option (QueueSys α × List β)
  | .push b =>
      let (l, q) := I.push s.1.links s.1.queue b
      some (⟨l, q⟩, s.2 ++ [b])
  | .pop =>
      match I.pop s.1.links s.1.queue with
      | .error _ => none
      | .ok (l, q) => some (⟨l, q⟩, s.2.tail)
  | .front =>
      match I.front s.1.queue with
      | .error _ => none
      | .ok _ => some s
  | .other l => some ({ s.1 with links := l }, s.2)

/-- What callers promise: an item is not pushed while it is queued, and other code leaves the
nodes of queued items alone. -/
def QueueImpl.Legal (I : QueueImpl α β) (s : QueueSys α × List β) : QueueCall α β → Prop
  | .push b => b ∉ s.2
  | .other l => ∀ b ∈ s.2, l.next (I.node b) = s.1.links.next (I.node b) ∧
      l.prev (I.node b) = s.1.links.prev (I.node b)
  | _ => True

/-- **How the items lie in memory.** -/
structure IsQueue (node : β → α) (s : QueueSys α) (items : List β) : Prop where
  sz : s.queue.sz = items.length
  begin_eq : s.queue.beginNode = items.head?.map node
  end_eq : s.queue.endNode = items.getLast?.map node
  ring : ∀ b rest, items = b :: rest → IsRing s.links (node b) (rest.map node)

/-- What the calls do to a queue with these items. -/
structure Fifo (I : QueueImpl α β) (s : QueueSys α) (items : List β) : Prop where
  isQueue : IsQueue I.node s items
  empty : I.empty s.queue = true ↔ items = []
  front : I.front s.queue = match items with
    | [] => .error .panic
    | b :: _ => .ok b
  pop_nil : items = [] → I.pop s.links s.queue = .error .panic
  pop_cons : ∀ b rest, items = b :: rest → ∃ l q, I.pop s.links s.queue = .ok (l, q) ∧
    IsQueue I.node ⟨l, q⟩ rest
  push : ∀ b, b ∉ items →
    IsQueue I.node ⟨(I.push s.links s.queue b).1, (I.push s.links s.queue b).2⟩ (items ++ [b])

namespace IsQueue

variable {e : ListEntry α β} {s : QueueSys α} {items rest : List β} {b c : β}

theorem init (node : β → α) (l : Links α) : IsQueue node ⟨l, queueInit⟩ [] :=
  ⟨rfl, rfl, rfl, fun _ _ h => absurd h (by simp)⟩

/-- The node at the end. -/
theorem end_prev (h : IsQueue e.node s (b :: rest)) :
    s.queue.endNode = some (s.links.prev (e.node b)) := by
  have hlast := (h.ring b rest rfl).last
  rw [h.end_eq, ← List.getLast?_map, List.map_cons, hlast]

/-- Only the links of queued nodes matter. -/
theorem other {l : Links α} (h : IsQueue e.node s items)
    (hl : ∀ b ∈ items, l.next (e.node b) = s.links.next (e.node b) ∧
      l.prev (e.node b) = s.links.prev (e.node b)) :
    IsQueue e.node { s with links := l } items := by
  refine ⟨h.sz, h.begin_eq, h.end_eq, ?_⟩
  rintro b rest rfl
  have hmem : ∀ a ∈ e.node b :: rest.map e.node, ∃ d ∈ b :: rest, e.node d = a := by
    intro a ha
    rw [← List.map_cons] at ha
    exact List.mem_map.mp ha
  apply (h.ring b rest rfl).congr
  · intro a ha
    obtain ⟨d, hd, rfl⟩ := hmem a ha
    exact (hl d hd).1
  · intro a ha
    obtain ⟨d, hd, rfl⟩ := hmem a ha
    exact (hl d hd).2

variable [DecidableEq α]

theorem push_nil (h : IsQueue e.node s []) :
    IsQueue e.node ⟨(bufqueuePush e s.links s.queue b).1, (bufqueuePush e s.links s.queue b).2⟩
      [b] := by
  have hsz : s.queue.sz = 0 := h.sz
  have hpush : bufqueuePush e s.links s.queue b =
      (s.links.initListNode (e.node b), ⟨some (e.node b), some (e.node b), s.queue.sz + 1⟩) := by
    rw [bufqueuePush, queuePush, if_pos hsz]
  rw [hpush]
  refine ⟨by simp [hsz], rfl, rfl, ?_⟩
  intro c rest hc
  cases hc
  exact IsRing.init _ _

theorem push_cons (h : IsQueue e.node s (c :: rest)) (hb : b ∉ c :: rest) :
    IsQueue e.node ⟨(bufqueuePush e s.links s.queue b).1, (bufqueuePush e s.links s.queue b).2⟩
      (c :: rest ++ [b]) := by
  have hsz := h.sz
  rw [List.length_cons] at hsz
  have hring := h.ring c rest rfl
  have hnode : e.node b ∉ e.node c :: rest.map e.node := by
    rw [← List.map_cons]
    intro hm
    obtain ⟨d, hd, heq⟩ := List.mem_map.mp hm
    exact hb (e.injective heq ▸ hd)
  have hpush : bufqueuePush e s.links s.queue b =
      (s.links.insertIntoList (s.links.prev (e.node c)) (e.node b),
        { s.queue with endNode := some (e.node b), sz := s.queue.sz + 1 }) := by
    rw [bufqueuePush, queuePush, if_neg (by omega), h.end_prev]
    rfl
  rw [hpush]
  refine ⟨?_, ?_, ?_, ?_⟩
  · simp [hsz]
  · simpa using h.begin_eq
  · rw [List.getLast?_concat]
    rfl
  · intro d ds hd
    rw [List.cons_append, List.cons.injEq] at hd
    obtain ⟨rfl, rfl⟩ := hd
    rw [List.map_append]
    exact hring.insert hnode

/-- **An item goes to the end.** -/
theorem push (h : IsQueue e.node s items) (hb : b ∉ items) :
    IsQueue e.node ⟨(bufqueuePush e s.links s.queue b).1, (bufqueuePush e s.links s.queue b).2⟩
      (items ++ [b]) := by
  cases items with
  | nil => exact h.push_nil
  | cons c rest => exact h.push_cons hb

/-- The last item leaves, and its node stays as it is. -/
theorem pop_single (h : IsQueue e.node s [b]) :
    bufqueuePop s.links s.queue = .ok (s.links, ⟨none, none, s.queue.sz - 1⟩) ∧
      IsQueue e.node ⟨s.links, ⟨none, none, s.queue.sz - 1⟩⟩ [] := by
  have hsz : s.queue.sz = 1 := h.sz
  refine ⟨?_, by simp [hsz], rfl, rfl, fun _ _ h => absurd h (by simp)⟩
  rw [bufqueuePop, queuePop, if_neg (by omega), if_pos hsz]

/-- The oldest of several items leaves, and its node becomes a list of its own. -/
theorem pop_more (h : IsQueue e.node s (b :: c :: rest)) :
    bufqueuePop s.links s.queue = .ok (s.links.detachFromList (e.node b),
      { s.queue with beginNode := some (e.node c), sz := s.queue.sz - 1 }) ∧
      IsQueue e.node ⟨s.links.detachFromList (e.node b),
        { s.queue with beginNode := some (e.node c), sz := s.queue.sz - 1 }⟩ (c :: rest) := by
  have hsz := h.sz
  rw [List.length_cons, List.length_cons] at hsz
  have hring := h.ring b (c :: rest) rfl
  rw [List.map_cons] at hring
  have hnext : s.links.next (e.node b) = e.node c := by simpa using hring.first.1.symm
  have hbegin : s.queue.beginNode = some (e.node b) := h.begin_eq
  constructor
  · rw [bufqueuePop, queuePop, if_neg (by omega), if_neg (by omega), hbegin]
    simp only [hnext]
    rfl
  · refine ⟨?_, rfl, ?_, ?_⟩
    · simp [hsz]
    · simpa using h.end_eq
    · intro d ds hd
      rw [List.cons.injEq] at hd
      obtain ⟨rfl, rfl⟩ := hd
      exact hring.detach_head

theorem pop_cons (h : IsQueue e.node s (b :: rest)) :
    ∃ l q, bufqueuePop s.links s.queue = .ok (l, q) ∧ IsQueue e.node ⟨l, q⟩ rest := by
  cases rest with
  | nil => exact ⟨_, _, h.pop_single⟩
  | cons c rest => exact ⟨_, _, h.pop_more⟩

theorem pop_nil (h : IsQueue e.node s []) : bufqueuePop s.links s.queue = .error .panic := by
  have hsz : s.queue.sz = 0 := h.sz
  rw [bufqueuePop, queuePop, if_pos hsz]

theorem fifo (h : IsQueue e.node s items) : Fifo (bufqueueImpl e) s items where
  isQueue := h
  empty := by simp [bufqueueImpl, bufqueueEmpty, h.sz]
  front := by
    cases items with
    | nil => simp [bufqueueImpl, bufqueueFront, h.begin_eq]
    | cons b rest => simp [bufqueueImpl, bufqueueFront, h.begin_eq, e.containerOf_node]
  pop_nil := by
    rintro rfl
    exact h.pop_nil
  pop_cons := by
    rintro b rest rfl
    exact h.pop_cons
  push _ hb := h.push hb

/-- **Every call** of a run keeps the items in memory as they are listed. -/
theorem step {s s' : QueueSys α × List β} {a : QueueCall α β} (h : IsQueue e.node s.1 s.2)
    (hok : (bufqueueImpl e).Legal s a) (hs : (bufqueueImpl e).step s a = some s') :
    IsQueue e.node s'.1 s'.2 := by
  cases a with
  | push b =>
      cases hs
      exact h.push hok
  | pop =>
      obtain ⟨s, items⟩ := s
      cases items with
      | nil => simp [QueueImpl.step, bufqueueImpl, h.pop_nil] at hs
      | cons b rest =>
          obtain ⟨l, q, hpop, hq⟩ := h.pop_cons
          simp only [QueueImpl.step, bufqueueImpl, hpop] at hs
          cases hs
          exact hq
  | front =>
      simp only [QueueImpl.step] at hs
      split at hs
      · cases hs
      · cases hs
        exact h
  | other l =>
      cases hs
      exact h.other hok

end IsQueue

theorem bufqueue_fifo [DecidableEq α] (e : ListEntry α β) (l : Links α) (s : QueueSys α)
    (items : List β)
    (h : Reach (bufqueueImpl e).step (bufqueueImpl e).Legal (⟨l, queueInit⟩, []) (s, items)) :
    Fifo (bufqueueImpl e) s items := by
  have hq : IsQueue e.node s items := by
    refine Reach.invariant (P := fun s => IsQueue e.node s.1 s.2) h (IsQueue.init _ _) ?_
    intro s a s' hs hok hstep
    exact hs.step hok hstep
  exact hq.fifo

/-- **Queues are first in, first out**, after any calls in any order. -/
theorem queue_fifo :
    (∀ (α : Type u) [DecidableEq α] (l : Links α) (s : QueueSys α) (items : List α),
      Reach queueImpl.step queueImpl.Legal (⟨l, queueInit⟩, []) (s, items) →
      Fifo queueImpl s items) ∧
    ∀ (α : Type u) (β : Type v) [DecidableEq α] (e : ListEntry α β) (l : Links α)
      (s : QueueSys α) (items : List β),
      Reach (bufqueueImpl e).step (bufqueueImpl e).Legal (⟨l, queueInit⟩, []) (s, items) →
      Fifo (bufqueueImpl e) s items := by
  refine ⟨?_, ?_⟩
  · intro α _ l s items h
    exact bufqueue_fifo .self l s items h
  · intro α β _ e l s items h
    exact bufqueue_fifo e l s items h

/-- Calls only, of items that are not queued. -/
def fresh [DecidableEq β] (s : QueueSys α × List β) : QueueCall α β → Bool
  | .push b => b ∉ s.2
  | .other _ => false
  | _ => true

theorem legal_of_fresh [DecidableEq β] (I : QueueImpl α β) (s : QueueSys α × List β)
    (a : QueueCall α β) (h : fresh s a = true) : I.Legal s a := by
  cases a with
  | push b =>
      have hb : b ∉ s.2 := of_decide_eq_true h
      exact hb
  | other l => cases h
  | _ => trivial

/-- The buffer at 1000 is pushed again after it was popped; the one at 2000 is older then. -/
theorem queue_fifo_again : ∃ (s : QueueSys ℤ) (t : QueueSys ℕ),
    Fifo (bufqueueImpl (.offset 24)) s [2000, 1000] ∧ Fifo queueImpl t [2024, 1024] := by
  have hbuf : (runs (fun s a => if fresh s a then (bufqueueImpl (.offset 24)).step s a else none)
      (⟨⟨id, id⟩, queueInit⟩, []) [.push 1000, .push 2000, .front, .pop, .push 1000]).map Prod.snd =
      some [2000, 1000] := by decide
  have hnode : (runs (fun s a => if fresh s a then queueImpl.step s a else none)
      (⟨⟨id, id⟩, queueInit⟩, []) [.push 1024, .push 2024, .front, .pop, .push 1024]).map Prod.snd =
      some [2024, 1024] := by decide
  obtain ⟨⟨s, items⟩, hs, rfl⟩ := Option.map_eq_some_iff.mp hbuf
  obtain ⟨⟨t, items'⟩, ht, rfl⟩ := Option.map_eq_some_iff.mp hnode
  refine ⟨s, t, ?_, ?_⟩
  · exact queue_fifo.2 ℤ ℤ _ _ s _ (Reach.of_tested .init (legal_of_fresh _) _ hs)
  · exact queue_fifo.{0, 0}.1 ℕ _ t _ (Reach.of_tested .init (legal_of_fresh _) _ ht)

end OsLab
