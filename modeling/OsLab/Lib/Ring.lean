import Mathlib.Data.List.Chain
import Mathlib.Data.List.Nodup
import Mathlib.Logic.Function.Basic

/-!
# Circular lists

The doubly linked circular lists of `common/list.c`, over an arbitrary type of nodes.
Every node has its two pointers all the time; a list is a head and the nodes that are
linked to it.  Nothing keeps a node from being inserted while it is still linked, so
the functions say nothing about lists: `IsRing` does.

## Main definitions

* `Links` — the pointers, with `initListNode`, `mergeList`, `insertIntoList` and
  `detachFromList` as in the source.
* `Links.nodes` — what a loop over a list finds.
* `IsRing l h ns` — the nodes linked to the head `h` are `ns`, in order.
-/

namespace OsLab

universe u
variable {α : Type u}

/-- The pointers of every node. -/
structure Links (α : Type u) where
  next : α → α
  prev : α → α

namespace Links

/-- `b` stands right after `a`. -/
def Link (l : Links α) (a b : α) : Prop := l.next a = b ∧ l.prev b = a

variable [DecidableEq α]

instance (l : Links α) : DecidableRel l.Link :=
  fun a b => inferInstanceAs (Decidable (l.next a = b ∧ l.prev b = a))

/-- `init_list_node(node)` -/
def initListNode (l : Links α) (a : α) : Links α where
  next := Function.update l.next a a
  prev := Function.update l.prev a a

/-- `_merge_list(node1, node2)` -/
def mergeList (l : Links α) (a b : α) : Links α :=
  let c := l.next a
  let d := l.prev b
  { next := Function.update (Function.update l.next a b) d c
    prev := Function.update (Function.update l.prev b a) c d }

/-- `_insert_into_list(list, node)` -/
def insertIntoList (l : Links α) (a x : α) : Links α := (l.initListNode x).mergeList a x

/-- `_detach_from_list(node)` -/
def detachFromList (l : Links α) (x : α) : Links α :=
  let l := { l with next := Function.update l.next (l.prev x) (l.next x) }
  let l := { l with prev := Function.update l.prev (l.next x) (l.prev x) }
  l.initListNode x

/-- `_merge_list(node1, node2)` with its result, where `none` is `NULL` -/
def mergePtr (l : Links α) : Option α → Option α → Links α × Option α
  | none, b => (l, b)
  | some a, none => (l, some a)
  | some a, some b => (l.mergeList a b, some a)

/-- `_detach_from_list(node)` with its result, where `none` is `NULL` -/
def detachPtr (l : Links α) (x : α) : Links α × Option α :=
  let p := l.prev x
  (l.detachFromList x, if p = x then none else some p)

/-- The nodes from `a` on up to the head `h`; `none` if the head is not among the first `fuel`. -/
def walk (l : Links α) (h : α) : ℕ → α → Option (List α)
  | 0, _ => none
  | fuel + 1, a => if a = h then some [] else (walk l h fuel (l.next a)).map (a :: ·)

/-- The nodes that a loop over the list of head `h` finds. -/
def nodes (l : Links α) (h : α) (fuel : ℕ) : Option (List α) := l.walk h fuel (l.next h)

theorem insertIntoList_eq {l : Links α} {a x : α} (hax : a ≠ x) :
    l.insertIntoList a x =
      { next := Function.update (Function.update l.next a x) x (l.next a)
        prev := Function.update (Function.update l.prev x a) (l.next a) x } := by
  rw [insertIntoList, mergeList]
  congr 1
  · funext b
    simp only [initListNode, Function.update_self, Function.update_of_ne hax]
    grind
  · funext b
    simp only [initListNode, Function.update_self, Function.update_of_ne hax]
    grind

theorem detachFromList_eq (l : Links α) (x : α) :
    l.detachFromList x =
      { next := Function.update (Function.update l.next (l.prev x) (l.next x)) x x
        prev := Function.update (Function.update l.prev (l.next x) (l.prev x)) x x } := by
  have hnext : Function.update l.next (l.prev x) (l.next x) x = l.next x := by
    by_cases hx : x = l.prev x
    · rw [← hx, Function.update_self]
    · rw [Function.update_of_ne hx]
  simp only [detachFromList, initListNode, hnext]

end Links

/-- **The nodes linked to the head `h` are `ns`.** -/
structure IsRing (l : Links α) (h : α) (ns : List α) : Prop where
  nodup : (h :: ns).Nodup
  chain : List.IsChain l.Link (h :: (ns ++ [h]))

namespace IsRing

variable {l l' : Links α} {h h' x : α} {ns ns' as bs : List α}

/-- Only the pointers of the nodes of a list matter. -/
theorem congr (hr : IsRing l h ns) (hnext : ∀ a ∈ h :: ns, l'.next a = l.next a)
    (hprev : ∀ a ∈ h :: ns, l'.prev a = l.prev a) : IsRing l' h ns := by
  refine ⟨hr.nodup, ?_⟩
  apply List.IsChain.imp_of_mem_imp _ hr.chain
  intro a b ha hb hab
  have ha' : a ∈ h :: ns := by simpa [or_comm] using ha
  have hb' : b ∈ h :: ns := by simpa [or_comm] using hb
  exact ⟨by rw [hnext a ha', hab.1], by rw [hprev b hb', hab.2]⟩

/-- The last link of a list leads back to the head. -/
theorem chain_iff : List.IsChain l.Link (h :: (ns ++ [x])) ↔
    List.IsChain l.Link (h :: ns) ∧ ∀ z ∈ (h :: ns).getLast?, l.Link z x := by
  rw [← List.cons_append, List.isChain_append]
  simp

theorem last (hr : IsRing l h ns) : (h :: ns).getLast? = some (l.prev h) := by
  have hlink := (chain_iff.mp hr.chain).2
  cases hz : (h :: ns).getLast? with
  | none => simp at hz
  | some z => rw [(hlink z hz).2]

theorem last_mem (hr : IsRing l h ns) : l.prev h ∈ h :: ns := List.mem_of_getLast? hr.last

theorem last_link (hr : IsRing l h ns) : l.Link (l.prev h) h :=
  (chain_iff.mp hr.chain).2 _ hr.last

/-- Inside a list no link leads to the head. -/
theorem ne_last (hr : IsRing l h ns) {a b : α} (hb : b ∈ ns) (hab : l.Link a b) :
    a ≠ l.prev h := by
  rintro rfl
  have hbh : b = h := by rw [← hab.1, hr.last_link.1]
  exact (List.nodup_cons.mp hr.nodup).1 (hbh ▸ hb)

/-- The neighbours of a node. -/
theorem neighbours (hr : IsRing l h (as ++ x :: bs)) :
    (h :: as).getLast? = some (l.prev x) ∧ l.Link (l.prev x) x ∧
      (bs ++ [h]).head? = some (l.next x) ∧ l.Link x (l.next x) := by
  have hc := hr.chain
  rw [List.append_assoc, List.cons_append, List.isChain_cons_split] at hc
  obtain ⟨hfront, hback⟩ := hc
  have hlink := (chain_iff.mp hfront).2
  have hlast : (h :: as).getLast? = some (l.prev x) := by
    cases hz : (h :: as).getLast? with
    | none => simp at hz
    | some z => rw [(hlink z hz).2]
  refine ⟨hlast, hlink _ hlast, ?_⟩
  cases hbs : bs ++ [h] with
  | nil => simp at hbs
  | cons n rest =>
      rw [hbs, List.isChain_cons_cons] at hback
      have hn : l.next x = n := hback.1.1
      rw [hn]
      exact ⟨rfl, hback.1⟩

theorem prev_mem (hr : IsRing l h ns) (hx : x ∈ h :: ns) : l.prev x ∈ h :: ns := by
  rcases List.mem_cons.mp hx with rfl | hx
  · exact hr.last_mem
  · obtain ⟨as, bs, rfl⟩ := List.append_of_mem hx
    have := List.mem_of_getLast? hr.neighbours.1
    grind

/-- The first link of a list leads from the head. -/
theorem first (hr : IsRing l h ns) :
    (ns ++ [h]).head? = some (l.next h) ∧ l.Link h (l.next h) := by
  have hc := hr.chain
  cases hns : ns ++ [h] with
  | nil => simp at hns
  | cons n rest =>
      rw [hns, List.isChain_cons_cons] at hc
      rw [hc.1.1]
      exact ⟨rfl, hc.1⟩

theorem next_mem (hr : IsRing l h ns) (hx : x ∈ h :: ns) : l.next x ∈ h :: ns := by
  rcases List.mem_cons.mp hx with rfl | hx
  · have := List.mem_of_head? hr.first.1
    grind
  · obtain ⟨as, bs, rfl⟩ := List.append_of_mem hx
    have := List.mem_of_head? hr.neighbours.2.2.1
    grind

/-- A list is empty when its head points to itself. -/
theorem next_head_iff (hr : IsRing l h ns) : l.next h = h ↔ ns = [] := by
  have hc := hr.chain
  cases ns with
  | nil =>
      have hlink : l.Link h h := by simpa using hc
      simp [hlink.1]
  | cons a ns =>
      rw [List.cons_append, List.isChain_cons_cons] at hc
      have ha : a ≠ h := fun heq => (List.nodup_cons.mp hr.nodup).1 (by simp [heq])
      simp [hc.1.1, ha]

/-- A node is its own predecessor when it is alone. -/
theorem prev_eq_iff (hr : IsRing l h ns) : l.prev h = h ↔ ns = [] := by
  have hlink := hr.last_link
  rw [← hr.next_head_iff]
  constructor
  · intro hp
    rw [hp] at hlink
    exact hlink.1
  · intro hn
    have hlast := hr.first.2
    rw [hn] at hlast
    exact hlast.2

/-- A linked node does not point to itself. -/
theorem next_ne (hr : IsRing l h ns) (hx : x ∈ ns) : l.next x ≠ x := by
  have hnd := hr.nodup
  obtain ⟨as, bs, rfl⟩ := List.append_of_mem hx
  have := List.mem_of_head? hr.neighbours.2.2.1
  grind

variable [DecidableEq α]

instance (l : Links α) (h : α) (ns : List α) : Decidable (IsRing l h ns) :=
  decidable_of_iff ((h :: ns).Nodup ∧ List.IsChain l.Link (h :: (ns ++ [h])))
    ⟨fun hr => ⟨hr.1, hr.2⟩, fun hr => ⟨hr.nodup, hr.chain⟩⟩

theorem init (l : Links α) (h : α) : IsRing (l.initListNode h) h [] := by
  refine ⟨by simp, ?_⟩
  simp [Links.Link, Links.initListNode]

/-- **A node that is not linked goes to the end of the list.** -/
theorem insert (hr : IsRing l h ns) (hx : x ∉ h :: ns) :
    IsRing (l.insertIntoList (l.prev h) x) h (ns ++ [x]) := by
  have hlast := hr.last_link
  have hxh : x ≠ h := fun heq => hx (by simp [heq])
  have hxl : l.prev h ≠ x := fun heq => hx (heq ▸ hr.last_mem)
  rw [Links.insertIntoList_eq hxl, hlast.1]
  refine ⟨?_, ?_⟩
  · rw [← List.cons_append, List.nodup_append]
    refine ⟨hr.nodup, by simp, ?_⟩
    intro a ha b hb heq
    rw [List.mem_singleton.mp hb] at heq
    exact hx (heq ▸ ha)
  · rw [List.append_assoc, List.singleton_append, List.isChain_cons_split]
    refine ⟨chain_iff.mpr ⟨?_, ?_⟩, ?_⟩
    · apply List.IsChain.imp_of_mem_tail_imp _ (chain_iff.mp hr.chain).1
      intro a b ha hb hab
      have hb' : b ∈ h :: ns := List.mem_cons_of_mem _ hb
      have hax : a ≠ x := fun heq => hx (heq ▸ ha)
      have hbx : b ≠ x := fun heq => hx (heq ▸ hb')
      have hbh : b ≠ h := fun heq => (List.nodup_cons.mp hr.nodup).1 (heq ▸ hb)
      simp [Links.Link, hax, hbx, hbh, hr.ne_last hb hab, hab.1, hab.2]
    · intro z hz
      rw [hr.last, Option.mem_some_iff] at hz
      subst hz
      simp [Links.Link, hxl, hxh]
    · simp [Links.Link]

/-- **Detaching takes the node out of the list.** -/
theorem detach (hr : IsRing l h (as ++ x :: bs)) : IsRing (l.detachFromList x) h (as ++ bs) := by
  obtain ⟨hlast, hprev, hhead, hnext⟩ := hr.neighbours
  have hnd := hr.nodup
  have hpm : l.prev x ∈ h :: as := List.mem_of_getLast? hlast
  have hnm : l.next x ∈ bs ++ [h] := List.mem_of_head? hhead
  have hc := hr.chain
  rw [List.append_assoc, List.cons_append, List.isChain_cons_split] at hc
  obtain ⟨hfront, hback⟩ := hc
  rw [Links.detachFromList_eq]
  refine ⟨by grind, ?_⟩
  rw [List.append_assoc, ← List.cons_append, List.isChain_append]
  refine ⟨?_, ?_, ?_⟩
  · apply List.IsChain.imp_of_mem_tail_imp _ (chain_iff.mp hfront).1
    intro a b ha hb hab
    have hap : a ≠ l.prev x := by
      rintro rfl
      have hbx : b = x := by rw [← hab.1, hprev.1]
      grind
    have hbn : b ≠ l.next x := by grind
    have hax : a ≠ x := by grind
    have hbx : b ≠ x := by grind
    simp [Links.Link, hap, hbn, hax, hbx, hab.1, hab.2]
  · apply List.IsChain.imp_of_mem_imp _ (List.IsChain.tail hback)
    intro a b ha hb hab
    have hap : a ≠ l.prev x := by
      rintro rfl
      have hbx : b = x := by rw [← hab.1, hprev.1]
      grind
    have hax : a ≠ x := by grind
    have hbn : b ≠ l.next x := by
      rintro rfl
      exact hax (by rw [← hab.2, hnext.2])
    have hbx : b ≠ x := by grind
    simp [Links.Link, hap, hbn, hax, hbx, hab.1, hab.2]
  · intro z hz y hy
    rw [hlast, Option.mem_some_iff] at hz
    rw [hhead, Option.mem_some_iff] at hy
    subst hz hy
    have hpx : l.prev x ≠ x := by grind
    have hnx : l.next x ≠ x := by grind
    simp [Links.Link, hpx, hnx]

theorem detach_erase (hr : IsRing l h ns) (hx : x ∈ ns) :
    IsRing (l.detachFromList x) h (ns.erase x) := by
  obtain ⟨as, bs, hnot, rfl, herase⟩ := List.exists_erase_eq hx
  rw [herase]
  exact hr.detach

/-- **A node that is not linked goes to the front of the list.** -/
theorem insert_front (hr : IsRing l h ns) (hx : x ∉ h :: ns) :
    IsRing (l.insertIntoList h x) h (x :: ns) := by
  have hnd := hr.nodup
  have hc := hr.chain
  have hhx : h ≠ x := fun heq => hx (by simp [heq])
  rw [Links.insertIntoList_eq hhx]
  refine ⟨by grind, ?_⟩
  cases ns with
  | nil =>
      have hlink : l.Link h h := by simpa using hc
      simp [Links.Link, hhx, hhx.symm, hlink.1]
  | cons c cs =>
      obtain ⟨hfirst, hrest⟩ : l.Link h c ∧ List.IsChain l.Link (c :: (cs ++ [h])) := by
        rwa [List.cons_append, List.isChain_cons_cons] at hc
      obtain ⟨hin, hlast⟩ := chain_iff.mp hrest
      have hcx : c ≠ x := by grind
      have hch : c ≠ h := by grind
      rw [hfirst.1, List.cons_append, List.isChain_cons_cons, List.cons_append,
        List.isChain_cons_cons, chain_iff]
      refine ⟨by simp [Links.Link, hhx, hcx.symm], by simp [Links.Link], ?_, ?_⟩
      · apply List.IsChain.imp_of_mem_tail_imp _ hin
        intro a b ha hb hab
        have hax : a ≠ x := by grind
        have hah : a ≠ h := by grind
        have hbx : b ≠ x := by grind
        have hbc : b ≠ c := by grind
        simp [Links.Link, hax, hah, hbx, hbc, hab.1, hab.2]
      · intro z hz
        have hlink := hlast z hz
        have hzm : z ∈ c :: cs := List.mem_of_getLast? hz
        have hzx : z ≠ x := by grind
        have hzh : z ≠ h := by grind
        simp [Links.Link, hzx, hzh, hhx, hch.symm, hlink.1, hlink.2]

/-- Inserting into another list, behind any of its nodes. -/
theorem insert_frame (hr : IsRing l h ns) (hr' : IsRing l h' ns') {c : α} (hc : c ∈ h' :: ns')
    (hdisj : ∀ a ∈ h :: ns, a ∉ h' :: ns') (hx : x ∉ h :: ns) (hx' : x ∉ h' :: ns') :
    IsRing (l.insertIntoList c x) h ns := by
  have hcx : c ≠ x := fun heq => hx' (heq ▸ hc)
  rw [Links.insertIntoList_eq hcx]
  apply hr.congr
  · intro a ha
    have hax : a ≠ x := fun heq => hx (heq ▸ ha)
    have hac : a ≠ c := fun heq => hdisj a ha (heq ▸ hc)
    simp [hax, hac]
  · intro a ha
    have hax : a ≠ x := fun heq => hx (heq ▸ ha)
    have han : a ≠ l.next c := fun heq => hdisj a ha (heq ▸ hr'.next_mem hc)
    simp [hax, han]

/-- Any node of a list may be taken as its head. -/
theorem rotate (hr : IsRing l h (as ++ x :: bs)) : IsRing l x (bs ++ h :: as) := by
  have hnd := hr.nodup
  have hc := hr.chain
  rw [List.append_assoc, List.cons_append, List.isChain_cons_split] at hc
  refine ⟨by grind, ?_⟩
  rw [List.append_assoc, List.cons_append, List.isChain_cons_split]
  exact ⟨hc.2, hc.1⟩

/-- The next node of the head. -/
theorem rotate_head (hr : IsRing l h (x :: bs)) : IsRing l x (bs ++ [h]) := by
  have hr' : IsRing l h ([] ++ x :: bs) := hr
  exact hr'.rotate

/-- **Detaching the head leaves the other nodes**, in their order. -/
theorem detach_head {c : α} {cs : List α} (hr : IsRing l h (c :: cs)) :
    IsRing (l.detachFromList h) c cs := by
  simpa using hr.rotate_head.detach

/-- **Merging** puts the second list between the first node and its successor. -/
theorem merge {a b : α} (ha : IsRing l a as) (hb : IsRing l b bs)
    (hdisj : ∀ z ∈ a :: as, z ∉ b :: bs) : IsRing (l.mergeList a b) a (b :: (bs ++ as)) := by
  have hnda := ha.nodup
  have hndb := hb.nodup
  have hd : l.prev b ∈ b :: bs := hb.last_mem
  have hc : l.next a ∈ a :: as := ha.next_mem (by simp)
  have hhead := ha.first.1
  have hba : b ∉ a :: as := fun hm => hdisj b hm (by simp)
  have hne : b ≠ a := by grind
  rw [Links.mergeList]
  refine ⟨by grind, ?_⟩
  rw [List.cons_append, List.isChain_cons_cons, List.append_assoc, ← List.cons_append,
    List.isChain_append]
  refine ⟨?_, ?_, ?_, ?_⟩
  · -- from the first node to the second list
    have had : a ≠ l.prev b := by grind
    have hbc : b ≠ l.next a := by grind
    simp [Links.Link, had, hbc]
  · -- inside the second list
    apply List.IsChain.imp_of_mem_tail_imp _ (chain_iff.mp hb.chain).1
    intro u v hu hv huv
    have hvm : v ∈ bs := hv
    have hud := hb.ne_last hvm huv
    have hua : u ≠ a := by grind
    have hvb : v ≠ b := by grind
    have hvc : v ≠ l.next a := by grind
    simp [Links.Link, hud, hua, hvb, hvc, huv.1, huv.2]
  · -- inside the rest of the first list
    apply List.IsChain.imp_of_mem_tail_imp _ ha.chain.tail
    intro u v hu hv huv
    have hum : u ∈ as ++ [a] := hu
    have hvm : v ∈ as ++ [a] := List.mem_of_mem_tail hv
    have hvc : v ≠ l.next a := by
      have hnd : (as ++ [a]).Nodup := by grind
      cases hl : as ++ [a] with
      | nil => simp at hl
      | cons w ws =>
          rw [hl] at hhead hnd
          have hvw : v ∈ ws := by simpa [hl] using hv
          have hw : w = l.next a := by simpa using hhead
          grind
    have hua : u ≠ a := by
      rintro rfl
      exact hvc huv.1.symm
    have hud : u ≠ l.prev b := by grind
    have hvb : v ≠ b := by grind
    simp [Links.Link, hua, hud, hvb, hvc, huv.1, huv.2]
  · -- from the second list back to the first
    intro z hz y hy
    rw [hb.last, Option.mem_some_iff] at hz
    rw [hhead, Option.mem_some_iff] at hy
    subst hz hy
    simp [Links.Link]

/-- Merging leaves the nodes of other lists alone. -/
theorem merge_of_notMem {a b z : α} (ha : IsRing l a as) (hb : IsRing l b bs)
    (hza : z ∉ a :: as) (hzb : z ∉ b :: bs) :
    (l.mergeList a b).next z = l.next z ∧ (l.mergeList a b).prev z = l.prev z := by
  have hd : z ≠ l.prev b := fun heq => hzb (heq ▸ hb.last_mem)
  have hc : z ≠ l.next a := fun heq => hza (heq ▸ ha.next_mem (by simp))
  have hne : z ≠ a ∧ z ≠ b := by grind
  simp [Links.mergeList, hd, hc, hne.1, hne.2]

/-- Detaching leaves the nodes of other lists alone. -/
theorem detach_of_notMem {z : α} (hr : IsRing l h ns) (hx : x ∈ h :: ns) (hz : z ∉ h :: ns) :
    (l.detachFromList x).next z = l.next z ∧ (l.detachFromList x).prev z = l.prev z := by
  have hzx : z ≠ x := fun heq => hz (heq ▸ hx)
  have hp : z ≠ l.prev x := fun heq => hz (heq ▸ hr.prev_mem hx)
  have hn : z ≠ l.next x := fun heq => hz (heq ▸ hr.next_mem hx)
  simp [Links.detachFromList_eq, hzx, hp, hn]

/-- Detaching from another list. -/
theorem detach_frame (hr : IsRing l h ns) (hr' : IsRing l h' ns')
    (hdisj : ∀ a ∈ h :: ns, a ∉ h' :: ns') (hx : x ∈ h' :: ns') :
    IsRing (l.detachFromList x) h ns :=
  hr.congr (fun a ha => (hr'.detach_of_notMem hx (hdisj a ha)).1)
    (fun a ha => (hr'.detach_of_notMem hx (hdisj a ha)).2)

/-- Merging other lists. -/
theorem merge_frame {a b : α} (hr : IsRing l h ns) (ha : IsRing l a as) (hb : IsRing l b bs)
    (hdisja : ∀ z ∈ h :: ns, z ∉ a :: as) (hdisjb : ∀ z ∈ h :: ns, z ∉ b :: bs) :
    IsRing (l.mergeList a b) h ns :=
  hr.congr (fun z hz => (ha.merge_of_notMem hb (hdisja z hz) (hdisjb z hz)).1)
    (fun z hz => (ha.merge_of_notMem hb (hdisja z hz) (hdisjb z hz)).2)

theorem walk_eq {a : α} {fuel : ℕ} (hc : List.IsChain l.Link (a :: (ns ++ [h])))
    (hh : h ∉ ns) (hfuel : ns.length < fuel) : l.walk h fuel (l.next a) = some ns := by
  induction ns generalizing a fuel with
  | nil =>
      obtain ⟨fuel, rfl⟩ := Nat.exists_eq_succ_of_ne_zero (by omega : fuel ≠ 0)
      have hlink : l.Link a h := by simpa using hc
      simp [Links.walk, hlink.1]
  | cons b ns ih =>
      rw [List.length_cons] at hfuel
      obtain ⟨fuel, rfl⟩ := Nat.exists_eq_succ_of_ne_zero (by omega : fuel ≠ 0)
      rw [List.cons_append, List.isChain_cons_cons] at hc
      have hne : b ≠ h := fun heq => hh (by simp [heq])
      rw [hc.1.1, Links.walk, if_neg hne, ih hc.2 (fun hm => hh (by simp [hm])) (by omega)]
      rfl

/-- **A loop over a list finds its nodes.** -/
theorem nodes_eq (hr : IsRing l h ns) {fuel : ℕ} (hfuel : ns.length < fuel) :
    l.nodes h fuel = some ns :=
  walk_eq hr.chain (List.nodup_cons.mp hr.nodup).1 hfuel

end IsRing

end OsLab
