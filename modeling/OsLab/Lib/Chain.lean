import Mathlib.Data.List.Basic
import Mathlib.Data.List.Nodup
import Mathlib.Logic.Function.Basic

/-!
# Linked lists in a memory

`Chain next a l`: following the links `next` from `a` visits the cells of `l` in
order and ends at null.  The memory is a function, so a chain does not notice
writes to cells that are not on it.

## Main definitions

* `Chain` — the cells reached from a pointer.
-/

namespace OsLab

variable {α : Type*}

/-- The cells reached from a pointer, in order, up to null. -/
inductive Chain (next : α → Option α) : Option α → List α → Prop
  | nil : Chain next none []
  | cons {a : α} {l : List α} : Chain next (next a) l → Chain next (some a) (a :: l)

namespace Chain

variable {next next' : α → Option α} {p : Option α} {a b : α} {l m : List α}

theorem eq_nil (h : Chain next none l) : l = [] := by
  cases h
  rfl

theorem exists_cons (h : Chain next (some a) l) : ∃ m, l = a :: m ∧ Chain next (next a) m := by
  cases h with
  | cons h => exact ⟨_, rfl, h⟩

/-- The links from a pointer determine the list. -/
theorem unique (h : Chain next p l) (h' : Chain next p m) : l = m := by
  induction h generalizing m with
  | nil => exact h'.eq_nil.symm
  | cons _ ih =>
      obtain ⟨m, rfl, hm⟩ := h'.exists_cons
      rw [ih hm]

/-- Only the links of the cells on the list matter. -/
theorem congr (h : Chain next p l) (hn : ∀ a ∈ l, next' a = next a) : Chain next' p l := by
  induction h with
  | nil => exact .nil
  | @cons a l _ ih =>
      have ha : next' a = next a := hn a List.mem_cons_self
      refine .cons ?_
      rw [ha]
      exact ih fun b hb => hn b (List.mem_cons_of_mem _ hb)

/-- From a cell on the list the chain goes on to the end of it. -/
theorem drop (h : Chain next p l) (ha : a ∈ l) : ∃ m, m <:+ l ∧ Chain next (some a) m := by
  induction h with
  | nil => cases ha
  | @cons b l hl ih =>
      rcases List.mem_cons.mp ha with rfl | ha
      · exact ⟨_, List.suffix_refl _, .cons hl⟩
      · obtain ⟨m, hm, hc⟩ := ih ha
        exact ⟨m, hm.trans (List.suffix_cons _ _), hc⟩

/-- Two chains over the same cells start at the same one. -/
theorem start_unique {p q : Option α} (hp : Chain next p l) (hq : Chain next q m)
    (hl : l.Nodup) (hm : ∀ a, a ∈ m ↔ a ∈ l) : p = q := by
  cases hp with
  | nil =>
      cases hq with
      | nil => rfl
      | cons _ => exact absurd ((hm _).mp List.mem_cons_self) List.not_mem_nil
  | @cons a l hal =>
      cases hq with
      | nil => exact absurd ((hm _).mpr List.mem_cons_self) List.not_mem_nil
      | @cons b m hbm =>
          by_contra hab
          have hab' : a ≠ b := fun h => hab (congrArg some h)
          have hb : b ∈ l := by
            rcases List.mem_cons.mp ((hm b).mp List.mem_cons_self) with hba | hb
            · exact absurd hba.symm hab'
            · exact hb
          -- the chain from `b` is the rest of the chain from `a`, which does not come back to `a`
          obtain ⟨r, hr, hc⟩ := hal.drop hb
          have hrm : r = b :: m := hc.unique (.cons hbm)
          have ha : a ∈ r := by
            rw [hrm]
            exact (hm a).mpr List.mem_cons_self
          exact (List.nodup_cons.mp hl).1 (hr.subset ha)

end Chain

end OsLab
