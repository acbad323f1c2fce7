import Mathlib.Logic.Function.Basic
import Mathlib.Data.List.Pairwise

/-!
# Copies one after the other

A memory is a map from addresses to contents, and a list of copies is carried out in order, each
from an address to another.  A copy may change what a later one reads.  Where it does not, the
list copies as if all of it happened at once, in whatever order it stands.

## Main definitions

* `copies` — the memory after a list of copies, the first first.
* `Undisturbed` — no copy changes what a later one reads or has written before it.
-/

namespace OsLab

universe u v
variable {α : Type u} {β : Type v} [DecidableEq α]

/-- The memory after the copies of a list, each to its first address from its second. -/
def copies : List (α × α) → (α → β) → α → β
  | [], m => m
  | p :: l, m => copies l (Function.update m p.1 (m p.2))

/-- No copy goes to an address from or to which a later one copies. -/
def Undisturbed (l : List (α × α)) : Prop := l.Pairwise fun p q => p.1 ≠ q.1 ∧ p.1 ≠ q.2

variable {l : List (α × α)} {m : α → β} {p : α × α} {a : α}

@[simp] theorem copies_nil (m : α → β) : copies [] m = m := rfl

@[simp] theorem copies_cons (p : α × α) (l : List (α × α)) (m : α → β) :
    copies (p :: l) m = copies l (Function.update m p.1 (m p.2)) := rfl

/-- An address to which nothing is copied keeps its content. -/
theorem copies_of_notMem (h : ∀ p ∈ l, a ≠ p.1) : copies l m a = m a := by
  induction l generalizing m with
  | nil => rfl
  | cons p l ih =>
      rw [copies_cons, ih fun q hq => h q (List.mem_cons_of_mem _ hq)]
      exact Function.update_of_ne (h p List.mem_cons_self) _ _

/-- **Each copy arrives** as it was at the start. -/
theorem Undisturbed.copies_of_mem (h : Undisturbed l) (hp : p ∈ l) : copies l m p.1 = m p.2 := by
  induction l generalizing m with
  | nil => cases hp
  | cons q l ih =>
      obtain ⟨hq, hl⟩ := List.pairwise_cons.mp h
      rw [copies_cons]
      rcases List.mem_cons.mp hp with rfl | hp
      · rw [copies_of_notMem fun r hr => (hq r hr).1, Function.update_self]
      · rw [ih hl hp, Function.update_of_ne (hq p hp).2.symm]

end OsLab
