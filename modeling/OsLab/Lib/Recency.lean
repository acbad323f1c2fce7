import Mathlib.Data.List.Nodup
import Mathlib.Data.List.Pairwise
import Mathlib.Logic.Function.Basic

/-!
# Lists in order of recency

A list on which an element goes to the front when it is stamped with the time.  The
elements that are busy keep their places and are left out of account; the others come
in the order of their stamps, the latest first.

## Main definitions

* `Recency` — the elements that are free are in the order of their stamps.
* `Recency.moveToFront` — stamping an element keeps the order.
* `Recency.find_reverse` — the last free element has the oldest stamp.
-/

namespace OsLab

variable {α : Type*}

/-- Of two free elements the one in front has the later stamp. -/
def Recency (free : α → Prop) (stamp : α → ℕ) (l : List α) : Prop :=
  l.Pairwise fun a b => free a → free b → stamp b < stamp a

namespace Recency

variable {free free' : α → Prop} {stamp : α → ℕ} {l : List α} {a b : α} {n : ℕ}

theorem nil : Recency free stamp [] := List.Pairwise.nil

/-- Elements may become busy where they are. -/
theorem mono (h : Recency free stamp l) (hfree : ∀ a ∈ l, free' a → free a) :
    Recency free' stamp l := by
  refine List.Pairwise.imp_of_mem ?_ h
  intro a b ha hb hab ha' hb'
  exact hab (hfree a ha ha') (hfree b hb hb')

/-- A busy element may come in anywhere, in front for instance. -/
theorem cons (h : Recency free stamp l) (ha : ¬ free a) : Recency free stamp (a :: l) :=
  List.pairwise_cons.mpr ⟨fun _ _ hfree => absurd hfree ha, h⟩

/-- **Stamping.**  An element that is stamped with the time goes to the front and is free. -/
theorem moveToFront [DecidableEq α] (h : Recency free stamp l) (hnd : l.Nodup)
    (hlt : ∀ b ∈ l, free b → stamp b < n) (hfree : ∀ b, b ≠ a → free' b → free b) :
    Recency free' (Function.update stamp a n) (a :: l.erase a) := by
  have hne : ∀ b ∈ l.erase a, b ≠ a ∧ b ∈ l := fun b hb => hnd.mem_erase_iff.mp hb
  refine List.pairwise_cons.mpr ⟨?_, ?_⟩
  · intro b hb _ hb'
    obtain ⟨hba, hbl⟩ := hne b hb
    rw [Function.update_self, Function.update_of_ne hba]
    exact hlt b hbl (hfree b hba hb')
  · refine List.Pairwise.imp_of_mem ?_ (List.Pairwise.sublist List.erase_sublist h)
    intro b c hb hc hbc hb' hc'
    have hb₁ := (hne b hb).1
    have hc₁ := (hne c hc).1
    rw [Function.update_of_ne hb₁, Function.update_of_ne hc₁]
    exact hbc (hfree b hb₁ hb') (hfree c hc₁ hc')

/-- **The oldest.**  A search from the end finds the free element with the oldest stamp. -/
theorem find_reverse (h : Recency free stamp l) {p : α → Bool}
    (hfind : l.reverse.find? p = some a) (hp : ∀ b, p b = true → free b) :
    ∀ b ∈ l, b ≠ a → p b = true → stamp a < stamp b := by
  obtain ⟨ha, as, bs, hl, has⟩ := List.find?_eq_some_iff_append.mp hfind
  have hl' : l = bs.reverse ++ a :: as.reverse := by
    have := congrArg List.reverse hl
    simpa using this
  intro b hb hba hpb
  rw [hl'] at h hb
  rcases List.mem_append.mp hb with hb | hb
  · exact (List.pairwise_append.mp h).2.2 b hb a List.mem_cons_self (hp b hpb) (hp a ha)
  · rcases List.mem_cons.mp hb with rfl | hb
    · exact absurd rfl hba
    · have := has b (List.mem_reverse.mp hb)
      rw [hpb] at this
      cases this

end Recency

end OsLab
