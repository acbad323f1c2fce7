import Mathlib.Logic.Function.Basic
import Mathlib.Data.List.Basic

/-!
# Devices that lose power between two writes

A device is a map from block numbers to contents, and a run of a program is seen
by the device as the list of the writes it made.  Each write is atomic, so the
contents power loss can leave behind are those after a prefix of that list.

The one fact redo logging rests on is `applyWrites_take_then_all`: carrying out
a list of writes from the start, after any prefix of it was already carried out,
ends as if it had been carried out once.
-/

namespace OsLab

universe u
variable {α : Type u}

/-- The device after a list of writes, oldest first. -/
def applyWrites : List (ℕ × α) → (ℕ → α) → ℕ → α
  | [], d => d
  | w :: ws, d => applyWrites ws (Function.update d w.1 w.2)

@[simp] theorem applyWrites_nil (d : ℕ → α) : applyWrites [] d = d := rfl

@[simp] theorem applyWrites_cons (w : ℕ × α) (ws : List (ℕ × α)) (d : ℕ → α) :
    applyWrites (w :: ws) d = applyWrites ws (Function.update d w.1 w.2) := rfl

theorem applyWrites_append (ws vs : List (ℕ × α)) (d : ℕ → α) :
    applyWrites (ws ++ vs) d = applyWrites vs (applyWrites ws d) := by
  induction ws generalizing d with
  | nil => rfl
  | cons w ws ih => exact ih _

/-- A block that no write goes to keeps its content. -/
theorem applyWrites_of_notMem {ws : List (ℕ × α)} {d : ℕ → α} {b : ℕ}
    (h : ∀ w ∈ ws, w.1 ≠ b) : applyWrites ws d b = d b := by
  induction ws generalizing d with
  | nil => rfl
  | cons w ws ih =>
      rw [applyWrites_cons, ih fun v hv => h v (List.mem_cons_of_mem _ hv)]
      exact Function.update_of_ne (h w List.mem_cons_self).symm _ _

/-- Devices that differ only where `ws` writes agree after `ws`. -/
theorem applyWrites_congr {ws : List (ℕ × α)} {d e : ℕ → α} {b : ℕ}
    (h : (∃ w ∈ ws, w.1 = b) ∨ d b = e b) : applyWrites ws d b = applyWrites ws e b := by
  induction ws generalizing d e with
  | nil => simpa using h
  | cons w ws ih =>
      refine ih ?_
      by_cases hw : w.1 = b
      · right
        simp [← hw]
      · rcases h with ⟨v, hv, hb⟩ | h
        · rcases List.mem_cons.mp hv with rfl | hv
          · exact absurd hb hw
          · exact Or.inl ⟨v, hv, hb⟩
        · right
          simp [Function.update_of_ne (Ne.symm hw), h]

/-- **Redo is idempotent.**  Carrying out all of `ws` after a prefix of it has
been carried out already ends as if it had been carried out once. -/
theorem applyWrites_take_then_all (ws : List (ℕ × α)) (m : ℕ) (d : ℕ → α) :
    applyWrites ws (applyWrites (ws.take m) d) = applyWrites ws d := by
  funext b
  refine applyWrites_congr ?_
  by_cases h : ∃ w ∈ ws, w.1 = b
  · exact Or.inl h
  · right
    refine applyWrites_of_notMem fun w hw hb => h ⟨w, List.mem_of_mem_take hw, hb⟩

/-- The block written by write `i` holds its content when no other write goes there. -/
theorem applyWrites_of_mem {ws : List (ℕ × α)} {d : ℕ → α} {w : ℕ × α}
    (hd : (ws.map Prod.fst).Nodup) (hw : w ∈ ws) : applyWrites ws d w.1 = w.2 := by
  induction ws generalizing d with
  | nil => simp at hw
  | cons v ws ih =>
      rw [List.map_cons, List.nodup_cons] at hd
      rcases List.mem_cons.mp hw with rfl | hw
      · have hne : ∀ v ∈ ws, v.1 ≠ w.1 := fun v hv hb =>
          hd.1 (hb ▸ List.mem_map_of_mem hv)
        rw [applyWrites_cons, applyWrites_of_notMem hne, Function.update_self]
      · exact ih hd.2 hw

end OsLab
