import Mathlib.Data.List.Infix

/-!
# Runs with their calls and results

A system that answers calls, each with a result.  A `Trace` is a run with the list of what was
called and what came back, which is all a caller sees of it.  A system implements another one
where every trace of the first is a trace of the second, and a forward simulation shows that it
does (`Trace.simulate`).

## Main definitions

* `Trace answer ok s₀ l s` — a run from `s₀` to `s` with the calls and results `l`.
* `Trace.simulate` — the simulation rule.
-/

namespace OsLab

universe u v w
variable {σ τ : Type u} {ι : Type v} {ρ : Type w}

/-- A run from `s₀` to `s`, all of whose calls meet `ok`. -/
inductive Trace (answer : σ → ι → Option (ρ × σ)) (ok : σ → ι → Prop) (s₀ : σ) :
    List (ι × ρ) → σ → Prop
  | init : Trace answer ok s₀ [] s₀
  | step {l : List (ι × ρ)} {s s' : σ} {i : ι} {r : ρ} :
      Trace answer ok s₀ l s → ok s i → answer s i = some (r, s') →
      Trace answer ok s₀ (l ++ [(i, r)]) s'

namespace Trace

variable {answer : σ → ι → Option (ρ × σ)} {ok : σ → ι → Prop} {s₀ s s' : σ}
  {l l' : List (ι × ρ)}

/-- The last call of a trace. -/
theorem last {x : ι × ρ} (h : Trace answer ok s₀ (l ++ [x]) s') :
    ∃ s, Trace answer ok s₀ l s ∧ ok s x.1 ∧ answer s x.1 = some (x.2, s') := by
  generalize hl : l ++ [x] = l' at h
  cases h with
  | init =>
      rw [List.append_eq_nil_iff] at hl
      cases hl.2
  | step h hok hs =>
      obtain ⟨rfl, hx⟩ := List.append_inj' hl rfl
      cases hx
      exact ⟨_, h, hok, hs⟩

/-- The calls and results determine the state. -/
theorem unique (h : Trace answer ok s₀ l s) (h' : Trace answer ok s₀ l s') : s = s' := by
  induction h generalizing s' with
  | init =>
      generalize hl : ([] : List (ι × ρ)) = l' at h'
      cases h' with
      | init => rfl
      | step _ _ _ => exact absurd hl.symm (by simp)
  | step _ _ hs ih =>
      obtain ⟨t, ht, -, hs'⟩ := h'.last
      rw [ih ht, hs'] at hs
      cases hs
      rfl

/-- **The invariant rule.** -/
theorem invariant {P : List (ι × ρ) → σ → Prop} (h : Trace answer ok s₀ l s) (h0 : P [] s₀)
    (hstep : ∀ l s i r s', Trace answer ok s₀ l s → P l s → ok s i → answer s i = some (r, s') →
      P (l ++ [(i, r)]) s') : P l s := by
  induction h with
  | init => exact h0
  | step ht hok hs ih => exact hstep _ _ _ _ _ ht ih hok hs

/-- **The simulation rule.**  Where every call is matched by one of the other system with the same
result, every trace is one of the other system. -/
theorem simulate {answer' : τ → ι → Option (ρ × τ)} {ok' : τ → ι → Prop} {t₀ : τ}
    {R : σ → τ → Prop} (h : Trace answer ok s₀ l s) (h0 : R s₀ t₀)
    (hstep : ∀ s t i r s', R s t → ok s i → answer s i = some (r, s') →
      ok' t i ∧ ∃ t', answer' t i = some (r, t') ∧ R s' t') :
    ∃ t, Trace answer' ok' t₀ l t ∧ R s t := by
  induction h with
  | init => exact ⟨t₀, .init, h0⟩
  | step _ hok hs ih =>
      obtain ⟨t, ht, hR⟩ := ih
      obtain ⟨hok', t', ht', hR'⟩ := hstep _ _ _ _ _ hR hok hs
      exact ⟨t', ht.step hok' ht', hR'⟩

/-- The calls in order, each of which passes the test, with their results. -/
def play (answer : σ → ι → Option (ρ × σ)) (test : σ → ι → Bool) (s : σ) :
    List ι → Option (List (ι × ρ) × σ)
  | [] => some ([], s)
  | i :: is =>
      if test s i then
        (answer s i).bind fun r => (play answer test r.2 is).map fun x => ((i, r.1) :: x.1, x.2)
      else none

/-- What is played is a trace. -/
theorem of_play {test : σ → ι → Bool} (h : Trace answer ok s₀ l s)
    (htest : ∀ s i, test s i = true → ok s i) (is : List ι)
    (hp : play answer test s is = some (l', s')) : Trace answer ok s₀ (l ++ l') s' := by
  induction is generalizing l l' s with
  | nil =>
      cases hp
      rw [List.append_nil]
      exact h
  | cons i is ih =>
      rw [play] at hp
      split_ifs at hp with hi
      obtain ⟨⟨r, t⟩, hr, hp⟩ := Option.bind_eq_some_iff.mp hp
      obtain ⟨⟨x, u⟩, hx, hp⟩ := Option.map_eq_some_iff.mp hp
      cases hp
      have := ih (h.step (htest s i hi) hr) hx
      rwa [List.append_assoc] at this

end Trace

end OsLab
