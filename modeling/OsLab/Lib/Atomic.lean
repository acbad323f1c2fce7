import OsLab.Lib.Prog

/-!
# Sections one after the other

A section is a program over data that several threads share.  What a call answers may also depend
on what comes from outside, so a section is a relation between the data before it and after it
(`Prog.Runs`).  `SerialRun` says what a history of calls and results would be if every section ran to
its end before the next one began.

## Main definitions

* `Prog.Runs` — what a program may do alone, with `Prog.runs_bind` along its composition.
* `SerialRun` — calls with their results, one after the other.
* `SerialRun.invariant` — the induction on a history.
-/

namespace OsLab

namespace Prog

variable {C : Type} {Res : C → Type} {α β σ ω : Type}

/-- The program alone, from the first state to the second one with result `a`. -/
def Runs (answer : σ → ω → (c : C) → Option (Res c × σ)) : Prog C Res α → σ → α → σ → Prop
  | ret b, s, a, s' => b = a ∧ s = s'
  | fail, _, _, _ => False
  | call c k, s, a, s' => ∃ w r t, answer s w c = some (r, t) ∧ Runs answer (k r) t a s'

variable {answer : σ → ω → (c : C) → Option (Res c × σ)} {s s' : σ} {a : α}

@[simp] theorem runs_ret (b : α) :
    (ret b : Prog C Res α).Runs answer s a s' ↔ b = a ∧ s = s' := Iff.rfl

@[simp] theorem runs_fail : ¬ (fail : Prog C Res α).Runs answer s a s' := id

theorem runs_call (c : C) (k : Res c → Prog C Res α) : (call c k).Runs answer s a s' ↔
    ∃ w r t, answer s w c = some (r, t) ∧ (k r).Runs answer t a s' := Iff.rfl

theorem runs_bind {p : Prog C Res α} {f : α → Prog C Res β} {b : β} :
    (p.bind f).Runs answer s b s' ↔ ∃ a t, p.Runs answer s a t ∧ (f a).Runs answer t b s' := by
  induction p generalizing s with
  | ret a => simp
  | fail => simp
  | call c k ih =>
      rw [call_bind, runs_call]
      constructor
      · rintro ⟨w, r, t, hans, h⟩
        obtain ⟨a, u, hk, hf⟩ := (ih r).mp h
        exact ⟨a, u, ⟨w, r, t, hans, hk⟩, hf⟩
      · rintro ⟨a, u, ⟨w, r, t, hans, hk⟩, hf⟩
        exact ⟨w, r, t, hans, (ih r).mpr ⟨a, u, hk, hf⟩⟩

/-- A first part that has only one way to end. -/
theorem runs_bind_of {p : Prog C Res α} {f : α → Prog C Res β} {b : β} {x : α × σ}
    (hp : ∀ a t, p.Runs answer s a t ↔ x = (a, t)) :
    (p.bind f).Runs answer s b s' ↔ (f x.1).Runs answer x.2 b s' := by
  rw [runs_bind]
  constructor
  · rintro ⟨a, t, h, hf⟩
    rw [(hp a t).mp h]
    exact hf
  · intro hf
    exact ⟨x.1, x.2, (hp _ _).mpr rfl, hf⟩

/-- A call whose answer is known. -/
theorem runs_send_bind {c : C} {f : Res c → Prog C Res α} {r : Res c} {t : σ} [Nonempty ω]
    (h : ∀ w, answer s w c = some (r, t)) :
    ((send c).bind f).Runs answer s a s' ↔ (f r).Runs answer t a s' := by
  rw [send_bind, runs_call]
  constructor
  · rintro ⟨w, r', t', hans, hk⟩
    rw [h w] at hans
    cases hans
    exact hk
  · intro hk
    obtain ⟨w⟩ := ‹Nonempty ω›
    exact ⟨w, r, t, h w, hk⟩

/-- The same where the program ends with it. -/
theorem runs_send {c : C} {r r' : Res c} {t : σ} [Nonempty ω]
    (h : ∀ w, answer s w c = some (r, t)) :
    (send c).Runs answer s r' s' ↔ r = r' ∧ t = s' :=
  runs_send_bind (f := ret) h

end Prog

/-- The calls of `l` with their results, one after the other from `s₀`. -/
inductive SerialRun {σ ι ρ : Type} (does : σ → ι → ρ → σ → Prop) (s₀ : σ) :
    List (ι × ρ) → σ → Prop
  | init : SerialRun does s₀ [] s₀
  | step {l : List (ι × ρ)} {s s' : σ} {i : ι} {r : ρ} :
      SerialRun does s₀ l s → does s i r s' → SerialRun does s₀ (l ++ [(i, r)]) s'

namespace SerialRun

variable {σ ι ρ : Type} {does : σ → ι → ρ → σ → Prop} {s₀ s : σ} {l : List (ι × ρ)}

/-- **The invariant rule.** -/
theorem invariant {P : List (ι × ρ) → σ → Prop} (h : SerialRun does s₀ l s) (h0 : P [] s₀)
    (hstep : ∀ l s i r s', P l s → does s i r s' → P (l ++ [(i, r)]) s') : P l s := by
  induction h with
  | init => exact h0
  | step _ hs ih => exact hstep _ _ _ _ _ ih hs

end SerialRun

end OsLab
