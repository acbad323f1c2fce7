import Mathlib.Logic.Function.Basic
import Mathlib.Data.List.Basic

/-!
# Loops and runs of partial step functions

A C function that may block or panic is a function into `Option`.  Two shapes
recur: a `for` loop, whose body is run once per index (`iterM`), and a system
that takes step after step in any order (`Reach`).  Each comes with the one
induction its properties are proved by.

`Reach` carries a condition `ok` on every step taken.  With the condition that
is always true it describes every run; with another one it describes the runs
all of whose steps meet that condition.

## Main definitions

* `iterM f n s` — run `f 0`, `f 1`, …, `f (n-1)`.
* `Reach step ok s₀` — the states reachable from `s₀` by steps that meet `ok`.
* `runs step s is` — run the steps `is` in order.
-/

namespace OsLab

universe u v
variable {σ : Type u} {ι : Type v}

/-! ## Loops -/

/-- Run `f 0`, `f 1`, …, `f (n-1)` in order, stopping at the first `none`. -/
def iterM (f : ℕ → σ → Option σ) : ℕ → σ → Option σ
  | 0, s => some s
  | n + 1, s => (iterM f n s).bind (f n)

@[simp] theorem iterM_zero (f : ℕ → σ → Option σ) (s : σ) : iterM f 0 s = some s := rfl

theorem iterM_succ (f : ℕ → σ → Option σ) (n : ℕ) (s : σ) :
    iterM f (n + 1) s = (iterM f n s).bind (f n) := rfl

/-- **The loop invariant.** -/
theorem iterM_induction {f : ℕ → σ → Option σ} {n : ℕ} {s s' : σ} (P : ℕ → σ → Prop)
    (h : iterM f n s = some s') (h0 : P 0 s)
    (hstep : ∀ i t t', i < n → P i t → f i t = some t' → P (i + 1) t') : P n s' := by
  induction n generalizing s' with
  | zero =>
      cases h
      exact h0
  | succ n ih =>
      rw [iterM_succ, Option.bind_eq_some_iff] at h
      obtain ⟨t, ht, hf⟩ := h
      have hn : P n t := ih ht fun i t t' hi => hstep i t t' (by omega)
      exact hstep n t s' (by omega) hn hf

/-- A loop whose body never gets stuck runs to its end, with its invariant. -/
theorem iterM_progress {f : ℕ → σ → Option σ} (n : ℕ) {s : σ} (P : ℕ → σ → Prop) (h0 : P 0 s)
    (hstep : ∀ i t, i < n → P i t → ∃ t', f i t = some t' ∧ P (i + 1) t') :
    ∃ s', iterM f n s = some s' ∧ P n s' := by
  induction n with
  | zero => exact ⟨s, rfl, h0⟩
  | succ n ih =>
      obtain ⟨t, ht, hP⟩ := ih fun i t hi => hstep i t (by omega)
      obtain ⟨s', hs', hP'⟩ := hstep n t (by omega) hP
      refine ⟨s', ?_, hP'⟩
      rw [iterM_succ, ht]
      exact hs'

/-! ## Runs -/

/-- The states reachable from `s₀` by steps that all meet `ok`. -/
inductive Reach (step : σ → ι → Option σ) (ok : σ → ι → Prop) (s₀ : σ) : σ → Prop
  | init : Reach step ok s₀ s₀
  | step {s s' : σ} {i : ι} :
      Reach step ok s₀ s → ok s i → step s i = some s' → Reach step ok s₀ s'

namespace Reach

variable {step : σ → ι → Option σ} {ok : σ → ι → Prop} {s₀ s s' : σ}

/-- **The invariant rule.** -/
theorem invariant {P : σ → Prop} (h : Reach step ok s₀ s) (h0 : P s₀)
    (hstep : ∀ s i s', P s → ok s i → step s i = some s' → P s') : P s := by
  induction h with
  | init => exact h0
  | step _ hok hs ih => exact hstep _ _ _ ih hok hs

end Reach

/-- Run the steps of a list in order. -/
def runs (step : σ → ι → Option σ) (s : σ) : List ι → Option σ
  | [] => some s
  | i :: is => (step s i).bind fun t => runs step t is

@[simp] theorem runs_nil (step : σ → ι → Option σ) (s : σ) : runs step s [] = some s := rfl

theorem runs_cons (step : σ → ι → Option σ) (s : σ) (i : ι) (is : List ι) :
    runs step s (i :: is) = (step s i).bind fun t => runs step t is := rfl

theorem runs_append (step : σ → ι → Option σ) (s : σ) (is js : List ι) :
    runs step s (is ++ js) = (runs step s is).bind fun t => runs step t js := by
  induction is generalizing s with
  | nil => rfl
  | cons i is ih =>
      rw [List.cons_append, runs_cons, runs_cons]
      cases step s i with
      | none => rfl
      | some t => exact ih t

/-- What a list of steps reaches is reachable. -/
theorem Reach.of_runs {step : σ → ι → Option σ} {s₀ s s' : σ}
    (h : Reach step (fun _ _ => True) s₀ s) (is : List ι) (hr : runs step s is = some s') :
    Reach step (fun _ _ => True) s₀ s' := by
  induction is generalizing s with
  | nil =>
      cases hr
      exact h
  | cons i is ih =>
      rw [runs_cons, Option.bind_eq_some_iff] at hr
      obtain ⟨t, ht, hr⟩ := hr
      exact ih (h.step trivial ht) hr

/-- A list of steps each of which passes a test for `ok`, in the states reached. -/
theorem Reach.of_checked {step : σ → ι → Option σ} {ok : σ → ι → Prop} {s₀ s s' : σ}
    {test : σ → ι → Bool} (h : Reach step ok s₀ s)
    (htest : ∀ s i, Reach step ok s₀ s → test s i = true → ok s i)
    (is : List ι) (hr : runs (fun s i => if test s i then step s i else none) s is = some s') :
    Reach step ok s₀ s' := by
  induction is generalizing s with
  | nil =>
      cases hr
      exact h
  | cons i is ih =>
      rw [runs_cons, Option.bind_eq_some_iff] at hr
      obtain ⟨t, ht, hr⟩ := hr
      split at ht
      · rename_i hi
        exact ih (h.step (htest s i h hi) ht) hr
      · cases ht

/-- A list of steps each of which passes a test for `ok`. -/
theorem Reach.of_tested {step : σ → ι → Option σ} {ok : σ → ι → Prop} {s₀ s s' : σ}
    {test : σ → ι → Bool} (h : Reach step ok s₀ s) (htest : ∀ s i, test s i = true → ok s i)
    (is : List ι) (hr : runs (fun s i => if test s i then step s i else none) s is = some s') :
    Reach step ok s₀ s' :=
  h.of_checked (fun s i _ => htest s i) is hr

end OsLab
