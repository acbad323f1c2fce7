import Mathlib.Logic.Function.Basic

/-!
# Objects whose calls take effect at one moment

Threads call an object, which answers each call at once and on its own.  What the threads see of it
is a history of calls that begin and calls that end.  `Linear` says which histories there are: a call
takes effect at one moment between its beginning and its end, and what it then returns is what the
object answers at that moment.

An object made of smaller steps is as good as this one where each of its histories is one of
`Linear`.

## Main definitions

* `CallEvent` — what the threads see.
* `Moment` — where a thread is.
* `Linear` — the histories of the object.
-/

namespace OsLab

/-- A call begins, or it returns. -/
inductive CallEvent (κ ι ρ : Type)
  | call (t : κ) (i : ι)
  | ret (t : κ) (r : ρ)
  deriving DecidableEq

/-- Where a thread is: in no call, in one that has not taken effect, or in one that has. -/
inductive Moment (ι ρ : Type)
  | idle
  | called (i : ι)
  | done (r : ρ)

/-- The histories of an object in state `s₀` at first, with where it and the threads are. -/
inductive Linear {κ ι ρ σ : Type} [DecidableEq κ] (apply : σ → ι → ρ × σ) (s₀ : σ) :
    List (CallEvent κ ι ρ) → σ → (κ → Moment ι ρ) → Prop
  | init : Linear apply s₀ [] s₀ fun _ => .idle
  | call {l : List (CallEvent κ ι ρ)} {s : σ} {pt : κ → Moment ι ρ} (t : κ) (i : ι) :
      Linear apply s₀ l s pt → pt t = .idle →
      Linear apply s₀ (l ++ [.call t i]) s (Function.update pt t (.called i))
  | effect {l : List (CallEvent κ ι ρ)} {s : σ} {pt : κ → Moment ι ρ} (t : κ) (i : ι) :
      Linear apply s₀ l s pt → pt t = .called i →
      Linear apply s₀ l (apply s i).2 (Function.update pt t (.done (apply s i).1))
  | ret {l : List (CallEvent κ ι ρ)} {s : σ} {pt : κ → Moment ι ρ} (t : κ) (r : ρ) :
      Linear apply s₀ l s pt → pt t = .done r →
      Linear apply s₀ (l ++ [.ret t r]) s (Function.update pt t .idle)

end OsLab
