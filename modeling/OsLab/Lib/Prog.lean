import OsLab.Lib.Run

/-!
# Programs that make calls

A thread whose code is known, in a system of which only the rules are known.  A `Prog` says
what call it makes next and how it goes on with each answer.  The system answers the calls one
at a time and may take any number of its own steps in between.

What such a program does is proved of the program alone, against a `Contract`: what must hold
before a call, and what the answer may then be, in terms of a state `G` that is made up for the
proof.  The induction is the one on the program (`Prog.Meets`), and a run is one induction more
(`Reach.meets`), whatever the program is.

## Main definitions

* `Prog`, `Prog.bind` — programs and their composition.
* `Prog.exec` — the program alone.
* `Prog.step` — the program among others.
* `Contract`, `Prog.Meets` — what a program keeps, `Prog.meets_bind` along its composition.
* `Reach.meets` — a system that keeps the contract keeps what the program relies on.
-/

namespace OsLab

/-- A program that makes calls `c : C`, each with an answer in `Res c`. -/
inductive Prog (C : Type) (Res : C → Type) (α : Type)
  | ret (a : α)
  /-- It does not go on. -/
  | fail
  | call (c : C) (k : Res c → Prog C Res α)

namespace Prog

variable {C : Type} {Res : C → Type} {α β σ G ι : Type}

/-- First `p`, then `f` with its result. -/
def bind : Prog C Res α → (α → Prog C Res β) → Prog C Res β
  | ret a, f => f a
  | fail, _ => fail
  | call c k, f => call c fun r => (k r).bind f

instance : Monad (Prog C Res) where
  pure := ret
  bind := bind

/-- The call alone. -/
def send (c : C) : Prog C Res (Res c) := call c ret

@[simp] theorem pure_eq (a : α) : (pure a : Prog C Res α) = ret a := rfl

@[simp] theorem monad_bind_eq (p : Prog C Res α) (f : α → Prog C Res β) : p >>= f = p.bind f := rfl

@[simp] theorem ret_bind (a : α) (f : α → Prog C Res β) : (ret a).bind f = f a := rfl

@[simp] theorem fail_bind (f : α → Prog C Res β) : (fail : Prog C Res α).bind f = fail := rfl

@[simp] theorem call_bind (c : C) (k : Res c → Prog C Res α) (f : α → Prog C Res β) :
    (call c k).bind f = call c fun r => (k r).bind f := rfl

@[simp] theorem send_bind (c : C) (f : Res c → Prog C Res β) : (send c).bind f = call c f := rfl

/-! ## The program alone -/

/-- The result of the program where nobody else does anything. -/
def exec (answer : σ → (c : C) → Option (Res c × σ)) : Prog C Res α → σ → Option (α × σ)
  | ret a, s => some (a, s)
  | fail, _ => none
  | call c k, s => (answer s c).bind fun r => exec answer (k r.1) r.2

section Exec

variable {answer : σ → (c : C) → Option (Res c × σ)} {s s' : σ}

@[simp] theorem exec_ret (a : α) : exec answer (ret a : Prog C Res α) s = some (a, s) := rfl

@[simp] theorem exec_fail : exec answer (fail : Prog C Res α) s = none := rfl

@[simp] theorem exec_call (c : C) (k : Res c → Prog C Res α) :
    exec answer (call c k) s = (answer s c).bind fun r => exec answer (k r.1) r.2 := rfl

theorem exec_bind (p : Prog C Res α) (f : α → Prog C Res β) :
    exec answer (p.bind f) s = (exec answer p s).bind fun r => exec answer (f r.1) r.2 := by
  induction p generalizing s with
  | ret a => rfl
  | fail => rfl
  | call c k ih =>
      rw [call_bind, exec_call, exec_call, Option.bind_assoc]
      congr 1
      funext r
      exact ih r.1

/-- What no answer changes, the program does not change. -/
theorem exec_unchanged {β : Type} {f : σ → β} {p : Prog C Res α} {a : α}
    (hf : ∀ s c r s', answer s c = some (r, s') → f s' = f s)
    (h : exec answer p s = some (a, s')) : f s' = f s := by
  induction p generalizing s with
  | ret b =>
      cases h
      rfl
  | fail => cases h
  | call c k ih =>
      rw [exec_call, Option.bind_eq_some_iff] at h
      obtain ⟨⟨r, t⟩, hans, h⟩ := h
      exact (ih r h).trans (hf s c r t hans)

end Exec

/-! ## The program among others -/

/-- One step: the next call of the program, or step `i` of the others. -/
def step (answer : σ → (c : C) → Option (Res c × σ)) (others : σ → ι → Option σ)
    (x : σ × Prog C Res α) : Option ι → Option (σ × Prog C Res α)
  | none =>
      match x.2 with
      | call c k => (answer x.1 c).map fun r => (r.2, k r.1)
      | _ => none
  | some i => (others x.1 i).map fun s => (s, x.2)

end Prog

/-- What must hold of `g` before a call, and what the answer and the state after it may be. -/
structure Contract (C : Type) (Res : C → Type) (G : Type) where
  pre : G → C → Prop
  post : G → (c : C) → Res c → G → Prop

namespace Prog

variable {C : Type} {Res : C → Type} {α β σ G ι : Type} {K : Contract C Res G}
  {Q Q' : α → G → Prop} {g : G}

/-- **The program meets the contract**: each of its calls is made where it may be, as long as the
answers are as they should be, and `Q` holds where it returns. -/
def Meets (K : Contract C Res G) : Prog C Res α → (α → G → Prop) → G → Prop
  | ret a, Q, g => Q a g
  | fail, _, _ => True
  | call c k, Q, g => K.pre g c ∧ ∀ r g', K.post g c r g' → Meets K (k r) Q g'

@[simp] theorem meets_ret (a : α) : (ret a : Prog C Res α).Meets K Q g ↔ Q a g := Iff.rfl

@[simp] theorem meets_fail : (fail : Prog C Res α).Meets K Q g := trivial

theorem meets_call (c : C) (k : Res c → Prog C Res α) : (call c k).Meets K Q g ↔
    K.pre g c ∧ ∀ r g', K.post g c r g' → (k r).Meets K Q g' := Iff.rfl

/-- **The rule of composition.** -/
theorem meets_bind {p : Prog C Res α} {f : α → Prog C Res β} {Q : β → G → Prop} :
    (p.bind f).Meets K Q g ↔ p.Meets K (fun a g => (f a).Meets K Q g) g := by
  induction p generalizing g with
  | ret a => exact Iff.rfl
  | fail => exact Iff.rfl
  | call c k ih =>
      rw [call_bind, meets_call, meets_call]
      refine and_congr_right fun _ => ?_
      refine forall_congr' fun r => forall_congr' fun g' => forall_congr' fun _ => ?_
      exact ih r

/-- **The rule of consequence.** -/
theorem Meets.mono {p : Prog C Res α} (h : p.Meets K Q g) (hQ : ∀ a g, Q a g → Q' a g) :
    p.Meets K Q' g := by
  induction p generalizing g with
  | ret a => exact hQ a g h
  | fail => trivial
  | call c k ih =>
      refine ⟨h.1, ?_⟩
      intro r g' hpost
      exact ih r (h.2 r g' hpost)

/-- Composition, with what holds in the middle named. -/
theorem Meets.bind {p : Prog C Res α} {f : α → Prog C Res β} {Q' : β → G → Prop}
    (h : p.Meets K Q g) (hf : ∀ a g, Q a g → (f a).Meets K Q' g) : (p.bind f).Meets K Q' g :=
  meets_bind.mpr (h.mono hf)

/-- The program meets the contract and, where every answer that the contract allows is one of
`answer`, it ends as it does alone. -/
theorem Meets.and_exec {answer : σ → (c : C) → Option (Res c × σ)} {π : G → σ} {p : Prog C Res α}
    (hpost : ∀ g c r g', K.post g c r g' → answer (π g) c = some (r, π g')) (h : p.Meets K Q g) :
    p.Meets K (fun a g' => Q a g' ∧ p.exec answer (π g) = some (a, π g')) g := by
  induction p generalizing g with
  | ret a => exact ⟨h, rfl⟩
  | fail => trivial
  | call c k ih =>
      refine ⟨h.1, ?_⟩
      intro r g' hr
      refine (ih r (h.2 r g' hr)).mono fun a g'' hQ => ⟨hQ.1, ?_⟩
      rw [exec_call, hpost _ _ _ _ hr]
      exact hQ.2

/-- **The rule of a run alone**: where the answers keep the contract, so does what the program
computes with them. -/
theorem Meets.exec {answer : σ → (c : C) → Option (Res c × σ)} {Sim : σ → G → Prop}
    {p : Prog C Res α} {s s' : σ} {a : α} (h : p.Meets K Q g) (hsim : Sim s g)
    (hcalls : ∀ s g c r s', Sim s g → K.pre g c → answer s c = some (r, s') →
      ∃ g', K.post g c r g' ∧ Sim s' g')
    (he : p.exec answer s = some (a, s')) : ∃ g', Q a g' ∧ Sim s' g' := by
  induction p generalizing s g with
  | ret b =>
      cases he
      exact ⟨g, h, hsim⟩
  | fail => cases he
  | call c k ih =>
      rw [exec_call, Option.bind_eq_some_iff] at he
      obtain ⟨⟨r, t⟩, hans, he⟩ := he
      obtain ⟨g', hpost, hsim'⟩ := hcalls s g c r t hsim h.1 hans
      exact ih r (h.2 r g' hpost) hsim' he

end Prog

section Run

variable {C : Type} {Res : C → Type} {α σ G ι : Type} {K : Contract C Res G}
  {answer : σ → (c : C) → Option (Res c × σ)} {others : σ → ι → Option σ}
  {ok : σ × Prog C Res α → Option ι → Prop} {Sim : σ → G → Prop} {Q : α → G → Prop}

/-- **The run rule.**  A system whose answers keep the contract, and whose other steps keep what
the contract relies on, runs the program as the contract says. -/
theorem Reach.meets {s : σ} {p : Prog C Res α} {g : G} {x : σ × Prog C Res α}
    (h : Reach (Prog.step answer others) ok (s, p) x) (h0 : Sim s g) (hp : p.Meets K Q g)
    (hothers : ∀ x i s' g, Sim x.1 g → ok x (some i) → others x.1 i = some s' → Sim s' g)
    (hcalls : ∀ s g c r s', Sim s g → K.pre g c → answer s c = some (r, s') →
      ∃ g', K.post g c r g' ∧ Sim s' g') :
    ∃ g', Sim x.1 g' ∧ x.2.Meets K Q g' := by
  refine h.invariant (P := fun x => ∃ g', Sim x.1 g' ∧ x.2.Meets K Q g') ⟨g, h0, hp⟩ ?_
  intro x i x' hx hok hs
  obtain ⟨g, hsim, hmeets⟩ := hx
  obtain ⟨s, p⟩ := x
  cases i with
  | some i =>
      simp only [Prog.step, Option.map_eq_some_iff] at hs
      obtain ⟨s', hs', rfl⟩ := hs
      exact ⟨g, hothers _ i s' g hsim hok hs', hmeets⟩
  | none =>
      cases p with
      | ret a => cases hs
      | fail => cases hs
      | call c k =>
          simp only [Prog.step, Option.map_eq_some_iff] at hs
          obtain ⟨⟨r, s'⟩, hans, rfl⟩ := hs
          obtain ⟨g', hpost, hsim'⟩ := hcalls s g c r s' hsim hmeets.1 hans
          exact ⟨g', hsim', hmeets.2 r g' hpost⟩

/-- What the program alone computes it reaches by its own steps. -/
theorem Reach.of_exec {s₀ : σ × Prog C Res α} {s s' : σ} {p : Prog C Res α} {a : α}
    (h : Reach (Prog.step answer others) ok s₀ (s, p)) (hok : ∀ x, ok x none)
    (he : p.exec answer s = some (a, s')) :
    Reach (Prog.step answer others) ok s₀ (s', Prog.ret a) := by
  induction p generalizing s with
  | ret b =>
      cases he
      exact h
  | fail => cases he
  | call c k ih =>
      rw [Prog.exec_call, Option.bind_eq_some_iff] at he
      obtain ⟨⟨r, t⟩, hans, he⟩ := he
      refine ih r (h.step (hok _) ?_) he
      simp only [Prog.step, hans, Option.map_some]

end Run

end OsLab
