import OsLab.Kernel.ContextInv

/-!
# Processes get their registers back

What the assembly promises to the rest of the kernel, over whole runs on any number of
cores: a call of `swtch` returns with the registers it was called with, on whatever core;
a trap is invisible to the code it interrupts, but for the result of a system call; and a
new process starts in `proc_entry`, or in user space with the registers of its `ucontext`.

## Main definitions

* `CoresIdle` — the idle processes on their cores.
* `ContextSys.step_saved` — what a step does to what was saved for a process.
* `ContextSys.Undisturbed`, `ContextSys.Inside` — runs in which a process is left alone.
-/

namespace OsLab

open Asm

/-- Each core runs its idle process, and nothing was saved. -/
structure CoresIdle {C P : Type} (K : Symbols P) (s : ContextSys C P) : Prop where
  layout : s.Layout K
  thisproc : Function.Injective s.thisproc
  idle : ∀ p, (s.kstack p).isSome → ∃ k, s.thisproc k = p
  saved : ∀ p, s.saved p = []
  room : ∀ k, s.Room (s.thisproc k) (s.core k).sp 0

theorem CoresIdle.inv {C P : Type} {K : Symbols P} {s : ContextSys C P} (h : CoresIdle K s) : ContextInv K s where
  layout := h.layout
  thisproc := h.thisproc
  dead _ := h.saved _
  nested {p lo hi} _ := by
    rw [h.saved p]
    trivial
  tail {p a as} hs := by
    rw [h.saved p] at hs
    cases hs
  running k a ha := by
    rw [h.saved] at ha
    cases ha
  room := h.room
  holds {p} a ha := by
    rw [h.saved p] at ha
    cases ha
  away {p ctx sp as} hs := by
    rw [h.saved p] at hs
    cases hs
  fresh {p lo hi} hk hoff _ := by
    obtain ⟨k, rfl⟩ := h.idle p (by simp [hk])
    exact absurd rfl (hoff k)

namespace ContextSys

variable {C P : Type} [DecidableEq C] [DecidableEq P] {K : Symbols P}
  {s s' s₀ s₁ s₂ s₃ : ContextSys C P}

/-- The invariant holds in every state that is reached. -/
theorem inv_of_reach {ok : ContextSys C P → ContextOp C P → Prop} (hI : ContextInv K s₀)
    (hok : ∀ s op, ok s op → s.CodeOk K op) (h : Reach (step K) ok s₀ s) : ContextInv K s :=
  h.invariant hI fun s op _ hI ho hs => hI.step (hok s op ho) hs

/-- What a step does to what was saved for a process. -/
theorem step_saved (hI : ContextInv K s) {op : ContextOp C P} (hok : s.CodeOk K op)
    (h : s.step K op = some s') (p : P) :
    s'.saved p = s.saved p ∨
    (∃ k a, s.thisproc k = p ∧ s'.saved p = a :: s.saved p) ∨
    (∃ k v u x sp esr rest, op = .syscallRet k v ∧ s.thisproc k = p ∧
      s.saved p = .trap u x sp esr none :: rest ∧
      s'.saved p = .trap u x sp esr (some v) :: rest ∧
      trapCase esr = .syscall ∧ u.x8.toNat < nrSyscall) ∨
    (∃ k a, op = .trapRet k ∧ s.thisproc k = p ∧ s.saved p = a :: s'.saved p) ∨
    (∃ k ctx sp, op = .sched k p ∧ s.saved p = .away ctx sp :: s'.saved p) ∨
    op = .freeStack p ∨ (s.saved p = [] ∧ s.Off p) := by
  have hset : ∀ (t : ContextSys C P) q as, q ≠ p → (t.setSaved q as).saved p = t.saved p := by
    intro t q as hq
    exact Function.update_of_ne hq.symm ..
  have hset' : ∀ (t : ContextSys C P) as, (t.setSaved p as).saved p = as := by
    intro t as
    exact Function.update_self ..
  cases op with
  | code k r stores =>
      simp only [step, Option.some.injEq] at h
      subst h
      exact Or.inl rfl
  | trap k pc pstate esr =>
      simp only [step, Option.map_eq_some_iff] at h
      obtain ⟨t, -, rfl⟩ := h
      by_cases hp : s.thisproc k = p
      · subst hp
        exact Or.inr (Or.inl ⟨k, _, rfl, hset' _ _⟩)
      · exact Or.inl (hset _ _ _ hp)
  | syscallRet k v =>
      simp only [step] at h
      split at h
      · rename_i u x sp esr rest hsv
        split at h
        · rename_i hid
          simp only [Option.some.injEq] at h
          subst h
          by_cases hp : s.thisproc k = p
          · subst hp
            have hold : (Saved.trap u x sp esr none).Holds s.mem :=
              hI.holds _ (hsv ▸ List.mem_cons_self)
            change UserContext.load s.mem (down sp UserContext.size) = u at hold
            rw [hold] at hid
            exact Or.inr (Or.inr (Or.inl ⟨k, v, u, x, sp, esr, rest, rfl, rfl, hsv, hset' _ _, hid⟩))
          · exact Or.inl (hset _ _ _ hp)
        · cases h
      · cases h
  | trapRet k =>
      simp only [step] at h
      split at h
      · rename_i u x sp esr ret rest hsv
        simp only [Option.map_eq_some_iff] at h
        obtain ⟨t, -, rfl⟩ := h
        by_cases hp : s.thisproc k = p
        · subst hp
          refine Or.inr (Or.inr (Or.inr (Or.inl ⟨k, .trap u x sp esr ret, rfl, rfl, ?_⟩)))
          exact hsv.trans (congrArg _ (hset' _ _).symm)
        · exact Or.inl (hset _ _ _ hp)
      · cases h
  | sched k q =>
      have h' := h
      simp only [step] at h'
      split at h'
      · rename_i ctx sp rest hsv
        obtain ⟨t, ht, -, -, -, -, -, hsv'⟩ := hI.sched_total hok hsv
        cases ht.symm.trans h
        by_cases hpq : p = q
        · subst hpq
          refine Or.inr (Or.inr (Or.inr (Or.inr (Or.inl ⟨k, ctx, sp, rfl, ?_⟩))))
          rw [hsv' p, if_pos rfl, hsv]
        · by_cases hp : p = s.thisproc k
          · have hcons := hsv' p
            rw [if_neg hpq, if_pos hp, ← hp] at hcons
            exact Or.inr (Or.inl ⟨k, _, hp.symm, hcons⟩)
          · exact Or.inl (by rw [hsv' p, if_neg hpq, if_neg hp])
      · cases h'
  | initProc q ks =>
      simp only [step, Option.some.injEq] at h
      subst h
      by_cases hp : q = p
      · subst hp
        exact Or.inl ((hset' _ _).trans (hI.dead hok.1).symm)
      · exact Or.inl (hset _ _ _ hp)
  | startProc q entry arg =>
      simp only [step, Option.some.injEq] at h
      subst h
      by_cases hp : q = p
      · subst hp
        exact Or.inr (Or.inr (Or.inr (Or.inr (Or.inr (Or.inr ⟨hok.2.2, hok.2.1⟩)))))
      · exact Or.inl (hset _ _ _ hp)
  | freeStack q =>
      by_cases hp : q = p
      · subst hp
        exact Or.inr (Or.inr (Or.inr (Or.inr (Or.inr (Or.inl rfl)))))
      · simp only [step, Option.some.injEq] at h
        subst h
        exact Or.inl (hset _ _ _ hp)

/-! ## `swtch` -/

/-- Steps that neither go to the process nor end it. -/
def Undisturbed (K : Symbols P) (p : P) (s : ContextSys C P) (op : ContextOp C P) : Prop :=
  s.CodeOk K op ∧ op ≠ .freeStack p ∧ ∀ k, op ≠ .sched k p

/-- A process that is away stays away, with the same registers. -/
theorem away_of_undisturbed (hI : ContextInv K s) {p : P} {ctx : KernelContext} {sp : Word}
    {as : List Saved} (hs : s.saved p = .away ctx sp :: as)
    (h : Reach (step K) (Undisturbed K p) s s') :
    ContextInv K s' ∧ s'.saved p = .away ctx sp :: as := by
  refine h.invariant (P := fun t => ContextInv K t ∧ t.saved p = .away ctx sp :: as) ⟨hI, hs⟩ ?_
  rintro t op t' ⟨hI, hs⟩ ⟨hok, hfree, hsched⟩ ht
  refine ⟨hI.step hok ht, ?_⟩
  have hoff := hI.off_of_away hs
  rcases step_saved hI hok ht p with h | ⟨k, a, hk, -⟩ | ⟨k, -, -, -, -, -, -, -, hk, -⟩ |
    ⟨k, a, -, hk, -⟩ | ⟨k, c, w, rfl, -⟩ | h | ⟨h, -⟩
  · exact h.trans hs
  · exact absurd hk (hoff k)
  · exact absurd hk (hoff k)
  · exact absurd hk (hoff k)
  · exact absurd rfl (hsched k)
  · exact absurd h hfree
  · rw [hs] at h
    cases h

/-- **A call of `swtch` returns where it was called**, with the stack pointer and the
registers that a call preserves, on whatever core and whatever happened in between; until
then the process is on no core. -/
theorem swtch_comes_back {k k' : C} {q : P} (hb : CoresIdle K s₀)
    (h₁ : Reach (step K) (CodeOk K) s₀ s₁) (hok₁ : s₁.CodeOk K (.sched k q))
    (hs₁ : s₁.step K (.sched k q) = some s₂)
    (h₂ : Reach (step K) (Undisturbed K (s₁.thisproc k)) s₂ s₃)
    (hok₃ : s₃.CodeOk K (.sched k' (s₁.thisproc k))) :
    (∀ k₁, s₃.thisproc k₁ ≠ s₁.thisproc k) ∧
    ∃ s₄, s₃.step K (.sched k' (s₁.thisproc k)) = some s₄ ∧
      s₄.saved (s₁.thisproc k) = s₁.saved (s₁.thisproc k) ∧
      (∀ k₁, s₄.thisproc k₁ = s₁.thisproc k ↔ k₁ = k') ∧
      (s₄.core k').sp = (s₁.core k).sp ∧ (s₄.core k').x .x30 = (s₁.core k).x .x30 ∧
      calleeSaved (s₄.core k') = calleeSaved (s₁.core k) := by
  have hI₁ := inv_of_reach hb.inv (fun _ _ h => h) h₁
  have hI₂ := hI₁.step hok₁ hs₁
  have hs := hs₁
  simp only [step] at hs
  split at hs
  · rename_i ctx sp rest hsv
    obtain ⟨t, ht, -, -, -, -, -, hsv'⟩ := hI₁.sched_total hok₁ hsv
    cases ht.symm.trans hs₁
    have hne : s₁.thisproc k ≠ q := hI₁.off_of_away hsv k
    have hp := hsv' (s₁.thisproc k)
    rw [if_neg hne, if_pos rfl] at hp
    obtain ⟨hI₃, hsv₃⟩ := away_of_undisturbed hI₂ hp h₂
    obtain ⟨s₄, hs₄, hI₄, hctx, hsp, hthis, -, hsaved⟩ := hI₃.sched_total hok₃ hsv₃
    have hk' : s₄.thisproc k' = s₁.thisproc k := by rw [hthis, Function.update_self]
    refine ⟨hI₃.off_of_away hsv₃, s₄, hs₄, by rw [hsaved, if_pos rfl], ?_, hsp, ?_, ?_⟩
    · intro k₁
      refine ⟨fun h => hI₄.thisproc (h.trans hk'.symm), fun h => h ▸ hk'⟩
    · have := congrArg KernelContext.lr hctx
      exact this.trans (by simp [KernelContext.of, Regs.set])
    · have := congrArg KernelContext.x hctx
      refine this.trans (funext fun i => ?_)
      have hq := notMem_of_calleeSaved _ (List.get_mem calleeSavedRegs i)
      have h0 : calleeSavedRegs.get i ≠ .x0 := fun h0 => hq.1 (h0 ▸ by decide)
      have h1 : calleeSavedRegs.get i ≠ .x1 := fun h1 => hq.1 (h1 ▸ by decide)
      simp only [calleeSaved, KernelContext.of, Regs.set, Function.update_of_ne h0,
        Function.update_of_ne h1]
  · cases hs

/-! ## Traps -/

/-- Steps during a trap of a process that began with `n` structures saved: the process is not
ended, and this trap does not return. -/
def Inside (K : Symbols P) (p : P) (n : ℕ) (s : ContextSys C P) (op : ContextOp C P) : Prop :=
  s.CodeOk K op ∧ op ≠ .freeStack p ∧
    ∀ k, op = .trapRet k → s.thisproc k = p → (s.saved p).length ≠ n + 1

/-- What was saved by a trap, under what was saved later. -/
def Open (s : ContextSys C P) (p : P) (u : UserContext) (x : Fin 11 → Word) (sp esr : Word)
    (rest : List Saved) : Prop :=
  ∃ pre ret, s.saved p = pre ++ .trap u x sp esr ret :: rest ∧
    (ret = none ∨ trapCase esr = .syscall ∧ u.x8.toNat < nrSyscall)

theorem open_of_inside (hI : ContextInv K s) {p : P} {u : UserContext} {x : Fin 11 → Word}
    {sp esr : Word} {rest : List Saved} (hs : s.Open p u x sp esr rest)
    (h : Reach (step K) (Inside K p rest.length) s s') :
    ContextInv K s' ∧ s'.Open p u x sp esr rest := by
  refine h.invariant (P := fun t => ContextInv K t ∧ t.Open p u x sp esr rest) ⟨hI, hs⟩ ?_
  rintro t op t' ⟨hI, pre, ret, hs, hret⟩ ⟨hok, hfree, htrap⟩ ht
  refine ⟨hI.step hok ht, ?_⟩
  rcases step_saved hI hok ht p with h | ⟨k, a, -, h⟩ |
    ⟨k, v, u', x', sp', esr', rest', rfl, hk, h, h', hid⟩ | ⟨k, a, rfl, hk, h⟩ |
    ⟨k, c, w, rfl, h⟩ | h | ⟨h, -⟩
  · exact ⟨pre, ret, h.trans hs, hret⟩
  · exact ⟨a :: pre, ret, by rw [h, hs]; rfl, hret⟩
  · -- the result goes to the innermost trap
    rw [hs] at h
    cases pre with
    | nil =>
        simp only [List.nil_append, List.cons.injEq, Saved.trap.injEq] at h
        obtain ⟨⟨rfl, rfl, rfl, rfl, rfl⟩, rfl⟩ := h
        exact ⟨[], some v, h', Or.inr hid⟩
    | cons b pre =>
        simp only [List.cons_append, List.cons.injEq] at h
        obtain ⟨-, rfl⟩ := h
        exact ⟨_ :: pre, ret, h', hret⟩
  · rw [hs] at h
    cases pre with
    | nil =>
        have := htrap k rfl hk
        rw [hs] at this
        exact absurd rfl this
    | cons b pre =>
        simp only [List.cons_append, List.cons.injEq] at h
        exact ⟨pre, ret, h.2.symm, hret⟩
  · rw [hs] at h
    cases pre with
    | nil =>
        simp only [List.nil_append, List.cons.injEq] at h
        cases h.1
    | cons b pre =>
        simp only [List.cons_append, List.cons.injEq] at h
        exact ⟨pre, ret, h.2.symm, hret⟩
  · exact absurd h hfree
  · rw [hs] at h
    exact absurd h (by simp)

/-- The end of a trap. -/
theorem Open.ret (hI : ContextInv K s) {k : C} {u : UserContext} {x : Fin 11 → Word}
    {sp esr : Word} {rest : List Saved} (hs : s.Open (s.thisproc k) u x sp esr rest)
    (hn : (s.saved (s.thisproc k)).length = rest.length + 1) (hok : s.CodeOk K (.trapRet k)) :
    ∃ s' ret, s.step K (.trapRet k) = some s' ∧ s'.saved (s.thisproc k) = rest ∧
      s.saved (s.thisproc k) = .trap u x sp esr ret :: rest ∧
      (ret = none ∨ trapCase esr = .syscall ∧ u.x8.toNat < nrSyscall) ∧
      UserContext.of (s'.core k) = Saved.withRet u ret ∧ calleeSaved (s'.core k) = x ∧
      (s'.core k).sp = sp := by
  obtain ⟨pre, ret, hs, hret⟩ := hs
  have hpre : pre = [] := by
    rw [hs] at hn
    simp only [List.length_append, List.length_cons] at hn
    exact List.eq_nil_of_length_eq_zero (by omega)
  subst hpre
  rw [List.nil_append] at hs
  obtain ⟨r, hr, -, hu, hx, hsp⟩ := hI.trapRet_total hok hs
  refine ⟨_, ret, hr, Function.update_self .., hs, hret, ?_, ?_, ?_⟩
  · simpa [setCore, setSaved] using hu
  · simpa [setCore, setSaved] using hx
  · simpa [setCore, setSaved] using hsp

/-- **A trap is invisible**: when `trap_return` ends it, on whatever core, all registers but
`x18` are those of the code that was interrupted, which goes on at the same place; only the
result of a valid system call is in `x0`. -/
theorem trap_restores {k k' : C} {pc pstate esr : Word} (hb : CoresIdle K s₀)
    (h₁ : Reach (step K) (CodeOk K) s₀ s₁) (hok₁ : s₁.CodeOk K (.trap k pc pstate esr))
    (hs₁ : s₁.step K (.trap k pc pstate esr) = some s₂)
    (h₂ : Reach (step K) (Inside K (s₁.thisproc k) (s₁.saved (s₁.thisproc k)).length) s₂ s₃)
    (hk : s₃.thisproc k' = s₁.thisproc k)
    (hn : (s₃.saved (s₁.thisproc k)).length = (s₁.saved (s₁.thisproc k)).length + 1)
    (hok₃ : s₃.CodeOk K (.trapRet k')) :
    ∃ s₄ u x ret, s₃.step K (.trapRet k') = some s₄ ∧
      s₃.saved (s₁.thisproc k) =
        .trap u x (s₁.core k).sp esr ret :: s₁.saved (s₁.thisproc k) ∧
      s₄.saved (s₁.thisproc k) = s₁.saved (s₁.thisproc k) ∧
      (s₄.core k').sp = (s₁.core k).sp ∧ (s₄.core k').sys .elrEl1 = pc ∧
      (s₄.core k').sys .spsrEl1 = pstate ∧
      (s₄.core k').sys .spEl0 = (s₁.core k).sys .spEl0 ∧
      (∀ i, i ≠ .x0 → i ≠ .x18 → (s₄.core k').x i = (s₁.core k).x i) ∧
      (s₄.core k').x .x0 = ret.getD ((s₁.core k).x .x0) ∧
      (ret = none ∨ trapCase esr = .syscall ∧ ((s₁.core k).x .x8).toNat < nrSyscall) := by
  have hI₁ := inv_of_reach hb.inv (fun _ _ h => h) h₁
  have hI₂ := hI₁.step hok₁ hs₁
  have hs := hs₁
  simp only [step, Option.map_eq_some_iff] at hs
  obtain ⟨t, -, rfl⟩ := hs
  obtain ⟨hI₃, hopen⟩ := open_of_inside hI₂ ⟨[], none, Function.update_self .., Or.inl rfl⟩ h₂
  rw [← hk] at hopen hn
  obtain ⟨s₄, ret, hs₄, hrest, hsv, hret, hu, hx, hsp⟩ := Open.ret hI₃ hopen hn hok₃
  have hlr := congrArg UserContext.lr hu
  have hsp0 := congrArg UserContext.sp hu
  have hspsr := congrArg UserContext.spsr hu
  have helr := congrArg UserContext.elr hu
  have hxs := congrArg UserContext.x hu
  rw [hk] at hrest hsv
  refine ⟨s₄, _, _, ret, hs₄, hsv, hrest, hsp, ?_, ?_, ?_, ?_, ?_, ?_⟩
  · cases ret <;> simpa [UserContext.of, Saved.withRet] using helr
  · cases ret <;> simpa [UserContext.of, Saved.withRet] using hspsr
  · cases ret <;> simpa [UserContext.of, Saved.withRet] using hsp0
  · intro i h0 h18
    rcases mem_regs i h18 with hi | hi | rfl
    · obtain ⟨j, rfl⟩ := List.mem_iff_get.mp hi
      have hj : j ≠ (0 : Fin 18) := by
        rintro rfl
        exact h0 rfl
      have := congrFun hxs j
      cases ret with
      | none => exact this
      | some v => exact this.trans (UserContext.setX0_x _ _ hj)
    · obtain ⟨j, rfl⟩ := List.mem_iff_get.mp hi
      exact congrFun hx j
    · cases ret <;> simpa [UserContext.of, Saved.withRet] using hlr
  · have := congrFun hxs 0
    cases ret with
    | none => exact this
    | some v => exact this.trans (UserContext.setX0_x0 _ _)
  · exact hret

/-! ## New processes -/

/-- **A new process starts where `start_proc` says.**  The first switch to it enters
`proc_entry`, which finds `entry` and `arg` in its arguments, at the end of its stack; and a
process with the entry `trap_return` gets to user space with the registers that its
`ucontext` had when it was started. -/
theorem start_proc_enters {p : P} {entry arg : Word} {lo hi : ℕ} (hb : CoresIdle K s₀)
    (h₁ : Reach (step K) (CodeOk K) s₀ s₁) (hok₁ : s₁.CodeOk K (.startProc p entry arg))
    (hs₁ : s₁.step K (.startProc p entry arg) = some s₂) (hk : s₁.kstack p = some (lo, hi)) :
    (∀ s₃ k, Reach (step K) (Undisturbed K p) s₂ s₃ → s₃.CodeOk K (.sched k p) →
      ∃ s₄, s₃.step K (.sched k p) = some s₄ ∧ s₄.thisproc k = p ∧
        (s₄.core k).x .x30 = K.procEntry ∧ (s₄.core k).x .x0 = entry ∧ (s₄.core k).x .x1 = arg ∧
        (s₄.core k).sp = BitVec.ofNat 64 (lo + ucontextOffset)) ∧
    (entry = K.trapReturn → ∀ s₃ k, Reach (step K) (Inside K p 0) s₂ s₃ → s₃.thisproc k = p →
      (s₃.saved p).length = 1 → s₃.CodeOk K (.trapRet k) →
      ∃ s₄, s₃.step K (.trapRet k) = some s₄ ∧
        UserContext.of (s₄.core k) =
          UserContext.load s₁.mem (BitVec.ofNat 64 (lo + ucontextOffset)) ∧
        (s₄.core k).sp = BitVec.ofNat 64 hi ∧ s₄.saved p = []) := by
  have hI₁ := inv_of_reach hb.inv (fun _ _ h => h) h₁
  have hI₂ := hI₁.step hok₁ hs₁
  obtain ⟨hsome, hoff, hnil⟩ := hok₁
  obtain ⟨hcell, hhi, hlo⟩ := hI₁.fresh hk hoff hnil
  obtain ⟨ha, hs, hs', -⟩ := ContextInv.fresh_addrs (hI₁.layout.bound hk) hhi hlo hcell
  obtain ⟨a, haeq⟩ : ∃ a, s₁.mem (K.kcontext p) = a := ⟨_, rfl⟩
  obtain ⟨m, hmeq⟩ : ∃ m, store s₁.mem a [K.procEntry, entry, arg] = m := ⟨_, rfl⟩
  simp only [step, Option.some.injEq] at hs₁
  rw [haeq] at ha hs hs' hs₁
  rw [hmeq] at hs₁
  have hsv : s₂.saved p = .away (KernelContext.load m a) (dword a KernelContext.size) ::
      (if entry = K.trapReturn then [.trap (.load m (dword a KernelContext.size))
        (KernelContext.load m a).x (dword (dword a KernelContext.size) UserContext.size) 0 none]
        else []) := by
    subst hs₁
    exact Function.update_self ..
  have hword : ∀ {w : Word} {n : ℕ}, w.toNat = n → w = BitVec.ofNat 64 n := by
    rintro w n rfl
    simp
  have hst : ∀ i, (h : i < 3) → m (dword a i) = [K.procEntry, entry, arg][i] := by
    intro i h
    rw [← hmeq]
    exact store_dword _ _ _ h (by omega)
  constructor
  · intro s₃ k h₂ hok₃
    obtain ⟨hI₃, hsv₃⟩ := away_of_undisturbed hI₂ hsv h₂
    obtain ⟨s₄, hs₄, -, hctx, hsp, hthis, -⟩ := hI₃.sched_total hok₃ hsv₃
    refine ⟨s₄, hs₄, by rw [hthis, Function.update_self], ?_, ?_, ?_, hsp.trans (hword hs)⟩
    · exact (congrArg KernelContext.lr hctx).trans (hst 0 (by decide))
    · exact (congrArg KernelContext.x0 hctx).trans (hst 1 (by decide))
    · exact (congrArg KernelContext.x1 hctx).trans (hst 2 (by decide))
  · rintro he s₃ k h₂ rfl hn hok₃
    rw [if_pos he] at hsv
    have hopen₂ : s₂.Open (s₃.thisproc k) (.load m (dword a KernelContext.size))
        (KernelContext.load m a).x (dword (dword a KernelContext.size) UserContext.size) 0 [] :=
      ⟨[_], none, hsv, Or.inl rfl⟩
    obtain ⟨hI₃, hopen⟩ := open_of_inside hI₂ hopen₂ h₂
    obtain ⟨s₄, ret, hs₄, hrest, -, hret, hu, -, hsp⟩ := Open.ret hI₃ hopen hn hok₃
    have hnone : ret = none := by
      rcases hret with h | h
      · exact h
      · exact absurd h.1 (by decide)
    subst hnone
    refine ⟨s₄, hs₄, ?_, hsp.trans (hword hs'), hrest⟩
    rw [hu, ← hword hs]
    -- the three words of `start_proc` are not in the `UserContext`
    refine UserContext.load_congr fun i hi => ?_
    have hbd := hI₁.layout.bound hk
    have hsz : UserContext.size = 22 := rfl
    have hoff₁ : kcontextOffset = 3792 := rfl
    have hoff₂ : ucontextOffset = 3904 := rfl
    have hpg : pageSize = 4096 := rfl
    have hi' := toNat_dword (a := dword a KernelContext.size) (i := i) (by omega)
    rw [← hmeq]
    refine store_outside _ (by simp only [List.length_cons, List.length_nil]; omega) ?_
    simp only [List.length_cons, List.length_nil]
    omega

/-! ## A small machine -/

/-- One core with an idle process, and the field `kcontext` of a second process. -/
def smallSymbols : Symbols Bool := ⟨0x1000#64, 0x2000#64, fun p => if p then 0x200#64 else 0x100#64⟩

def smallMachine : ContextSys Unit Bool where
  core _ := ⟨fun q => if q = .x9 then 9#64 else 0, 0x9000#64, fun _ => 0⟩
  mem _ := 0
  thisproc _ := false
  kstack p := if p then none else some (0x8000, 0x9000)
  saved _ := []

theorem small_idle : CoresIdle smallSymbols smallMachine where
  layout := by
    constructor
    case bound =>
      rintro (_ | _) lo hi h <;> simp [smallMachine] at h
      omega
    case apart => rintro (_ | _) (_ | _) lo hi lo' hi' hne h h' <;> simp_all [smallMachine]
    case inj => rintro (_ | _) (_ | _) hne h h' <;> simp_all [smallMachine]
    case aligned => rintro (_ | _) h <;> decide
    case outside =>
      rintro (_ | _) (_ | _) lo hi h h' <;> simp_all [smallMachine, smallSymbols]
      omega
  thisproc _ _ _ := rfl
  idle := by
    rintro (_ | _) h
    · exact ⟨(), rfl⟩
    · simp [smallMachine] at h
  saved _ := rfl
  room _ := ⟨0x8000, 0x9000, rfl, (by decide : 0x8000 + 8 * 0 ≤ (0x9000#64).toNat),
    (by decide : (0x9000#64).toNat ≤ 0x9000), (by decide : Aligned 0x9000#64)⟩

/-- The second process is created and started. -/
theorem small_started (entry : Word) : ∃ s,
    Reach (step smallSymbols) (CodeOk smallSymbols) smallMachine s ∧
      s.kstack true = some (0xa000, 0xa000 + pageSize - 16) ∧
      s.CodeOk smallSymbols (.startProc true entry 7#64) ∧ s.saved false = [] ∧
      s.kstack false = some (0x8000, 0x9000) ∧ (s.core ()).sp = 0x9000#64 ∧
      (s.core ()).x .x19 = 0#64 ∧ s.thisproc () = false := by
  have hok : smallMachine.CodeOk smallSymbols (.initProc true 0xa000) := by
    refine ⟨rfl, by decide, by decide, by decide, ?_, by decide⟩
    rintro (_ | _) lo hi h <;> simp [smallMachine] at h
    obtain ⟨rfl, rfl⟩ := h
    decide
  refine ⟨_, Reach.init.step hok rfl, rfl, ⟨rfl, ?_, rfl⟩, rfl, rfl, rfl, rfl, rfl⟩
  intro _ h
  cases h

/-- It goes to the second process, which overwrites `x19`, and back. -/
theorem swtch_comes_back_small : ∃ s₁ s₂ r s₃ s₄,
    Reach (step smallSymbols) (CodeOk smallSymbols) smallMachine s₁ ∧
      s₁.step smallSymbols (.sched () true) = some s₂ ∧
      s₂.step smallSymbols (.code () r []) = some s₃ ∧ s₃.thisproc () = true ∧
      (s₃.core ()).x .x19 = 77#64 ∧ s₃.step smallSymbols (.sched () false) = some s₄ ∧
      (s₄.core ()).sp = 0x9000#64 ∧ (s₄.core ()).x .x19 = (s₁.core ()).x .x19 ∧
      (s₁.core ()).x .x19 = 0#64 := by
  obtain ⟨s, hr, hk, hok, hsv, hkst, hsp, hx, hthis⟩ := small_started 0x3000#64
  have hI := inv_of_reach small_idle.inv (fun _ _ h => h) hr
  obtain ⟨hcell, hhi, hlo⟩ := hI.fresh hk hok.2.1 hok.2.2
  obtain ⟨-, hslot, -, -, hal, -⟩ := ContextInv.fresh_addrs (hI.layout.bound hk) hhi hlo hcell
  obtain ⟨s₁, hs₁⟩ : ∃ s₁, s.step smallSymbols (.startProc true 0x3000#64 7#64) = some s₁ :=
    ⟨_, rfl⟩
  have hI₁ := hI.step hok hs₁
  have hr₁ := hr.step hok hs₁
  have hs := hs₁
  simp only [step, Option.some.injEq, if_neg (show ¬(0x3000#64 = smallSymbols.trapReturn) by decide)]
    at hs
  have hsv₁ : s₁.saved true = [.away (KernelContext.load s₁.mem (s.mem (smallSymbols.kcontext true)))
      (dword (s.mem (smallSymbols.kcontext true)) KernelContext.size)] := by
    subst hs
    rfl
  have hsv₁' : s₁.saved false = [] := by subst hs; exact hsv
  have hk₁ : s₁.kstack = s.kstack := by subst hs; rfl
  have hsp₁ : (s₁.core ()).sp = 0x9000#64 := by subst hs; exact hsp
  have hthis₁ : s₁.thisproc () = false := by subst hs; exact hthis
  have hok₁ : s₁.CodeOk smallSymbols (.sched () true) := by
    refine ⟨0x8000, 0x9000, by rw [hthis₁, hk₁, hkst], ?_⟩
    rw [hthis₁, hsv₁', hsp₁]
    decide
  obtain ⟨s₂, hs₂, hI₂, -, hsp₂, hthis₂, hk₂, hsv₂⟩ := hI₁.sched_total hok₁ hsv₁
  have ht₂ : s₂.thisproc () = true := by rw [hthis₂, Function.update_self]
  have hsv₂' : s₂.saved true = [] := by rw [hsv₂, if_pos rfl]
  have hx₁ : (s₁.core ()).x .x19 = 0#64 := by subst hs; exact hx
  -- the second process runs
  obtain ⟨r, hreq⟩ : ∃ r : Regs, r =
    { s₂.core () with x := Function.update (s₂.core ()).x .x19 77#64 } := ⟨_, rfl⟩
  have hrsp : r.sp = dword (s.mem (smallSymbols.kcontext true)) KernelContext.size := by
    rw [hreq]
    exact hsp₂
  have hroom : ∀ {t : ContextSys Unit Bool} {n}, n ≤ KernelContext.size → t.kstack = s₂.kstack →
      t.saved true = [] → t.Room true r.sp n := by
    intro t n hn hkt hsvt
    refine ⟨0xa000, 0xa000 + pageSize - 16, by rw [hkt, hk₂, hk₁, hk], ?_⟩
    rw [hsvt, hrsp, hslot]
    have hsize : KernelContext.size = 14 := rfl
    have hoff : ucontextOffset = 3904 := rfl
    refine ⟨by omega, ?_, hal⟩
    rw [limit, hoff]
    decide
  have hok₂ : s₂.CodeOk smallSymbols (.code () r []) := by
    refine ⟨?_, ?_⟩
    · rw [ht₂]
      exact hroom (Nat.zero_le _) rfl hsv₂'
    · simp
  obtain ⟨s₃, hs₃⟩ : ∃ s₃, s₂.step smallSymbols (.code () r []) = some s₃ :=
    ⟨_, rfl⟩
  have h₃ := hs₃
  simp only [step, Option.some.injEq] at h₃
  have hcore₃ : s₃.core () = r := by subst h₃; rfl
  have ht₃ : s₃.thisproc () = true := by subst h₃; exact ht₂
  have hok₃ : s₃.CodeOk smallSymbols (.sched () (s₁.thisproc ())) := by
    change s₃.Room (s₃.thisproc ()) (s₃.core ()).sp KernelContext.size
    rw [ht₃, hcore₃]
    exact hroom le_rfl (by subst h₃; rfl) (by subst h₃; exact hsv₂')
  obtain ⟨-, s₄, hs₄, -, -, hsp₄, -, hx₄⟩ := swtch_comes_back small_idle hr₁ hok₁ hs₂
    (Reach.init.step ⟨hok₂, by simp, fun _ h => by cases h⟩ hs₃) hok₃
  refine ⟨s₁, s₂, r, s₃, s₄, hr₁, hs₂, hs₃, ht₃, ?_, by rw [← hthis₁]; exact hs₄,
    hsp₄.trans hsp₁, congrFun hx₄ 0, hx₁⟩
  rw [hcore₃, hreq]
  exact Function.update_self Reg.x19 77#64 (s₂.core ()).x

/-- Registers in a trap of the idle process: nothing is left in the scratch registers, and the
exception registers are overwritten. -/
def clobbered : Regs := ⟨fun _ => 0, 0x8f50#64, fun _ => 0⟩

/-- A system call of the idle process, and its end. -/
theorem trap_restores_small : ∃ s₂ s₃ s₄ s₅,
    smallMachine.step smallSymbols (.trap () 0x4000#64 0x5#64 0x54000000#64) = some s₂ ∧
      s₂.step smallSymbols (.code () clobbered []) = some s₃ ∧ (s₃.core ()).x .x9 = 0#64 ∧
      s₃.step smallSymbols (.syscallRet () 6#64) = some s₄ ∧
      s₄.step smallSymbols (.trapRet ()) = some s₅ ∧ (s₅.core ()).sp = 0x9000#64 ∧
      (s₅.core ()).sys .elrEl1 = 0x4000#64 ∧ (s₅.core ()).x .x9 = 9#64 ∧
      (s₅.core ()).x .x0 = 6#64 := by
  have hI := small_idle.inv
  have hok : smallMachine.CodeOk smallSymbols (.trap () 0x4000#64 0x5#64 0x54000000#64) :=
    ⟨0x8000, 0x9000, rfl, by decide, by decide, by decide⟩
  obtain ⟨s₂, hs₂, hI₂, -⟩ := hI.trap_total hok
  have h₂ := hs₂
  simp only [step, Option.map_eq_some_iff] at h₂
  obtain ⟨t, -, h₂⟩ := h₂
  have hthis₂ : s₂.thisproc () = false := by subst h₂; rfl
  have hk₂ : s₂.kstack false = some (0x8000, 0x9000) := by subst h₂; rfl
  obtain ⟨u, x, hu8, hx, hsv₂⟩ : ∃ u x, u.x8 = 0#64 ∧ calleeSaved clobbered = x ∧
      s₂.saved false = [.trap u x 0x9000#64 0x54000000#64 none] := by
    subst h₂
    refine ⟨_, _, rfl, ?_, rfl⟩
    funext i
    revert i
    decide
  have hok₂ : s₂.CodeOk smallSymbols (.code () clobbered []) := by
    refine ⟨⟨0x8000, 0x9000, by rw [hthis₂, hk₂], by decide, ?_, by decide⟩, by simp⟩
    rw [hthis₂, hsv₂]
    change (0x8f50#64).toNat ≤ (down 0x9000#64 UserContext.size).toNat
    decide
  obtain ⟨s₃, hs₃⟩ : ∃ s₃, s₂.step smallSymbols (.code () clobbered []) = some s₃ := ⟨_, rfl⟩
  have h₃ := hs₃
  simp only [step, List.foldl_nil, Option.some.injEq] at h₃
  have hcore₃ : s₃.core () = clobbered := by subst h₃; rfl
  have hthis₃ : s₃.thisproc () = false := by subst h₃; exact hthis₂
  have hsv₃ : s₃.saved false = [.trap u x 0x9000#64 0x54000000#64 none] := by
    subst h₃
    exact hsv₂
  -- the context that `trap_entry` saved is in memory
  have hmem : UserContext.load s₃.mem (down 0x9000#64 UserContext.size) = u :=
    (hI₂.step hok₂ hs₃).holds (p := false)
      (.trap u x 0x9000#64 0x54000000#64 none) (by rw [hsv₃]; exact List.mem_singleton_self _)
  obtain ⟨s₄, hs₄, hcore₄, hthis₄, hsv₄⟩ : ∃ s₄,
      s₃.step smallSymbols (.syscallRet () 6#64) = some s₄ ∧ s₄.core () = clobbered ∧
      s₄.thisproc () = false ∧
      s₄.saved false = [.trap u x 0x9000#64 0x54000000#64 (some 6#64)] := by
    simp only [step, hthis₃, hsv₃, hmem, hu8]
    exact ⟨_, if_pos (by decide), hcore₃, hthis₃, rfl⟩
  have hok₄ : s₄.CodeOk smallSymbols (.trapRet ()) := by
    intro u' x' sp' esr' ret' rest' h
    rw [hthis₄, hsv₄] at h
    simp only [List.cons.injEq, Saved.trap.injEq] at h
    obtain ⟨⟨-, rfl, rfl, -, -⟩, -⟩ := h
    rw [hcore₄]
    exact ⟨by decide, hx⟩
  have hinside : Reach (step smallSymbols) (Inside smallSymbols false 0) s₂ s₄ :=
    .step (i := .syscallRet () 6#64) (.step .init ⟨hok₂, by simp, by simp⟩ hs₃)
      ⟨trivial, by simp, by simp⟩ hs₄
  obtain ⟨s₅, u', x', ret, hs₅, hsv, -, hsp, helr, -, -, hregs, hx0, -⟩ := trap_restores small_idle
    Reach.init hok hs₂ hinside hthis₄ (congrArg List.length hsv₄) hok₄
  have hret : ret = some 6#64 := by
    replace hsv := hsv₄.symm.trans hsv
    simp only [List.cons.injEq, Saved.trap.injEq] at hsv
    exact hsv.1.2.2.2.2.symm
  rw [hret] at hx0
  exact ⟨s₂, s₃, s₄, s₅, hs₂, hs₃, by rw [hcore₃]; rfl, hs₄, hs₅, hsp, helr,
    hregs .x9 (by decide) (by decide), hx0⟩

/-- The second process is started with `trap_return`, and gets to user space. -/
theorem start_proc_enters_small : ∃ s s₂ s₃ s₄,
    Reach (step smallSymbols) (CodeOk smallSymbols) smallMachine s ∧
      s.step smallSymbols (.startProc true 0x2000#64 7#64) = some s₂ ∧
      s₂.step smallSymbols (.sched () true) = some s₃ ∧ (s₃.core ()).x .x30 = 0x1000#64 ∧
      s₃.step smallSymbols (.trapRet ()) = some s₄ ∧
      UserContext.of (s₄.core ()) =
        UserContext.load s.mem (BitVec.ofNat 64 (0xa000 + ucontextOffset)) := by
  obtain ⟨s, hr, hk, hok, hsv, hkst, hsp, -, hthis⟩ := small_started 0x2000#64
  have hI := inv_of_reach small_idle.inv (fun _ _ h => h) hr
  obtain ⟨s₂, hs₂⟩ : ∃ s₂, s.step smallSymbols (.startProc true 0x2000#64 7#64) = some s₂ :=
    ⟨_, rfl⟩
  have hI₂ := hI.step hok hs₂
  obtain ⟨hfirst, huser⟩ := start_proc_enters small_idle hr hok hs₂ hk
  have hs := hs₂
  simp only [step, Option.some.injEq] at hs
  obtain ⟨ctx, sp, u, hsv₂⟩ : ∃ ctx sp u, s₂.saved true = [.away ctx sp,
      .trap u ctx.x (dword sp UserContext.size) 0 none] := by
    subst hs
    exact ⟨_, _, _, rfl⟩
  have hsv₂' : s₂.saved false = [] := by subst hs; exact hsv
  have hk₂ : s₂.kstack = s.kstack := by subst hs; rfl
  have hsp₂ : (s₂.core ()).sp = 0x9000#64 := by subst hs; exact hsp
  have hthis₂ : s₂.thisproc () = false := by subst hs; exact hthis
  have hok₂ : s₂.CodeOk smallSymbols (.sched () true) := by
    refine ⟨0x8000, 0x9000, by rw [hthis₂, hk₂, hkst], ?_⟩
    rw [hthis₂, hsv₂', hsp₂]
    decide
  obtain ⟨s₃, hs₃, ht₃, hlr, -⟩ := hfirst s₂ () Reach.init hok₂
  obtain ⟨t, ht, -, hctx, hsp₃, -, -, hsv₃⟩ := hI₂.sched_total hok₂ hsv₂
  cases ht.symm.trans hs₃
  have hsv₃' : s₃.saved true = [.trap u ctx.x (dword sp UserContext.size) 0 none] := by
    rw [hsv₃, if_pos rfl]
  have hok₃ : s₃.CodeOk smallSymbols (.trapRet ()) := by
    intro u' x' sp' esr' ret' rest' h
    rw [ht₃, hsv₃'] at h
    simp only [List.cons.injEq, Saved.trap.injEq] at h
    obtain ⟨⟨-, rfl, rfl, -, -⟩, -⟩ := h
    exact ⟨by rw [down_dword, hsp₃], congrArg KernelContext.x hctx⟩
  obtain ⟨s₄, hs₄, hu, -⟩ := huser rfl s₃ ()
    (Reach.init.step ⟨hok₂, by simp, fun _ h => by cases h⟩ hs₃) ht₃ (by rw [hsv₃']; rfl) hok₃
  exact ⟨s, s₂, s₃, s₄, hr, hs₂, hs₃, hlr, hs₄, hu⟩

end ContextSys

end OsLab
