import OsLab.Kernel.Context

/-!
# What was saved is still in memory

The invariant of the machine of `Kernel/Context.lean`.  The structures that were saved for
a process lie one below the other on its kernel stack; the stack pointer of the core that
runs the process is below them.  Since the stacks of two processes are apart, whatever one
core stores leaves alone what was saved for the others.

## Main definitions

* `ContextSys.Layout` — where the kernel stacks and the fields `kcontext` are.
* `ContextSys.Nested` — saved structures one below the other.
* `ContextInv` — the invariant.
* `ContextInv.step` — every step keeps it.
-/

namespace OsLab

open Asm

/-! ## Addresses -/

theorem toNat_down {a : Word} {n : ℕ} (h : 8 * n ≤ a.toNat) : (down a n).toNat = a.toNat - 8 * n := by
  unfold down
  have := a.isLt
  bv_omega

theorem toNat_dword {a : Word} {i : ℕ} (h : a.toNat + 8 * i < 2 ^ 64) :
    (dword a i).toNat = a.toNat + 8 * i := by
  unfold dword
  bv_omega

theorem down_dword (a : Word) (n : ℕ) : down (dword a n) n = a := by
  unfold down dword
  bv_omega

theorem dword_down (a : Word) (n : ℕ) : dword (down a n) n = a := by
  unfold down dword
  bv_omega

/-- A block below the stack pointer is stored nowhere else. -/
theorem store_outside (m : Mem) {a b : Word} {ws : List Word} (ha : a.toNat + 8 * ws.length < 2 ^ 64)
    (hb : b.toNat < a.toNat ∨ a.toNat + 8 * ws.length ≤ b.toNat) : store m a ws b = m b := by
  refine store_of_le m a ws ?_
  have := b.isLt
  rcases hb with hb | hb
  · bv_omega
  · bv_omega

/-- What a structure holds depends on its doublewords only. -/
theorem Saved.Holds.congr {m m' : Mem} {a : Saved} (h : a.Holds m)
    (hb : a.base.toNat + 8 * a.size = a.sp.toNat) (hm : ∀ b, a.Covers b → m' b = m b) :
    a.Holds m' := by
  have hslot : ∀ i, i < a.size → m' (dword a.base i) = m (dword a.base i) := by
    intro i hi
    have := a.sp.isLt
    have hn := toNat_dword (a := a.base) (i := i) (by omega)
    exact hm _ ⟨by omega, by omega⟩
  cases a with
  | trap u x sp esr ret => exact (UserContext.load_congr hslot).trans h
  | away k sp => exact (KernelContext.load_congr hslot).trans h

/-- A single doubleword is stored nowhere else. -/
theorem store_single (m : Mem) {a b v : Word} (h : b ≠ a) (ha : Aligned a) : store m a [v] b = m b := by
  unfold Aligned at ha
  simp only [store]
  split
  · rw [List.getD_eq_default _ _ ?_]
    have := b.isLt
    simp only [List.length_singleton]
    bv_omega
  · rfl

namespace ContextSys

variable {C P : Type} {K : Symbols P} {s s' : ContextSys C P}

/-- The kernel stacks are apart, and no field `kcontext` lies on one of them. -/
structure Layout (K : Symbols P) (s : ContextSys C P) : Prop where
  bound : ∀ {p lo hi}, s.kstack p = some (lo, hi) → hi < 2 ^ 64
  apart : ∀ {p q lo hi lo' hi'}, p ≠ q → s.kstack p = some (lo, hi) →
    s.kstack q = some (lo', hi') → hi ≤ lo' ∨ hi' ≤ lo
  inj : ∀ {p q}, p ≠ q → (s.kstack p).isSome → (s.kstack q).isSome → K.kcontext p ≠ K.kcontext q
  aligned : ∀ {p}, (s.kstack p).isSome → Aligned (K.kcontext p)
  outside : ∀ {p q lo hi}, (s.kstack p).isSome → s.kstack q = some (lo, hi) →
    ¬(lo ≤ (K.kcontext p).toNat ∧ (K.kcontext p).toNat < hi)

/-- Saved structures one below the other, between the ends of a stack. -/
def Nested (lo hi : ℕ) : List Saved → Prop
  | [] => True
  | a :: as => lo + 8 * a.size ≤ a.sp.toNat ∧ a.sp.toNat ≤ limit hi as ∧ Aligned a.sp ∧
      Nested lo hi as

theorem Layout.of_kstack (h : s.Layout K) (he : s'.kstack = s.kstack) : s'.Layout K := by
  constructor
  all_goals simp only [he]
  · exact h.bound
  · exact h.apart
  · exact h.inj
  · exact h.aligned
  · exact h.outside

/-- The stack of a new process is apart from the others. -/
theorem Layout.initProc [DecidableEq P] (h : s.Layout K) {p : P} {ks : ℕ}
    (hok : s.CodeOk K (.initProc p ks))
    (hs' : ∀ q, s'.kstack q = if q = p then some (ks, ks + pageSize - 16) else s.kstack q) :
    s'.Layout K := by
  obtain ⟨-, hal, -, hbound, hothers, hself⟩ := hok
  constructor
  case bound =>
    intro q lo hi h₁
    rw [hs'] at h₁
    split at h₁
    · cases h₁
      omega
    · exact h.bound h₁
  case apart =>
    intro q₁ q₂ lo hi lo' hi' hq h₁ h₂
    rw [hs'] at h₁ h₂
    split at h₁
    · rename_i he
      cases h₁
      rw [if_neg (fun h => hq (he.trans h.symm))] at h₂
      have := (hothers q₂ lo' hi' h₂).1
      omega
    · split at h₂
      · cases h₂
        have := (hothers q₁ lo hi h₁).1
        omega
      · exact h.apart hq h₁ h₂
  case inj =>
    intro q₁ q₂ hq h₁ h₂
    rw [hs'] at h₁ h₂
    split at h₁
    · rename_i he
      rw [if_neg (fun h => hq (he.trans h.symm))] at h₂
      obtain ⟨b, hb⟩ := Option.isSome_iff_exists.mp h₂
      exact he ▸ ((hothers q₂ b.1 b.2 hb).2.1).symm
    · split at h₂
      · rename_i he
        obtain ⟨b, hb⟩ := Option.isSome_iff_exists.mp h₁
        exact he ▸ (hothers q₁ b.1 b.2 hb).2.1
      · exact h.inj hq h₁ h₂
  case aligned =>
    intro q h₁
    rw [hs'] at h₁
    split at h₁
    · rename_i he
      exact he ▸ hal
    · exact h.aligned h₁
  case outside =>
    intro q₁ q₂ lo hi h₁ h₂
    rw [hs'] at h₁ h₂
    split at h₁
    · rename_i he
      subst he
      split at h₂
      · cases h₂
        omega
      · exact (hothers q₂ lo hi h₂).2.2.1
    · split at h₂
      · cases h₂
        obtain ⟨b, hb⟩ := Option.isSome_iff_exists.mp h₁
        have := (hothers q₁ b.1 b.2 hb).2.2.2
        omega
      · exact h.outside h₁ h₂

theorem Nested.base {lo hi : ℕ} {a : Saved} {as : List Saved} (h : Nested lo hi (a :: as)) :
    a.base.toNat + 8 * a.size = a.sp.toNat ∧ lo ≤ a.base.toNat := by
  have := h.1
  rw [Saved.base, toNat_down (by omega)]
  omega

theorem Nested.limit_le {lo hi : ℕ} {as : List Saved} (h : Nested lo hi as) : limit hi as ≤ hi := by
  induction as with
  | nil => exact Nat.le_refl _
  | cons a as ih =>
      have hb := h.base
      have := ih h.2.2.2
      have := h.2.1
      simp only [limit]
      omega

/-- The place of each of the structures. -/
theorem Nested.mem {lo hi : ℕ} {as : List Saved} (h : Nested lo hi as) {a : Saved} (ha : a ∈ as) :
    a.base.toNat + 8 * a.size = a.sp.toNat ∧ lo ≤ a.base.toNat ∧ a.sp.toNat ≤ hi ∧
      limit hi as ≤ a.base.toNat := by
  induction as with
  | nil => cases ha
  | cons b bs ih =>
      have hb := h.base
      have hl := Nested.limit_le h.2.2.2
      have hsp := h.2.1
      rcases List.mem_cons.mp ha with rfl | ha
      · exact ⟨hb.1, hb.2, by omega, Nat.le_refl _⟩
      · obtain ⟨h1, h2, h3, h4⟩ := ih h.2.2.2 ha
        refine ⟨h1, h2, h3, ?_⟩
        simp only [limit]
        omega

end ContextSys

/-- The invariant of the machine. -/
structure ContextInv {C P : Type} (K : Symbols P) (s : ContextSys C P) : Prop where
  layout : s.Layout K
  thisproc : Function.Injective s.thisproc
  /-- A process that does not exist has nothing saved. -/
  dead : ∀ {p}, s.kstack p = none → s.saved p = []
  nested : ∀ {p lo hi}, s.kstack p = some (lo, hi) → ContextSys.Nested lo hi (s.saved p)
  /-- `swtch` is the last thing a process does, and the first when it comes back. -/
  tail : ∀ {p a as}, s.saved p = a :: as → ∀ b ∈ as, b.isTrap
  running : ∀ k, ∀ a ∈ s.saved (s.thisproc k), a.isTrap
  room : ∀ k, s.Room (s.thisproc k) (s.core k).sp 0
  holds : ∀ {p}, ∀ a ∈ s.saved p, a.Holds s.mem
  away : ∀ {p ctx sp as}, s.saved p = .away ctx sp :: as →
    s.mem (K.kcontext p) = down sp KernelContext.size
  /-- A process that was not started yet. -/
  fresh : ∀ {p lo hi}, s.kstack p = some (lo, hi) → s.Off p → s.saved p = [] →
    s.mem (K.kcontext p) = BitVec.ofNat 64 (lo + ContextSys.kcontextOffset) ∧
      hi = lo + pageSize - 16 ∧ lo % 8 = 0

namespace ContextInv

open ContextSys

variable {C P : Type} {K : Symbols P} {s s' : ContextSys C P}

theorem exists_kstack (hI : ContextInv K s) (k : C) :
    ∃ lo hi, s.kstack (s.thisproc k) = some (lo, hi) := by
  obtain ⟨lo, hi, h, -⟩ := hI.room k
  exact ⟨lo, hi, h⟩

theorem exists_of_saved (hI : ContextInv K s) {p : P} (h : s.saved p ≠ []) :
    ∃ lo hi, s.kstack p = some (lo, hi) := by
  cases hk : s.kstack p with
  | none => exact absurd (hI.dead hk) h
  | some b => exact ⟨b.1, b.2, rfl⟩

/-- A process that is away is on no core. -/
theorem off_of_away (hI : ContextInv K s) {p : P} {ctx : KernelContext} {sp : Word}
    {as : List Saved} (h : s.saved p = .away ctx sp :: as) : s.Off p := by
  rintro k rfl
  have := hI.running k _ (h ▸ List.mem_cons_self)
  cases this

/-- A store on the free part of a stack meets nothing that is protected. -/
theorem free_store (hI : ContextInv K s) {p : P} {lo hi : ℕ} (hk : s.kstack p = some (lo, hi))
    {a : Word} {ws : List Word} (hlo : lo ≤ a.toNat)
    (hhi : a.toNat + 8 * ws.length ≤ limit hi (s.saved p)) {b : Word} (hb : s.Protected K b) :
    store s.mem a ws b = s.mem b := by
  have hlim := (hI.nested hk).limit_le
  have hbound := hI.layout.bound hk
  refine store_outside _ (by omega) ?_
  rcases hb with ⟨q, c, hc, hb⟩ | ⟨q, hq, rfl⟩
  · by_cases hpq : q = p
    · subst hpq
      have := (hI.nested hk).mem hc
      exact Or.inr (by have := hb.1; omega)
    · obtain ⟨lo', hi', hk'⟩ := hI.exists_of_saved (List.ne_nil_of_mem hc)
      have hc' := (hI.nested hk').mem hc
      have := hb.1
      have := hb.2
      rcases hI.layout.apart hpq hk' hk with h | h
      · exact Or.inl (by omega)
      · exact Or.inr (by omega)
  · have := hI.layout.outside hq hk
    omega

/-- A structure that keeps its place survives a change of the memory that leaves what is
protected alone. -/
theorem holds_of_eq (hI : ContextInv K s) {m : Mem} (hm : ∀ b, s.Protected K b → m b = s.mem b)
    {p : P} {a : Saved} (ha : a ∈ s.saved p) : a.Holds m := by
  obtain ⟨lo, hi, hk⟩ := hI.exists_of_saved (List.ne_nil_of_mem ha)
  exact (hI.holds a ha).congr ((hI.nested hk).mem ha).1 fun b hb => hm b (Or.inl ⟨p, a, ha, hb⟩)

/-- The field `kcontext` of the new process is no place that is protected. -/
theorem initProc_store (hI : ContextInv K s) {p : P} {ks : ℕ}
    (hok : s.CodeOk K (.initProc p ks)) {b : Word} (hb : s.Protected K b) :
    store s.mem (K.kcontext p) [BitVec.ofNat 64 (ks + kcontextOffset)] b = s.mem b := by
  obtain ⟨-, hal, -, -, hothers, -⟩ := hok
  have hne : b ≠ K.kcontext p := by
    rintro rfl
    rcases hb with ⟨q, a, ha, hb⟩ | ⟨q, hq, he⟩
    · obtain ⟨lo, hi, hk⟩ := hI.exists_of_saved (List.ne_nil_of_mem ha)
      have hn := (hI.nested hk).mem ha
      have hout := (hothers q lo hi hk).2.2.1
      have := hb.1
      have := hb.2
      omega
    · obtain ⟨b, hb⟩ := Option.isSome_iff_exists.mp hq
      exact (hothers q b.1 b.2 hb).2.1 he.symm
  exact store_single _ hne hal

/-- The field `kcontext` of the new process. -/
theorem initProc_kcontext (m : Mem) (p : P) (ks : ℕ) :
    store m (K.kcontext p) [BitVec.ofNat 64 (ks + kcontextOffset)] (K.kcontext p) =
      BitVec.ofNat 64 (ks + kcontextOffset) := by
  have := store_dword m (K.kcontext p) [BitVec.ofNat 64 (ks + kcontextOffset)]
    (i := 0) (by simp) (by decide)
  rwa [dword_zero] at this

/-! ### Stores that meet one field `kcontext` -/

section Keeps

variable {p : P} {m : Mem}

/-- No structure that was saved lies on a field `kcontext`. -/
theorem eq_of_covers (hI : ContextInv K s) (hp : (s.kstack p).isSome)
    (hm : ∀ b, s.Protected K b → b ≠ K.kcontext p → m b = s.mem b) {q : P} {a : Saved}
    (ha : a ∈ s.saved q) {b : Word} (hb : a.Covers b) : m b = s.mem b := by
  refine hm b (Or.inl ⟨q, a, ha, hb⟩) ?_
  rintro rfl
  obtain ⟨lo, hi, hk⟩ := hI.exists_of_saved (List.ne_nil_of_mem ha)
  have hn := (hI.nested hk).mem ha
  have hout := hI.layout.outside hp hk
  have := hb.1
  have := hb.2
  omega

theorem holds_of_ne (hI : ContextInv K s) (hp : (s.kstack p).isSome)
    (hm : ∀ b, s.Protected K b → b ≠ K.kcontext p → m b = s.mem b) {q : P} {a : Saved}
    (ha : a ∈ s.saved q) : a.Holds m := by
  obtain ⟨lo, hi, hk⟩ := hI.exists_of_saved (List.ne_nil_of_mem ha)
  exact (hI.holds a ha).congr ((hI.nested hk).mem ha).1 fun b hb => hI.eq_of_covers hp hm ha hb

/-- The fields `kcontext` are apart. -/
theorem kcontext_of_ne (hI : ContextInv K s) (hp : (s.kstack p).isSome)
    (hm : ∀ b, s.Protected K b → b ≠ K.kcontext p → m b = s.mem b) {q : P} (hqp : q ≠ p)
    (hq : (s.kstack q).isSome) : m (K.kcontext q) = s.mem (K.kcontext q) :=
  hm _ (Or.inr ⟨q, hq, rfl⟩) (hI.layout.inj hqp hq hp)

end Keeps

/-! ## The steps -/

variable [DecidableEq C]

/-- Compiled code. -/
theorem code (hI : ContextInv K s) {k : C} {r : Regs} {m : Mem}
    (hr : s.Room (s.thisproc k) r.sp 0) (hm : ∀ b, s.Protected K b → m b = s.mem b) :
    ContextInv K { s.setCore k r with mem := m } where
  layout := hI.layout.of_kstack rfl
  thisproc := hI.thisproc
  dead := hI.dead
  nested := hI.nested
  tail := hI.tail
  running := hI.running
  room k' := by
    by_cases hk : k' = k
    · subst hk
      simpa [setCore, Room] using hr
    · simpa [setCore, Room, Function.update_of_ne hk] using hI.room k'
  holds _ ha := hI.holds_of_eq hm ha
  away {p ctx sp as} h := by
    obtain ⟨lo, hi, hk⟩ := hI.exists_of_saved (h ▸ List.cons_ne_nil _ _)
    rw [← hI.away h]
    exact hm _ (Or.inr ⟨p, by simp [hk], rfl⟩)
  fresh {p lo hi} hk hoff h := by
    obtain ⟨h1, h2⟩ := hI.fresh hk hoff h
    refine ⟨?_, h2⟩
    rw [← h1]
    exact hm _ (Or.inr ⟨p, by simp [show s.kstack p = _ from hk], rfl⟩)

/-- A process that was on no core is on one. -/
theorem thisproc_update (hI : ContextInv K s) {q : P} (hoff : s.Off q) (k : C) :
    Function.Injective (Function.update s.thisproc k q) := by
  intro k₁ k₂ h
  by_cases h1 : k₁ = k
  · by_cases h2 : k₂ = k
    · rw [h1, h2]
    · rw [h1, Function.update_self, Function.update_of_ne h2] at h
      exact absurd h.symm (hoff k₂)
  · by_cases h2 : k₂ = k
    · rw [h2, Function.update_self, Function.update_of_ne h1] at h
      exact absurd h (hoff k₁)
    · rw [Function.update_of_ne h1, Function.update_of_ne h2] at h
      exact hI.thisproc h

variable [DecidableEq P]

/-- A trap frame more. -/
theorem push (hI : ContextInv K s) {k : C} {r : Regs} {m : Mem} {a : Saved} {lo hi : ℕ}
    (hk : s.kstack (s.thisproc k) = some (lo, hi)) (ha : a.isTrap)
    (hn : Nested lo hi (a :: s.saved (s.thisproc k))) (hlo : lo ≤ r.sp.toNat)
    (hhi : r.sp.toNat ≤ a.base.toNat) (hal : Aligned r.sp)
    (hm : ∀ b, s.Protected K b → m b = s.mem b) (hh : a.Holds m) :
    ContextInv K { (s.setCore k r).setSaved (s.thisproc k) (a :: s.saved (s.thisproc k)) with
      mem := m } where
  layout := hI.layout.of_kstack rfl
  thisproc := hI.thisproc
  dead {p} h := by
    have hp : p ≠ s.thisproc k := by
      rintro rfl
      cases hk.symm.trans h
    simpa [setSaved, setCore, Function.update_of_ne hp] using hI.dead h
  nested {p lo' hi'} h := by
    by_cases hp : p = s.thisproc k
    · subst hp
      cases hk.symm.trans h
      simpa [setSaved] using hn
    · simpa [setSaved, setCore, Function.update_of_ne hp] using hI.nested h
  tail {p b bs} h := by
    by_cases hp : p = s.thisproc k
    · subst hp
      simp only [setSaved, Function.update_self, List.cons.injEq] at h
      exact h.2 ▸ hI.running k
    · exact hI.tail (by simpa [setSaved, setCore, Function.update_of_ne hp] using h)
  running k' b hb := by
    by_cases hp : s.thisproc k' = s.thisproc k
    · simp only [setSaved, setCore, hp, Function.update_self, List.mem_cons] at hb
      rcases hb with rfl | hb
      · exact ha
      · exact hI.running k _ hb
    · exact hI.running k' b (by simpa [setSaved, setCore, Function.update_of_ne hp] using hb)
  room k' := by
    by_cases hkk : k' = k
    · subst hkk
      refine ⟨lo, hi, hk, ?_⟩
      simp only [setSaved, setCore, Function.update_self, limit]
      exact ⟨by omega, hhi, hal⟩
    · have hp : s.thisproc k' ≠ s.thisproc k := fun h => hkk (hI.thisproc h)
      simpa [setSaved, setCore, Room, Function.update_of_ne hp, Function.update_of_ne hkk]
        using hI.room k'
  holds {p} b hb := by
    by_cases hp : p = s.thisproc k
    · subst hp
      simp only [setSaved, Function.update_self, List.mem_cons] at hb
      rcases hb with rfl | hb
      · exact hh
      · exact hI.holds_of_eq hm hb
    · exact hI.holds_of_eq hm (by simpa [setSaved, setCore, Function.update_of_ne hp] using hb)
  away {p ctx sp as} h := by
    have hp : p ≠ s.thisproc k := by
      rintro rfl
      simp only [setSaved, Function.update_self, List.cons.injEq] at h
      obtain ⟨rfl, -⟩ := h
      cases ha
    have h' : s.saved p = .away ctx sp :: as := by
      simpa [setSaved, setCore, Function.update_of_ne hp] using h
    obtain ⟨lo', hi', hk'⟩ := hI.exists_of_saved (h' ▸ List.cons_ne_nil _ _)
    rw [← hI.away h']
    exact hm _ (Or.inr ⟨p, by simp [hk'], rfl⟩)
  fresh {p lo' hi'} hk' hoff h := by
    have hp : p ≠ s.thisproc k := fun he => hoff k he.symm
    obtain ⟨h1, h2⟩ := hI.fresh hk' hoff
      (by simpa [setSaved, setCore, Function.update_of_ne hp] using h)
    refine ⟨?_, h2⟩
    rw [← h1]
    exact hm _ (Or.inr ⟨p, by simp [show s.kstack p = _ from hk'], rfl⟩)

/-- A trap frame less. -/
theorem pop (hI : ContextInv K s) {k : C} {r : Regs} {a : Saved} {as : List Saved} {lo hi : ℕ}
    (hk : s.kstack (s.thisproc k) = some (lo, hi)) (hs : s.saved (s.thisproc k) = a :: as)
    (hlo : lo ≤ r.sp.toNat) (hhi : r.sp.toNat ≤ limit hi as) (hal : Aligned r.sp) :
    ContextInv K ((s.setCore k r).setSaved (s.thisproc k) as) where
  layout := hI.layout.of_kstack rfl
  thisproc := hI.thisproc
  dead {p} h := by
    have hp : p ≠ s.thisproc k := by
      rintro rfl
      cases hk.symm.trans h
    simpa [setSaved, setCore, Function.update_of_ne hp] using hI.dead h
  nested {p lo' hi'} h := by
    by_cases hp : p = s.thisproc k
    · subst hp
      have := hI.nested h
      rw [hs] at this
      simpa [setSaved] using this.2.2.2
    · simpa [setSaved, setCore, Function.update_of_ne hp] using hI.nested h
  tail {p b bs} h := by
    by_cases hp : p = s.thisproc k
    · subst hp
      simp only [setSaved, Function.update_self] at h
      subst h
      exact fun c hc => hI.tail hs c (List.mem_cons_of_mem _ hc)
    · exact hI.tail (by simpa [setSaved, setCore, Function.update_of_ne hp] using h)
  running k' b hb := by
    by_cases hp : s.thisproc k' = s.thisproc k
    · simp only [setSaved, setCore, hp, Function.update_self] at hb
      exact hI.tail hs b hb
    · exact hI.running k' b (by simpa [setSaved, setCore, Function.update_of_ne hp] using hb)
  room k' := by
    by_cases hkk : k' = k
    · subst hkk
      refine ⟨lo, hi, hk, ?_⟩
      simp only [setSaved, setCore, Function.update_self]
      exact ⟨by omega, hhi, hal⟩
    · have hp : s.thisproc k' ≠ s.thisproc k := fun h => hkk (hI.thisproc h)
      simpa [setSaved, setCore, Room, Function.update_of_ne hp, Function.update_of_ne hkk]
        using hI.room k'
  holds {p} b hb := by
    by_cases hp : p = s.thisproc k
    · subst hp
      simp only [setSaved, Function.update_self] at hb
      exact hI.holds b (hs ▸ List.mem_cons_of_mem _ hb)
    · exact hI.holds b (by simpa [setSaved, setCore, Function.update_of_ne hp] using hb)
  away {p ctx sp bs} h := by
    have hp : p ≠ s.thisproc k := by
      rintro rfl
      simp only [setSaved, Function.update_self] at h
      have := hI.tail hs _ (h ▸ List.mem_cons_self)
      cases this
    exact hI.away (by simpa [setSaved, setCore, Function.update_of_ne hp] using h)
  fresh {p lo' hi'} hk' hoff h := by
    have hp : p ≠ s.thisproc k := fun he => hoff k he.symm
    exact hI.fresh hk' hoff (by simpa [setSaved, setCore, Function.update_of_ne hp] using h)

/-- `swtch` from the process of `k` to `q`. -/
theorem swap (hI : ContextInv K s) {k : C} {q : P} {r : Regs} {ctx : KernelContext}
    {sp : Word} {as : List Saved} {lo hi : ℕ} (hq : s.saved q = .away ctx sp :: as)
    (hk : s.kstack (s.thisproc k) = some (lo, hi))
    (hlo : lo + 8 * KernelContext.size ≤ r.sp.toNat)
    (hhi : r.sp.toNat ≤ limit hi (s.saved (s.thisproc k))) (hal : Aligned r.sp)
    (hh : KernelContext.load s'.mem (down r.sp KernelContext.size) = .of r)
    (hcell : s'.mem (K.kcontext (s.thisproc k)) = down r.sp KernelContext.size)
    (hm : ∀ b, s.Protected K b → b ≠ K.kcontext (s.thisproc k) → s'.mem b = s.mem b)
    (hks : s'.kstack = s.kstack) (hthis : s'.thisproc = Function.update s.thisproc k q)
    (hsp : (s'.core k).sp = sp) (hcore : ∀ k₁, k₁ ≠ k → s'.core k₁ = s.core k₁)
    (hsv : ∀ p, s'.saved p = if p = q then as else if p = s.thisproc k then
      .away (.of r) r.sp :: s.saved (s.thisproc k) else s.saved p) : ContextInv K s' := by
  have hoff := hI.off_of_away hq
  obtain ⟨lo', hi', hk'⟩ := hI.exists_of_saved (hq ▸ List.cons_ne_nil _ _)
  have hnq := hI.nested hk'
  rw [hq] at hnq
  have hthis_k : s'.thisproc k = q := by rw [hthis, Function.update_self]
  have hthis_ne : ∀ k₁, k₁ ≠ k → s'.thisproc k₁ = s.thisproc k₁ := fun k₁ h1 => by
    rw [hthis, Function.update_of_ne h1]
  have hcell' : (s.kstack (s.thisproc k)).isSome := by simp [hk]
  constructor
  case layout => exact hI.layout.of_kstack hks
  case thisproc =>
    rw [hthis]
    exact hI.thisproc_update hoff k
  case dead =>
    intro p h
    rw [hks] at h
    have h1 : p ≠ q := by
      rintro rfl
      cases hk'.symm.trans h
    have h2 : p ≠ s.thisproc k := by
      rintro rfl
      cases hk.symm.trans h
    rw [hsv, if_neg h1, if_neg h2]
    exact hI.dead h
  case nested =>
    intro p lo₁ hi₁ h
    rw [hks] at h
    rw [hsv]
    split
    · rename_i h1
      subst h1
      cases hk'.symm.trans h
      exact hnq.2.2.2
    · split
      · rename_i h2
        subst h2
        cases hk.symm.trans h
        exact ⟨hlo, hhi, hal, hI.nested h⟩
      · exact hI.nested h
  case tail =>
    intro p b bs h
    rw [hsv] at h
    split at h
    · subst h
      exact fun c hc => hI.tail hq c (List.mem_cons_of_mem _ hc)
    · split at h
      · simp only [List.cons.injEq] at h
        exact h.2 ▸ hI.running k
      · exact hI.tail h
  case running =>
    intro k₁ b hb
    by_cases h1 : k₁ = k
    · rw [h1, hthis_k, hsv, if_pos rfl] at hb
      exact hI.tail hq b hb
    · have h2 : s.thisproc k₁ ≠ s.thisproc k := fun h => h1 (hI.thisproc h)
      rw [hthis_ne k₁ h1, hsv, if_neg (hoff k₁), if_neg h2] at hb
      exact hI.running k₁ b hb
  case room =>
    intro k₁
    by_cases h1 : k₁ = k
    · subst h1
      have hb := hnq.base
      have h0 : sp.toNat = (Saved.away ctx sp).sp.toNat := rfl
      refine ⟨lo', hi', by rw [hthis_k, hks, hk'], ?_⟩
      rw [hthis_k, hsp, hsv, if_pos rfl]
      exact ⟨by omega, hnq.2.1, hnq.2.2.1⟩
    · have h2 : s.thisproc k₁ ≠ s.thisproc k := fun h => h1 (hI.thisproc h)
      obtain ⟨l, h, hkl, hr⟩ := hI.room k₁
      refine ⟨l, h, by rw [hthis_ne k₁ h1, hks, hkl], ?_⟩
      rw [hthis_ne k₁ h1, hcore k₁ h1, hsv, if_neg (hoff k₁), if_neg h2]
      exact hr
  case holds =>
    intro p b hb
    rw [hsv] at hb
    split at hb
    · exact hI.holds_of_ne hcell' hm (hq ▸ List.mem_cons_of_mem _ hb)
    · split at hb
      · rcases List.mem_cons.mp hb with rfl | hb
        · exact hh
        · exact hI.holds_of_ne hcell' hm hb
      · exact hI.holds_of_ne hcell' hm hb
  case away =>
    intro p c sp₁ bs h
    rw [hsv] at h
    split at h
    · have := hI.tail hq (.away c sp₁) (h ▸ List.mem_cons_self)
      cases this
    · split at h
      · rename_i h2
        simp only [List.cons.injEq, Saved.away.injEq] at h
        rw [h2, hcell, h.1.2]
      · rename_i h2
        obtain ⟨l, h₁, hkl⟩ := hI.exists_of_saved (h ▸ List.cons_ne_nil _ _)
        rw [hI.kcontext_of_ne hcell' hm h2 (by simp [hkl]), hI.away h]
  case fresh =>
    intro p l h₁ hkl hoff' h
    rw [hks] at hkl
    have h1 : p ≠ q := by
      rintro rfl
      exact hoff' k hthis_k
    rw [hsv, if_neg h1] at h
    split at h
    · cases h
    · rename_i h2
      rw [hI.kcontext_of_ne hcell' hm h2 (by simp [hkl])]
      refine hI.fresh hkl (fun k₁ he => ?_) h
      by_cases hkk : k₁ = k
      · exact h2 (he ▸ hkk ▸ rfl)
      · exact hoff' k₁ ((hthis_ne k₁ hkk).trans he)

/-! ### A process that does not exist yet -/

section InitProc

variable {p : P} {ks : ℕ}

theorem initProc_kstack (h : s.step K (.initProc p ks) = some s') (q : P) :
    s'.kstack q = if q = p then some (ks, ks + pageSize - 16) else s.kstack q := by
  simp only [step, Option.some.injEq] at h
  subst h
  by_cases hq : q = p <;> simp [hq]

theorem initProc_saved (h : s.step K (.initProc p ks) = some s') (hdead : s.saved p = []) :
    s'.saved = s.saved := by
  simp only [step, Option.some.injEq] at h
  subst h
  funext q
  by_cases hq : q = p
  · simp [setSaved, hq, hdead]
  · simp [setSaved, hq]

theorem initProc_frame (h : s.step K (.initProc p ks) = some s') :
    s'.mem = store s.mem (K.kcontext p) [BitVec.ofNat 64 (ks + kcontextOffset)] ∧
      s'.thisproc = s.thisproc ∧ s'.core = s.core := by
  simp only [step, Option.some.injEq] at h
  subst h
  exact ⟨rfl, rfl, rfl⟩

/-- A field `kcontext` of a process that does not exist yet is written. -/
theorem initProc (hI : ContextInv K s) (hok : s.CodeOk K (.initProc p ks))
    (h : s.step K (.initProc p ks) = some s') : ContextInv K s' := by
  have hnone : s.kstack p = none := hok.1
  have hdead : s.saved p = [] := hI.dead hnone
  have hks' := initProc_kstack h
  have hsv := initProc_saved h hdead
  obtain ⟨hmem, hthis, hcore⟩ := initProc_frame h
  have hm : ∀ b, s.Protected K b → s'.mem b = s.mem b := by
    intro b hb
    rw [hmem]
    exact hI.initProc_store hok hb
  have hlive : ∀ k, s.thisproc k ≠ p := by
    intro k hk
    obtain ⟨lo, hi, h⟩ := hI.exists_kstack k
    cases hnone.symm.trans (hk ▸ h)
  constructor
  case layout => exact hI.layout.initProc hok hks'
  case thisproc => exact hthis ▸ hI.thisproc
  case dead =>
    intro q h
    rw [hks'] at h
    split at h
    · cases h
    · exact hsv ▸ hI.dead h
  case nested =>
    intro q lo hi h
    rw [hks'] at h
    rw [hsv]
    split at h
    · rename_i he
      rw [he, hdead]
      trivial
    · exact hI.nested h
  case tail => exact fun {q a as} h => hI.tail (hsv ▸ h)
  case running =>
    intro k
    rw [hsv, hthis]
    exact hI.running k
  case room =>
    intro k
    obtain ⟨lo, hi, hk, hr⟩ := hI.room k
    refine ⟨lo, hi, ?_, ?_⟩
    · rw [hks', hthis, if_neg (hlive k), hk]
    · rw [hsv, hthis, hcore]
      exact hr
  case holds =>
    intro q a ha
    rw [hsv] at ha
    exact hI.holds_of_eq hm ha
  case away =>
    intro q ctx sp as h
    rw [hsv] at h
    obtain ⟨lo, hi, hk⟩ := hI.exists_of_saved (h ▸ List.cons_ne_nil _ _)
    rw [← hI.away h]
    exact hm _ (Or.inr ⟨q, by simp [hk], rfl⟩)
  case fresh =>
    intro q lo hi h hoff h'
    rw [hks'] at h
    rw [hsv] at h'
    split at h
    · rename_i he
      cases h
      subst he
      have hal : ks % pageSize = 0 := hok.2.2.1
      have hp : pageSize = 4096 := rfl
      rw [hp] at hal
      exact ⟨by rw [hmem, initProc_kcontext], rfl, by omega⟩
    · obtain ⟨h1, h2⟩ := hI.fresh h (fun k => hthis ▸ hoff k) h'
      refine ⟨?_, h2⟩
      rw [← h1]
      exact hm _ (Or.inr ⟨q, by simp [h], rfl⟩)

end InitProc

/-- The addresses of the two structures of a new process. -/
theorem fresh_addrs {a : Word} {lo hi : ℕ} (hb : hi < 2 ^ 64) (hhi : hi = lo + pageSize - 16)
    (hlo : lo % 8 = 0) (ha : a = BitVec.ofNat 64 (lo + kcontextOffset)) :
    a.toNat = lo + kcontextOffset ∧ (dword a KernelContext.size).toNat = lo + ucontextOffset ∧
      (dword (dword a KernelContext.size) UserContext.size).toNat = hi ∧
      Aligned a ∧ Aligned (dword a KernelContext.size) ∧
      Aligned (dword (dword a KernelContext.size) UserContext.size) := by
  have hp : pageSize = 4096 := rfl
  have h1 : kcontextOffset = 3792 := rfl
  have h2 : ucontextOffset = 3904 := rfl
  have ha' : a.toNat = lo + 3792 := by
    rw [ha, BitVec.toNat_ofNat, h1, Nat.mod_eq_of_lt (by omega)]
  have hs : (dword a KernelContext.size).toNat = lo + 3904 := by
    rw [toNat_dword (by simp only [KernelContext.size]; omega), ha']
    simp only [KernelContext.size]
  have hs' : (dword (dword a KernelContext.size) UserContext.size).toNat = hi := by
    rw [toNat_dword (by simp only [UserContext.size]; omega), hs]
    simp only [UserContext.size]
    omega
  unfold Aligned
  rw [ha', hs, hs']
  omega

/-- The structure that a new process leaves through `trap_return`. -/
theorem first_frame {m : Mem} {x : Fin 11 → Word} {b : Word} {lo hi : ℕ}
    (hhi : (dword b UserContext.size).toNat = hi) (hpage : hi = lo + pageSize - 16)
    (hal : Aligned (dword b UserContext.size)) {as : List Saved}
    (has : as = [.trap (.load m b) x (dword b UserContext.size) 0 none]) :
    Nested lo hi as ∧ b.toNat ≤ limit hi as ∧ ∀ c ∈ as, c.isTrap ∧ c.Holds m := by
  have hp : pageSize = 4096 := rfl
  subst has
  refine ⟨⟨?_, ?_, hal, trivial⟩, ?_, ?_⟩
  · change lo + 8 * 22 ≤ (dword b UserContext.size).toNat
    omega
  · change (dword b UserContext.size).toNat ≤ hi
    omega
  · simp only [limit, Saved.base, Saved.sp, Saved.size, down_dword]
    exact Nat.le_refl _
  · intro c hc
    rw [List.mem_singleton] at hc
    subst hc
    refine ⟨rfl, ?_⟩
    simp only [Saved.Holds, Saved.base, Saved.sp, Saved.size, down_dword, Saved.withRet]

/-- A new process gets its first contexts. -/
theorem startProc (hI : ContextInv K s) {p : P} {entry arg : Word}
    (hok : s.CodeOk K (.startProc p entry arg))
    (h : s.step K (.startProc p entry arg) = some s') : ContextInv K s' := by
  obtain ⟨hsome, hoff, hnil⟩ := hok
  obtain ⟨⟨lo, hi⟩, hk⟩ := Option.isSome_iff_exists.mp hsome
  obtain ⟨hcell, hhi, hlo⟩ := hI.fresh hk hoff hnil
  obtain ⟨ha, hs, hs', hal, hal', hal''⟩ := fresh_addrs (hI.layout.bound hk) hhi hlo hcell
  have hp : pageSize = 4096 := rfl
  have h1 : kcontextOffset = 3792 := rfl
  have h2 : ucontextOffset = 3904 := rfl
  have hm : ∀ b, s.Protected K b →
      store s.mem (s.mem (K.kcontext p)) [K.procEntry, entry, arg] b = s.mem b := fun b hb =>
    hI.free_store hk (by omega) (by simp only [hnil, limit, List.length_cons, List.length_nil]; omega)
      hb
  simp only [step, Option.some.injEq] at h
  obtain ⟨a, haeq⟩ : ∃ a, s.mem (K.kcontext p) = a := ⟨_, rfl⟩
  obtain ⟨m, hmeq⟩ : ∃ m, store s.mem a [K.procEntry, entry, arg] = m := ⟨_, rfl⟩
  rw [haeq] at ha hs hs' hal hal' hal'' hm h
  rw [hmeq] at hm h
  obtain ⟨as, has⟩ : ∃ as, as = (if entry = K.trapReturn then
    [Saved.trap (.load m (dword a KernelContext.size)) (KernelContext.load m a).x
      (dword (dword a KernelContext.size) UserContext.size) 0 none] else []) := ⟨_, rfl⟩
  rw [← has] at h
  have hrest : Nested lo hi as ∧ (dword a KernelContext.size).toNat ≤ limit hi as ∧
      ∀ b ∈ as, b.isTrap ∧ b.Holds m := by
    rw [has]
    split
    · exact first_frame hs' hhi hal'' rfl
    · exact ⟨trivial, by simp only [limit]; omega, by simp⟩
  obtain ⟨hmem, hthis, hcore, hks⟩ : s'.mem = m ∧ s'.thisproc = s.thisproc ∧ s'.core = s.core ∧
      s'.kstack = s.kstack := by
    subst h
    exact ⟨rfl, rfl, rfl, rfl⟩
  have hsv : ∀ q, s'.saved q = if q = p then
      .away (KernelContext.load m a) (dword a KernelContext.size) :: as else s.saved q := by
    intro q
    subst h
    by_cases hq : q = p <;> simp [setSaved, hq]
  clear h
  constructor
  case layout => exact hI.layout.of_kstack hks
  case thisproc => exact hthis ▸ hI.thisproc
  case dead =>
    intro q h
    rw [hks] at h
    have hq : q ≠ p := by
      rintro rfl
      cases hk.symm.trans h
    rw [hsv, if_neg hq]
    exact hI.dead h
  case nested =>
    intro q l h₁ h
    rw [hks] at h
    rw [hsv]
    split
    · rename_i hq
      subst hq
      cases hk.symm.trans h
      refine ⟨?_, hrest.2.1, hal', hrest.1⟩
      simp only [Saved.sp, Saved.size, KernelContext.size] at hs ⊢
      omega
    · exact hI.nested h
  case tail =>
    intro q b bs h
    rw [hsv] at h
    split at h
    · simp only [List.cons.injEq] at h
      exact h.2 ▸ fun c hc => (hrest.2.2 c hc).1
    · exact hI.tail h
  case running =>
    intro k b hb
    rw [hthis, hsv, if_neg (hoff k)] at hb
    exact hI.running k b hb
  case room =>
    intro k
    obtain ⟨l, h₁, hkl, hr⟩ := hI.room k
    refine ⟨l, h₁, by rw [hks, hthis, hkl], ?_⟩
    rw [hsv, hthis, hcore, if_neg (hoff k)]
    exact hr
  case holds =>
    intro q b hb
    rw [hsv] at hb
    rw [hmem]
    split at hb
    · rcases List.mem_cons.mp hb with rfl | hb
      · simp only [Saved.Holds, Saved.base, Saved.sp, Saved.size, down_dword]
      · exact (hrest.2.2 b hb).2
    · exact hI.holds_of_eq hm hb
  case away =>
    intro q ctx sp bs h
    rw [hsv] at h
    rw [hmem]
    split at h
    · rename_i he
      simp only [List.cons.injEq, Saved.away.injEq] at h
      rw [hm _ (Or.inr ⟨q, he ▸ hsome, rfl⟩), he, haeq, ← h.1.2, down_dword]
    · obtain ⟨l, h₁, hkl⟩ := hI.exists_of_saved (h ▸ List.cons_ne_nil _ _)
      rw [hm _ (Or.inr ⟨q, by simp [hkl], rfl⟩), hI.away h]
  case fresh =>
    intro q l h₁ h hoff' h'
    rw [hks] at h
    rw [hsv] at h'
    rw [hmem]
    split at h'
    · cases h'
    · rw [hm _ (Or.inr ⟨q, by simp [h], rfl⟩)]
      exact hI.fresh h (fun k => hthis ▸ hoff' k) h'

/-- A process is gone. -/
theorem freeStack (hI : ContextInv K s) {p : P} (hoff : s.Off p)
    (h : s.step K (.freeStack p) = some s') : ContextInv K s' := by
  simp only [step, Option.some.injEq] at h
  have hks : ∀ q b, s'.kstack q = some b → q ≠ p ∧ s.kstack q = some b := by
    intro q b hq
    subst h
    by_cases hqp : q = p
    · simp [hqp] at hq
    · exact ⟨hqp, by simpa [hqp] using hq⟩
  have hsv : ∀ q, q ≠ p → s'.saved q = s.saved q := by
    intro q hq
    subst h
    simp [setSaved, hq]
  have hnil : s'.saved p = [] := by
    subst h
    simp [setSaved]
  have hsome : ∀ {q}, (s'.kstack q).isSome → (s.kstack q).isSome := by
    intro q hq
    obtain ⟨b, hb⟩ := Option.isSome_iff_exists.mp hq
    simp [(hks q b hb).2]
  have hcons : ∀ {q a as}, s'.saved q = a :: as → q ≠ p ∧ s.saved q = a :: as := by
    intro q a as hq
    have hqp : q ≠ p := by
      rintro rfl
      rw [hnil] at hq
      cases hq
    exact ⟨hqp, (hsv q hqp).symm.trans hq⟩
  have hmem : s'.mem = s.mem := by subst h; rfl
  have hthis : s'.thisproc = s.thisproc := by subst h; rfl
  have hcore : s'.core = s.core := by subst h; rfl
  have hkeep : ∀ q, q ≠ p → s'.kstack q = s.kstack q := by
    intro q hq
    subst h
    simp [hq]
  constructor
  case layout =>
    constructor
    · exact fun h => hI.layout.bound (hks _ _ h).2
    · exact fun hq h h' => hI.layout.apart hq (hks _ _ h).2 (hks _ _ h').2
    · exact fun hq h h' => hI.layout.inj hq (hsome h) (hsome h')
    · exact fun h => hI.layout.aligned (hsome h)
    · exact fun h h' => hI.layout.outside (hsome h) (hks _ _ h').2
  case thisproc => exact hthis ▸ hI.thisproc
  case dead =>
    intro q hq
    by_cases hqp : q = p
    · exact hqp ▸ hnil
    · rw [hsv q hqp]
      exact hI.dead (hkeep q hqp ▸ hq)
  case nested =>
    intro q lo hi hq
    rw [hsv q (hks _ _ hq).1]
    exact hI.nested (hks _ _ hq).2
  case tail => exact fun hq => hI.tail (hcons hq).2
  case running =>
    intro k
    rw [hthis, hsv _ (hoff k)]
    exact hI.running k
  case room =>
    intro k
    obtain ⟨lo, hi, hk, hr⟩ := hI.room k
    rw [hthis, hcore]
    refine ⟨lo, hi, ?_, ?_⟩
    · rw [hkeep _ (hoff k), hk]
    · rw [hsv _ (hoff k)]
      exact hr
  case holds =>
    intro q a ha
    rw [hmem]
    refine hI.holds (p := q) a ?_
    rwa [hsv q] at ha
    rintro rfl
    rw [hnil] at ha
    cases ha
  case away =>
    intro q ctx sp as hq
    rw [hmem]
    exact hI.away (hcons hq).2
  case fresh =>
    intro q lo hi hq hoff' hq'
    rw [hmem]
    obtain ⟨hqp, hk⟩ := hks _ _ hq
    exact hI.fresh hk (fun k => hthis ▸ hoff' k) ((hsv q hqp).symm.trans hq')

omit [DecidableEq C] [DecidableEq P] in
/-- The stores of compiled code. -/
theorem stores_keep {m : Mem} {stores : List (Word × Word)}
    (h : ∀ w ∈ stores, Aligned w.1 ∧ ¬ s.Protected K w.1) {b : Word} (hb : s.Protected K b) :
    stores.foldl (fun m w => store m w.1 [w.2]) m b = m b := by
  induction stores generalizing m with
  | nil => rfl
  | cons w ws ih =>
      rw [List.foldl_cons, ih fun v hv => h v (List.mem_cons_of_mem _ hv)]
      have hw := h w List.mem_cons_self
      refine store_single m ?_ hw.1
      rintro rfl
      exact hw.2 hb

/-- `trap_entry` runs to its end. -/
theorem trap_total (hI : ContextInv K s) {k : C} {pc pstate esr : Word}
    (hok : s.CodeOk K (.trap k pc pstate esr)) :
    ∃ s', s.step K (.trap k pc pstate esr) = some s' ∧ ContextInv K s' ∧
      s'.thisproc = s.thisproc ∧
      (s'.core k).sp = down (s.core k).sp UserContext.size ∧
      calleeSaved (s'.core k) = calleeSaved (s.core k) ∧
      ∃ u, s'.saved (s.thisproc k) = .trap u (calleeSaved (s.core k)) (s.core k).sp esr none ::
        s.saved (s.thisproc k) := by
  obtain ⟨lo, hi, hk, hlo, hhi, hal⟩ := hok
  obtain ⟨r, hr⟩ : ∃ r, r = { s.core k with
    sys := Function.update (Function.update (s.core k).sys .elrEl1 pc) .spsrEl1 pstate } := ⟨_, rfl⟩
  have hsp : r.sp = (s.core k).sp := by rw [hr]
  obtain ⟨r', m', he, ht⟩ := execs_trapEntry K.trapReturn r s.mem (by rwa [hsp])
  have hbase : (down r.sp UserContext.size).toNat = r.sp.toNat - 8 * UserContext.size :=
    toNat_down (by rw [hsp]; omega)
  have hn : Nested lo hi (.trap (.of r) (calleeSaved r) r.sp esr none :: s.saved (s.thisproc k)) :=
    ⟨by simpa [Saved.sp, Saved.size, hsp] using hlo, by simpa [Saved.sp, hsp] using hhi,
      by simpa [Saved.sp, hsp] using hal, hI.nested hk⟩
  have hx : calleeSaved r = calleeSaved (s.core k) := by rw [hr]; rfl
  refine ⟨_, ?_, hI.push (r := r') (m := m') hk rfl hn ?_ ?_ ?_ ?_ ?_, rfl, ?_, ?_, .of r, ?_⟩
  · simp only [step, ← hr, he, Option.map_some, hsp]
  · rw [ht.sp, hbase, hsp]
    omega
  · rw [ht.sp]
    exact Nat.le_refl _
  · rw [ht.sp]
    exact (show Aligned r.sp by rwa [hsp]).down _
  · intro b hb
    rw [ht.mem]
    refine hI.free_store hk (by rw [hbase, hsp]; omega) ?_ hb
    rw [hbase, UserContext.length_words, hsp]
    simp only [UserContext.size] at hlo ⊢
    omega
  · rw [ht.mem]
    exact UserContext.load_store _ _ _
  · simpa [setSaved, setCore, hsp] using ht.sp
  · rw [← hx]
    funext i
    simp only [setSaved, setCore, Function.update_self]
    have hq := notMem_of_calleeSaved _ (List.get_mem calleeSavedRegs i)
    refine ht.x _ ?_ ?_ hq.2
    · exact fun h0 => hq.1 (h0 ▸ by decide)
    · exact fun h1 => hq.1 (h1 ▸ by decide)
  · rw [← hx, ← hsp]
    exact Function.update_self ..

/-- `syscall_entry` stores the result in the frame of its own trap. -/
theorem syscallRet (hI : ContextInv K s) {k : C} {v : Word}
    (h : s.step K (.syscallRet k v) = some s') : ContextInv K s' := by
  simp only [step] at h
  split at h
  · rename_i u x sp esr rest hsv
    split at h
    · rename_i hid
      simp only [Option.some.injEq] at h
      obtain ⟨lo, hi, hk⟩ := hI.exists_kstack k
      have hn := hI.nested hk
      rw [hsv] at hn
      have hbase := hn.base
      have hlim := Nested.limit_le hn.2.2.2
      obtain ⟨l, h₁, hk', hlo, hhi, hal⟩ := hI.room k
      cases hk.symm.trans hk'
      rw [hsv] at hhi
      -- take the frame off and put it back with its new content
      have hpop := hI.pop (r := s.core k) hk hsv (by omega)
        (by have := hn.2.1; simp only [limit] at hhi; omega) hal
      have hsize : (Saved.trap u x sp esr none).size = 22 := rfl
      have h0 : (Saved.trap u x sp esr none).base = down sp UserContext.size := rfl
      have h1 : (Saved.trap u x sp esr none).sp = sp := rfl
      rw [hsize, h0, h1] at hbase
      have hbound := hI.layout.bound hk
      have hspi : sp.toNat ≤ limit hi rest := hn.2.1
      have hslot : (dword (down sp UserContext.size) 4).toNat =
          (down sp UserContext.size).toNat + 8 * 4 := toNat_dword (by omega)
      have hn' : Nested lo hi (.trap u x sp esr (some v) :: rest) := hn
      have hhi' : (s.core k).sp.toNat ≤ (Saved.trap u x sp esr (some v)).base.toNat := hhi
      have hpush := hpop.push (k := k) (r := s.core k) (a := .trap u x sp esr (some v))
        (m := store s.mem (dword (down sp UserContext.size) 4) [v]) hk rfl
        (by simpa [setSaved, setCore] using hn') (by omega) hhi' hal
        (fun b hb => hpop.free_store hk (by omega)
          (by simp only [setSaved, setCore, Function.update_self, List.length_singleton]; omega) hb)
        ?_
      · subst h
        simpa [setSaved, setCore, Function.update_eq_self, Function.update_idem] using hpush
      · have hold : (Saved.trap u x sp esr none).Holds s.mem := hI.holds _ (hsv ▸ List.mem_cons_self)
        change UserContext.load s.mem (down sp UserContext.size) = u at hold
        have hne : ∀ i, i < 22 → i ≠ 4 → store s.mem (dword (down sp UserContext.size) 4) [v]
            (dword (down sp UserContext.size) i) = s.mem (dword (down sp UserContext.size) i) := by
          intro i hi hi4
          have hi' : (dword (down sp UserContext.size) i).toNat =
              (down sp UserContext.size).toNat + 8 * i := toNat_dword (by omega)
          refine store_outside _ (by simp only [List.length_singleton]; omega) ?_
          simp only [List.length_singleton]
          omega
        have h4 := store_dword s.mem (dword (down sp UserContext.size) 4) [v] (i := 0) (by simp)
          (by decide)
        rw [dword_zero] at h4
        change UserContext.load _ (down sp UserContext.size) = Saved.withRet u (some v)
        rw [← hold]
        refine UserContext.ext (hne 0 (by decide) (by decide)) (hne 1 (by decide) (by decide))
          (hne 2 (by decide) (by decide)) (hne 3 (by decide) (by decide)) (funext fun i => ?_)
        by_cases hi0 : i = 0
        · subst hi0
          exact h4
        · simp only [Saved.withRet, UserContext.setX0, Function.update_of_ne hi0]
          have hival : i.val ≠ 0 := fun h => hi0 (Fin.ext h)
          exact hne (4 + i) (by have := i.isLt; omega) (by omega)
    · cases h
  · cases h

/-- `trap_return` runs to its end. -/
theorem trapRet_total (hI : ContextInv K s) {k : C} {u : UserContext} {x : Fin 11 → Word}
    {sp esr : Word} {ret : Option Word} {rest : List Saved}
    (hok : s.CodeOk K (.trapRet k))
    (hsv : s.saved (s.thisproc k) = .trap u x sp esr ret :: rest) :
    ∃ r, s.step K (.trapRet k) = some ((s.setCore k r).setSaved (s.thisproc k) rest) ∧
      ContextInv K ((s.setCore k r).setSaved (s.thisproc k) rest) ∧
      UserContext.of r = Saved.withRet u ret ∧ calleeSaved r = x ∧ r.sp = sp := by
  obtain ⟨hsp, hx⟩ := hok u x sp esr ret rest hsv
  obtain ⟨lo, hi, hk, -, -, hal⟩ := hI.room k
  have hn := hI.nested hk
  rw [hsv] at hn
  have hbase := hn.base
  obtain ⟨r, he, ht⟩ := execs_trapReturn (s.core k) s.mem hal
  have hsp' : r.sp = sp := by
    rw [ht.sp, hsp]
    exact dword_down sp _
  refine ⟨r, ?_, hI.pop hk hsv ?_ ?_ ?_, ?_, ?_, hsp'⟩
  · simp only [step, hsv, he, Option.map_some]
    rfl
  · rw [hsp']
    exact le_trans (Nat.le_add_right _ _) hn.1
  · rw [hsp']
    exact hn.2.1
  · rw [hsp']
    exact hn.2.2.1
  · rw [ht.ctx, hsp]
    exact hI.holds _ (hsv ▸ List.mem_cons_self)
  · rw [← hx]
    funext i
    have hq := notMem_of_calleeSaved _ (List.get_mem calleeSavedRegs i)
    exact ht.x _ hq.1 hq.2

/-- `swtch` runs to its end. -/
theorem sched_total (hI : ContextInv K s) {k : C} {q : P} {ctx : KernelContext} {sp : Word}
    {as : List Saved} (hok : s.CodeOk K (.sched k q)) (hq : s.saved q = .away ctx sp :: as) :
    ∃ s', s.step K (.sched k q) = some s' ∧ ContextInv K s' ∧
      KernelContext.of (s'.core k) = ctx ∧ (s'.core k).sp = sp ∧
      s'.thisproc = Function.update s.thisproc k q ∧ s'.kstack = s.kstack ∧
      ∀ p, s'.saved p = if p = q then as else if p = s.thisproc k then
        .away (.of (((s.core k).set .x0 (s.mem (K.kcontext q))).set .x1 (K.kcontext (s.thisproc k))))
          (s.core k).sp :: s.saved (s.thisproc k) else s.saved p := by
  obtain ⟨lo, hi, hk, hlo, hhi, hal⟩ := hok
  have hoff := hI.off_of_away hq
  obtain ⟨lo', hi', hk'⟩ := hI.exists_of_saved (hq ▸ List.cons_ne_nil _ _)
  have hnq := hI.nested hk'
  rw [hq] at hnq
  obtain ⟨r, hr⟩ : ∃ r, r = ((s.core k).set .x0 (s.mem (K.kcontext q))).set .x1
    (K.kcontext (s.thisproc k)) := ⟨_, rfl⟩
  have hsp : r.sp = (s.core k).sp := by rw [hr]; rfl
  have h0 : r.x .x0 = down sp KernelContext.size := by
    rw [← hI.away hq, hr]
    rfl
  have h1 : r.x .x1 = K.kcontext (s.thisproc k) := by simp [hr, Regs.set]
  have hcell : Aligned (K.kcontext (s.thisproc k)) := hI.layout.aligned (by simp [hk])
  obtain ⟨r', m', he, ht⟩ := execs_swtch r s.mem (by rwa [hsp])
    (by rw [h0]; exact (show Aligned sp from hnq.2.2.1).down _) (by rwa [h1])
  have hbase : (down r.sp KernelContext.size).toNat = r.sp.toNat - 8 * KernelContext.size :=
    toNat_down (by rw [hsp]; omega)
  have hlim := (hI.nested hk).limit_le
  have hbound := hI.layout.bound hk
  have hout := hI.layout.outside (p := s.thisproc k) (by simp [hk]) hk
  have hcsz : KernelContext.size = 14 := rfl
  -- the frame, and then the field `kcontext`
  have hmem : ∀ b, b ≠ K.kcontext (s.thisproc k) →
      m' b = store s.mem (down r.sp KernelContext.size) (KernelContext.of r).words b := by
    intro b hb
    rw [ht.mem, h1]
    exact store_single _ hb hcell
  have hm : ∀ b, s.Protected K b → b ≠ K.kcontext (s.thisproc k) → m' b = s.mem b := by
    intro b hb hne
    rw [hmem b hne]
    refine hI.free_store hk (by rw [hbase, hsp]; omega) ?_ hb
    rw [hbase, KernelContext.length_words, hsp]
    omega
  have hload : KernelContext.load m' (down r.sp KernelContext.size) = .of r := by
    refine Eq.trans (KernelContext.load_congr fun i hlt => hmem _ ?_)
      (KernelContext.load_store s.mem _ _)
    intro heq
    have hspn : r.sp.toNat = (s.core k).sp.toNat := by rw [hsp]
    have := toNat_dword (a := down r.sp KernelContext.size) (i := i) (by omega)
    rw [heq] at this
    omega
  have hcov : ∀ b, (Saved.away ctx sp).Covers b → m' b = s.mem b := by
    intro b hb
    refine hm b (Or.inl ⟨q, _, hq ▸ List.mem_cons_self, hb⟩) ?_
    rintro rfl
    have hn := (hI.nested hk').mem (hq ▸ List.mem_cons_self)
    have hout' := hI.layout.outside (p := s.thisproc k) (by simp [hk]) hk'
    have := hb.1
    have := hb.2
    omega
  have hctx : KernelContext.of r' = ctx := by
    rw [ht.ctx, h0]
    exact (hI.holds _ (hq ▸ List.mem_cons_self)).congr hnq.base.1 hcov
  have hsp' : r'.sp = sp := by
    rw [ht.sp, h0]
    exact dword_down sp _
  have hne : q ≠ s.thisproc k := fun h => hoff k h.symm
  have hsv : ∀ p, (Function.update (Function.update s.saved (s.thisproc k)
      (.away (.of r) r.sp :: s.saved (s.thisproc k))) q as : P → List Saved) p =
        if p = q then as else if p = s.thisproc k then
          .away (.of r) r.sp :: s.saved (s.thisproc k) else s.saved p := by
    intro p
    by_cases h1 : p = q
    · simp [h1]
    · by_cases h2 : p = s.thisproc k
      · simp [h2, hne.symm]
      · simp [h1, h2]
  have hkc : m' (K.kcontext (s.thisproc k)) = down r.sp KernelContext.size := by
    rw [ht.mem, h1]
    have := store_dword (store s.mem (down r.sp KernelContext.size) (KernelContext.of r).words)
      (K.kcontext (s.thisproc k)) [down r.sp KernelContext.size] (i := 0) (by simp) (by decide)
    rwa [dword_zero] at this
  obtain ⟨s', hs'⟩ : ∃ s', s' = { ((s.setCore k r').setSaved (s.thisproc k)
      (.away (.of r) r.sp :: s.saved (s.thisproc k))).setSaved q as with
        mem := m', thisproc := Function.update s.thisproc k q } := ⟨_, rfl⟩
  obtain ⟨hmem', hthis, hkst, hcore, hsaved⟩ : s'.mem = m' ∧
      s'.thisproc = Function.update s.thisproc k q ∧ s'.kstack = s.kstack ∧
      s'.core = Function.update s.core k r' ∧ ∀ p, s'.saved p = if p = q then as
        else if p = s.thisproc k then .away (.of r) r.sp :: s.saved (s.thisproc k)
        else s.saved p := by
    subst hs'
    exact ⟨rfl, rfl, rfl, rfl, hsv⟩
  have hcore_k : s'.core k = r' := by rw [hcore, Function.update_self]
  have hI' : ContextInv K s' := by
    refine hI.swap hq hk (by rw [hsp]; exact hlo) (by rw [hsp]; exact hhi) (by rwa [hsp]) ?_ ?_ ?_
      hkst hthis (by rw [hcore_k, hsp']) (fun k₁ hk₁ => by rw [hcore, Function.update_of_ne hk₁])
      hsaved
    · rw [hmem', hload]
    · rw [hmem', hkc]
    · rw [hmem']
      exact hm
  refine ⟨s', ?_, hI', by rw [hcore_k, hctx], by rw [hcore_k, hsp'], hthis, hkst, ?_⟩
  · simp only [step, hq, if_neg hne, ← hr, he, Option.map_some, hs']
  · rw [← hr, ← hsp]
    exact hsaved

/-- **Every step keeps the invariant.** -/
theorem step (hI : ContextInv K s) {op : ContextOp C P} (hok : s.CodeOk K op)
    (h : s.step K op = some s') : ContextInv K s' := by
  cases op with
  | code k r stores =>
      simp only [ContextSys.step, Option.some.injEq] at h
      subst h
      exact hI.code hok.1 fun b hb => stores_keep hok.2 hb
  | trap k pc pstate esr =>
      obtain ⟨t, ht, hI', -⟩ := hI.trap_total hok
      cases ht.symm.trans h
      exact hI'
  | syscallRet k v => exact hI.syscallRet h
  | trapRet k =>
      have h' := h
      simp only [ContextSys.step] at h'
      split at h'
      · rename_i hsv
        obtain ⟨r, hr, hI', -⟩ := hI.trapRet_total hok hsv
        cases hr.symm.trans h
        exact hI'
      · cases h'
  | sched k q =>
      have h' := h
      simp only [ContextSys.step] at h'
      split at h'
      · rename_i hsv
        obtain ⟨t, ht, hI', -⟩ := hI.sched_total hok hsv
        cases ht.symm.trans h
        exact hI'
      · cases h'
  | initProc p ks => exact hI.initProc hok h
  | startProc p entry arg => exact hI.startProc hok h
  | freeStack p => exact hI.freeStack hok h

end ContextInv

end OsLab
