import OsLab.Kernel.Timer
import Mathlib.Logic.Relation
import Mathlib.Data.Finset.Card

/-!
# Timers go off in order, in time

The timers of `kernel/cpu.c` do what `Alarms` says: a handler is called once for each time its
timer was set and not cancelled, on the CPU where it was set, no sooner than it is due, and
before every timer that is due later.  No assertion fails on the way.  The clock of a CPU is
set so that it interrupts when the first of its timers is due, up to the rounding to
milliseconds: an interrupt finds a timer to call, and no timer waits for the second that
`timer_clock_handler` sets the clock to before it looks.

## Main definitions

* `Pending L due s t` — the timers that are set lie in the trees `t`.
* `Clocked L due s` — the clocks are set to the first of them.
* `TimerSys.sim_step` — a step does what `Alarms.Step` says.
-/

namespace OsLab

open RbTree

/-- The CPU of a timer that is set -/
def homeOf (due : ℕ → Option (ℕ × ℕ)) (n : ℕ) : ℕ := ((due n).map Prod.fst).getD 0

/-- The timers that are set lie in the trees of their CPUs. -/
structure Pending (L : TimerLayout) (due : ℕ → Option (ℕ × ℕ)) (s : TimerSys)
    (t : ℕ → RbTree ℕ) : Prop where
  planted : Planted (homeOf due) (timerCmp s.key) s.tree { n | due n ≠ none } t
  timer : ∀ {n k d}, due n = some (k, d) →
    n ∈ L.timers ∧ (s.key n).toNat = d ∧ d < 2 ^ 63 ∧ s.triggered n = false
  /-- The clock can count to the time. -/
  near : ∀ {n k d}, due n = some (k, d) →
    (d - s.now.toNat / L.oneMs.toNat) * L.oneMs.toNat ≤ 0x7fffffff
  armed : ∀ n, s.armed n = (due n).map Prod.fst

/-- The clock of each CPU is set to the first of its timers, in whole milliseconds. -/
structure Clocked (L : TimerLayout) (due : ℕ → Option (ℕ × ℕ)) (s : TimerSys) : Prop where
  soon : ∀ {n k d}, due n = some (k, d) →
    (s.cval k).toNat ≤ max (d * L.oneMs.toNat + L.oneMs.toNat + L.lag) s.now.toNat
  late : ∀ {n k d}, due n = some (k, d) →
    ∃ n' d', due n' = some (k, d') ∧ d' * L.oneMs.toNat ≤ (s.cval k).toNat

/-! ## The order -/

/-- Nodes may have other homes as long as they are in no tree. -/
theorem Planted.congr_home {home home' : ℕ → ℕ} {cmp : ℕ → ℕ → Bool} {F : RbForest} {Q : Set ℕ}
    {t : ℕ → RbTree ℕ} (h : Planted home cmp F Q t) (heq : ∀ n ∈ Q, home' n = home n) :
    Planted home' cmp F Q t where
  holds := h.holds
  nodup := h.nodup
  balanced := h.balanced
  sorted := h.sorted
  mem n g := by
    rw [h.mem]
    refine and_congr_right fun hn => ?_
    rw [heq n hn]

/-- `_rb_first` gives the head of the list. -/
theorem Planted.rbFirst {home : ℕ → ℕ} {cmp : ℕ → ℕ → Bool} {F : RbForest} {Q : Set ℕ}
    {t : ℕ → RbTree ℕ} (h : Planted home cmp F Q t) {g fuel : ℕ}
    (hfuel : (t g).toList.length < fuel) :
    rbFirst fuel (F.mem g) = some ((t g).toList.headD 0) := by
  have hh := h.holds g
  cases ht : t g with
  | nil =>
      rw [ht] at hh
      have h0 : (F.mem g).root = 0 := hh.1
      rw [OsLab.rbFirst, if_pos h0]
      rfl
  | node c l a r =>
      rw [ht] at hh hfuel
      have hne : (F.mem g).root ≠ 0 := by
        rw [hh.1]
        exact hh.2.1.ne
      rw [OsLab.rbFirst, if_neg hne, hh.1, firstLoop_spec hh.2 (by simp) hfuel]
      cases hl : (RbTree.node c l a r).toList with
      | nil => simp at hl
      | cons x xs => rfl

theorem timerCmp_eq {key : ℕ → UInt64} {a b : ℕ} (ha : (key a).toNat < 2 ^ 63)
    (hb : (key b).toNat < 2 ^ 63) : windowCmp key 0 a b = timerCmp key a b :=
  windowCmp_eq (by simpa using ha) (by simpa using hb)

/-- The order by the time that timers are due, and their addresses -/
theorem timerCmp_iff {key : ℕ → UInt64} {a b : ℕ} (ha : (key a).toNat < 2 ^ 63)
    (hb : (key b).toNat < 2 ^ 63) : timerCmp key a b = true ↔
      (key a).toNat < (key b).toNat ∨ (key a).toNat = (key b).toNat ∧ a < b := by
  rw [← timerCmp_eq ha hb]
  simp [windowCmp]

namespace Pending

variable {L : TimerLayout} {due : ℕ → Option (ℕ × ℕ)} {s : TimerSys} {t : ℕ → RbTree ℕ} {k : ℕ}

theorem mem_iff (h : Pending L due s t) {n : ℕ} : n ∈ (t k).toList ↔ ∃ d, due n = some (k, d) := by
  rw [h.planted.mem]
  constructor
  · rintro ⟨hn, hk⟩
    obtain ⟨⟨k', d⟩, hd⟩ := Option.ne_none_iff_exists'.mp hn
    rw [homeOf, hd] at hk
    exact ⟨d, hd.trans (by rw [hk]; rfl)⟩
  · rintro ⟨d, hd⟩
    exact ⟨by simp [hd], by simp [homeOf, hd]⟩

theorem lt_fuel (h : Pending L due s t) (k : ℕ) : (t k).toList.length < TimerSys.fuel L := by
  rw [TimerSys.fuel, ← List.toFinset_card_of_nodup (h.planted.nodup k), Nat.lt_succ_iff]
  refine Finset.card_le_card fun n hn => ?_
  obtain ⟨d, hd⟩ := h.mem_iff.mp (List.mem_toFinset.mp hn)
  exact (h.timer hd).1

/-- The counter goes on. -/
theorem later (h : Pending L due s t) {n : UInt64} (hn : s.now ≤ n) :
    Pending L due { s with now := n } t where
  planted := h.planted
  timer := h.timer
  near hd := by
    rw [UInt64.le_iff_toNat_le] at hn
    exact le_trans (Nat.mul_le_mul_right _ (Nat.sub_le_sub_left (Nat.div_le_div_right hn) _))
      (h.near hd)
  armed := h.armed

/-- The first timer of a CPU -/
theorem first (h : Pending L due s t) (k : ℕ) :
    (rbFirst (TimerSys.fuel L) (s.tree.mem k) = some 0 ∧ ∀ n d, due n ≠ some (k, d)) ∨
    ∃ n d, rbFirst (TimerSys.fuel L) (s.tree.mem k) = some n ∧ n ≠ 0 ∧ due n = some (k, d) ∧
      ∀ n' d', due n' = some (k, d') → d < d' ∨ d = d' ∧ n ≤ n' := by
  have hf := h.planted.rbFirst (h.lt_fuel k)
  have hsort := h.planted.sorted k
  cases hl : (t k).toList with
  | nil =>
      rw [hl] at hf
      refine .inl ⟨hf, fun n d hd => ?_⟩
      have := h.mem_iff.mpr ⟨d, hd⟩
      rw [hl] at this
      cases this
  | cons r rest =>
      rw [hl] at hf hsort
      obtain ⟨d, hd⟩ := h.mem_iff.mp (hl ▸ List.mem_cons_self : r ∈ (t k).toList)
      obtain ⟨hr, hkey, hlt, -⟩ := h.timer hd
      refine .inr ⟨r, d, hf, (L.isNode r hr).ne, hd, fun n' d' hd' => ?_⟩
      obtain ⟨-, hkey', hlt', -⟩ := h.timer hd'
      have hin := h.mem_iff.mpr ⟨d', hd'⟩
      rw [hl] at hin
      rcases List.mem_cons.mp hin with rfl | hin
      · cases hd.symm.trans hd'
        exact .inr ⟨rfl, Nat.le_refl _⟩
      · have := (timerCmp_iff (by omega) (by omega)).mp (List.rel_of_pairwise_cons hsort hin)
        omega

end Pending

/-- The clocks after one of them was set -/
theorem Clocked.update {L : TimerLayout} {s s' : TimerSys} {due due' : ℕ → Option (ℕ × ℕ)} {k : ℕ}
    {c : UInt64} (h : Clocked L due s) (hcval : s'.cval = Function.update s.cval k c) (hnow : s.now ≤ s'.now)
    (hother : ∀ n k' d, k' ≠ k → (due' n = some (k', d) ↔ due n = some (k', d)))
    (hsoon : ∀ n d, due' n = some (k, d) →
      c.toNat ≤ max (d * L.oneMs.toNat + L.oneMs.toNat + L.lag) s'.now.toNat)
    (hlate : ∀ n d, due' n = some (k, d) →
      ∃ n' d', due' n' = some (k, d') ∧ d' * L.oneMs.toNat ≤ c.toNat) : Clocked L due' s' := by
  rw [UInt64.le_iff_toNat_le] at hnow
  constructor
  · intro n k' d hd
    by_cases hk : k' = k
    · subst hk
      rw [hcval, Function.update_self]
      exact hsoon n d hd
    · rw [hcval, Function.update_of_ne hk]
      have := h.soon ((hother n k' d hk).mp hd)
      omega
  · intro n k' d hd
    by_cases hk : k' = k
    · subst hk
      rw [hcval, Function.update_self]
      exact hlate n d hd
    · rw [hcval, Function.update_of_ne hk]
      obtain ⟨n', d', hd', hle⟩ := h.late ((hother n k' d hk).mp hd)
      exact ⟨n', d', (hother n' k' d' hk).mpr hd', hle⟩

/-! ## The calls -/

namespace TimerSys

variable {L : TimerLayout} {s s' : TimerSys} {due : ℕ → Option (ℕ × ℕ)} {t : ℕ → RbTree ℕ} {k n : ℕ}
  {n₀ n₁ n₂ : UInt64}

theorem toNat_getTimestampMs (n : UInt64) :
    (getTimestampMs L n).toNat = n.toNat / L.oneMs.toNat := UInt64.toNat_div n L.oneMs

theorem resetClock_spec (s : TimerSys) (k : ℕ) (countdown : UInt64) {n : UInt64}
    (h : countdown.toNat * L.oneMs.toNat ≤ 0x7fffffff)
    (hn : n.toNat < 2 ^ 62) :
    ∃ c, s.resetClock L k countdown n = some { s with cval := Function.update s.cval k c } ∧
      c.toNat = n.toNat + countdown.toNat * L.oneMs.toNat := by
  have hmul : (countdown * L.oneMs).toNat = countdown.toNat * L.oneMs.toNat := by
    rw [UInt64.toNat_mul, Nat.mod_eq_of_lt (by omega)]
  refine ⟨n + countdown * L.oneMs, ?_, ?_⟩
  · have hle : countdown * L.oneMs ≤ 0x7fffffff := by
      rw [UInt64.le_iff_toNat_le, hmul]
      exact h
    simp only [resetClock, hle, if_true]
  · rw [UInt64.toNat_add, hmul, Nat.mod_eq_of_lt (by omega)]

/-- **`__timer_set_clock`** sets the clock to the first timer. -/
theorem timerSetClock_spec (h : Pending L due { s with now := n₁ } t) (h₂ : n₁ ≤ n₂)
    (hlt : n₂.toNat < 2 ^ 62) (hlag : n₂.toNat ≤ n₁.toNat + L.lag) :
    ∃ c, s.timerSetClock L k n₁ n₂ = some { s with cval := Function.update s.cval k c } ∧
      (∀ n d, due n = some (k, d) →
        c.toNat ≤ max (d * L.oneMs.toNat + L.oneMs.toNat + L.lag) n₂.toNat) ∧
      ∀ n d, due n = some (k, d) →
        ∃ n' d', due n' = some (k, d') ∧ d' * L.oneMs.toNat ≤ c.toNat := by
  have hpos := L.oneMs_pos
  rw [UInt64.le_iff_toNat_le] at h₂
  have hfirst : (rbFirst (fuel L) (s.tree.mem k) = some 0 ∧ ∀ n d, due n ≠ some (k, d)) ∨
    ∃ n d, rbFirst (fuel L) (s.tree.mem k) = some n ∧ n ≠ 0 ∧ due n = some (k, d) ∧
      ∀ n' d', due n' = some (k, d') → d < d' ∨ d = d' ∧ n ≤ n' := h.first k
  rcases hfirst with ⟨hf, hnone⟩ | ⟨r, d, hf, hr, hd, hmin⟩
  · obtain ⟨c, hc, -⟩ := resetClock_spec (L := L) s k 1000 L.second hlt
    refine ⟨c, ?_, fun n d hd => absurd hd (hnone n d), fun n d hd => absurd hd (hnone n d)⟩
    simp only [timerSetClock, hf, Option.bind_eq_bind, Option.bind_some, if_true]
    exact hc
  · have hkey : (s.key r).toNat = d := (h.timer hd).2.1
    have hnear : (d - n₁.toNat / L.oneMs.toNat) * L.oneMs.toNat ≤ 0x7fffffff := h.near hd
    have ht0 := toNat_getTimestampMs (L := L) n₁
    have hdiv := Nat.div_add_mod n₁.toNat L.oneMs.toNat
    have hmod := Nat.mod_lt n₁.toNat hpos
    -- every timer of the CPU is due when the first one is, or later
    have hle : ∀ n d', due n = some (k, d') → d * L.oneMs.toNat ≤ d' * L.oneMs.toNat := by
      intro n d' hd'
      refine Nat.mul_le_mul_right _ ?_
      have := hmin n d' hd'
      omega
    by_cases hdue : s.key r ≤ getTimestampMs L n₁
    · obtain ⟨c, hc, hcv⟩ := resetClock_spec (L := L) s k 0 (by simp) hlt
      have hzero : c.toNat = n₂.toNat := by simpa using hcv
      rw [UInt64.le_iff_toNat_le, hkey, ht0] at hdue
      have hbound : d * L.oneMs.toNat ≤ n₁.toNat := by
        have := Nat.mul_le_mul_right L.oneMs.toNat hdue
        have := Nat.div_mul_le_self n₁.toNat L.oneMs.toNat
        omega
      refine ⟨c, ?_, fun n d' hd' => by omega, fun _ _ _ => ⟨r, d, hd, by omega⟩⟩
      simp only [timerSetClock, hf, Option.bind_eq_bind, Option.bind_some, if_neg hr]
      rw [if_pos (by rw [UInt64.le_iff_toNat_le, hkey, ht0]; exact hdue)]
      exact hc
    · have hgt : n₁.toNat / L.oneMs.toNat < d := by
        rw [UInt64.le_iff_toNat_le, hkey, ht0] at hdue
        omega
      have hsub : (s.key r - getTimestampMs L n₁).toNat = d - n₁.toNat / L.oneMs.toNat := by
        rw [UInt64.toNat_sub_of_le _ _ (by rw [UInt64.le_iff_toNat_le]; omega), hkey, ht0]
      obtain ⟨c, hc, hcv⟩ := resetClock_spec (L := L) s k
        (s.key r - getTimestampMs L n₁) (by rw [hsub]; exact hnear) hlt
      rw [hsub, Nat.sub_mul] at hcv
      have hcomm : L.oneMs.toNat * (n₁.toNat / L.oneMs.toNat) =
          n₁.toNat / L.oneMs.toNat * L.oneMs.toNat := Nat.mul_comm _ _
      have hprod : n₁.toNat / L.oneMs.toNat * L.oneMs.toNat ≤ d * L.oneMs.toNat :=
        Nat.mul_le_mul_right _ (by omega)
      refine ⟨c, ?_, fun n d' hd' => ?_, fun _ _ _ => ⟨r, d, hd, by omega⟩⟩
      · simp only [timerSetClock, hf, Option.bind_eq_bind, Option.bind_some, if_neg hr]
        rw [if_neg hdue]
        exact hc
      · have := hle n d' hd'
        omega

/-- What a call that sets the clock of the CPU `k` leaves, if the counter is at `n` in the end. -/
structure Left (L : TimerLayout) (k : ℕ) (n : UInt64) (due' : ℕ → Option (ℕ × ℕ)) (s s' : TimerSys) :
    Prop where
  pending : ∃ t, Pending L due' { s' with now := n } t
  cval : ∃ c, s'.cval = Function.update s.cval k c ∧
    (∀ m d, due' m = some (k, d) →
      c.toNat ≤ max (d * L.oneMs.toNat + L.oneMs.toNat + L.lag) n.toNat) ∧
    ∀ m d, due' m = some (k, d) →
      ∃ m' d', due' m' = some (k, d') ∧ d' * L.oneMs.toNat ≤ c.toNat
  called : s'.called = s.called

/-- **`cancel_cpu_timer`** -/
theorem cancelCpuTimer_spec (h : Pending L due s t) {d : ℕ} (hd : due n = some (k, d))
    (h₁ : s.now ≤ n₁) (h₂ : n₁ ≤ n₂) (hlt : n₂.toNat < 2 ^ 62)
    (hlag : n₂.toNat ≤ n₁.toNat + L.lag) :
    ∃ s', s.cancelCpuTimer L k n n₁ n₂ = some s' ∧
      Left L k n₂ (Function.update due n none) s s' := by
  obtain ⟨-, -, -, htrig⟩ := h.timer hd
  have hhome : homeOf due n = k := by simp [homeOf, hd]
  have hcmp : ∀ a b, a ≠ n → b ≠ n → timerCmp s.key a b = timerCmp s.key a b := fun _ _ _ _ => rfl
  obtain ⟨m, u, hexec, hplanted, -⟩ := h.planted.erase (by simp [hd]) hcmp (h.lt_fuel _)
  rw [hhome] at hexec hplanted
  have hset : ({ m | due m ≠ none } \ {n}) = { m | Function.update due n none m ≠ none } := by
    ext m
    by_cases hm : m = n <;> simp [hm]
  have hrest : ∀ m k' d', Function.update due n none m = some (k', d') → due m = some (k', d') := by
    intro m k' d' hm
    by_cases hmn : m = n
    · rw [hmn, Function.update_self] at hm
      cases hm
    · rwa [Function.update_of_ne hmn] at hm
  obtain ⟨s₁, hs₁⟩ : ∃ s₁, s₁ = { s with
    tree := s.tree.set k m, armed := Function.update s.armed n none } := ⟨_, rfl⟩
  have hp : Pending L (Function.update due n none) { s₁ with now := n₁ } (Function.update t k u) := by
    rw [hset] at hplanted
    have hl := h.later h₁
    subst hs₁
    refine ⟨hplanted.congr_home fun a ha => ?_, fun hm => hl.timer (hrest _ _ _ hm),
      fun hm => hl.near (hrest _ _ _ hm), fun a => ?_⟩
    · have hne : a ≠ n := by
        rintro rfl
        simp at ha
      simp [homeOf, hne]
    · by_cases hne : a = n
      · simp [hne]
      · simp [hne, h.armed a]
  obtain ⟨c, hc, hsoon, hlate⟩ := timerSetClock_spec (k := k) hp h₂ hlt hlag
  refine ⟨{ s₁ with cval := Function.update s₁.cval k c }, ?_,
    ⟨⟨Function.update t k u, ?_⟩, ⟨c, ?_, hsoon, hlate⟩, ?_⟩⟩
  · simp only [cancelCpuTimer, htrig, Bool.false_eq_true, if_false, Option.bind_eq_bind, hexec,
      Option.bind_some]
    rw [← hs₁]
    exact hc
  · have hl := hp.later (n := n₂) h₂
    exact ⟨hl.planted, hl.timer, hl.near, hl.armed⟩
  · subst hs₁
    rfl
  · subst hs₁
    rfl

/-- The time that `set_cpu_timer` computes is the sum, without overflow. -/
theorem toNat_dueTime {e : Int32} (he : 0 ≤ e.toInt)
    (hfit : e.toInt.toNat * L.oneMs.toNat ≤ 0x7fffffff) (hlt : n₀.toNat < 2 ^ 62) :
    (getTimestampMs L n₀ + e.toInt64.toUInt64).toNat =
        n₀.toNat / L.oneMs.toNat + e.toInt.toNat ∧
      n₀.toNat / L.oneMs.toNat + e.toInt.toNat < 2 ^ 63 := by
  have hesmall : e.toInt.toNat ≤ 0x7fffffff :=
    le_trans (Nat.le_mul_of_pos_right _ L.oneMs_pos) hfit
  have helapse : e.toInt64.toUInt64.toNat = e.toInt.toNat := by
    have h64 : e.toInt64.toInt = e.toInt := Int32.toInt_toInt64 _
    have hbv : e.toInt64.toUInt64.toNat = e.toInt64.toBitVec.toNat := rfl
    have hcond := BitVec.toInt_eq_toNat_cond e.toInt64.toBitVec
    have hint : e.toInt64.toInt = e.toInt64.toBitVec.toInt := rfl
    have hlt64 := e.toInt64.toBitVec.isLt
    rw [hbv]
    split at hcond
    · omega
    · omega
  have hn0 : n₀.toNat / L.oneMs.toNat ≤ n₀.toNat := Nat.div_le_self _ _
  constructor
  · rw [UInt64.toNat_add, toNat_getTimestampMs, helapse, Nat.mod_eq_of_lt (by omega)]
  · omega

section Plant

variable {key : ℕ → UInt64} {d : ℕ}

/-- A timer goes into the tree of the CPU `k`, where the keys of the others are as before. -/
theorem planted_update (h : Pending L due s t) (hn : n ∈ L.timers) (hnone : due n = none)
    (hkeyn : (key n).toNat = d) (hd : d < 2 ^ 63) (hkey : ∀ m, m ≠ n → key m = s.key m) (k : ℕ) :
    ∃ m u, rbInsert (timerCmp key) (fuel L) n (s.tree.mem k) = some (0, m) ∧
      Planted (homeOf (Function.update due n (some (k, d)))) (timerCmp key) (s.tree.set k m)
        { m | Function.update due n (some (k, d)) m ≠ none } (Function.update t k u) := by
  obtain ⟨due', hdue'⟩ : ∃ due', due' = Function.update due n (some (k, d)) := ⟨_, rfl⟩
  rw [← hdue']
  have hdue_ne : ∀ m, m ≠ n → due' m = due m := fun m hm => by
    rw [hdue', Function.update_of_ne hm]
  have hdue_n : due' n = some (k, d) := by rw [hdue', Function.update_self]
  have hhome : homeOf due' n = k := by rw [homeOf, hdue_n]; rfl
  have hQ : ∀ m, due m ≠ none → m ≠ n := by
    rintro m hm rfl
    exact hm hnone
  -- the trees in the order of the new keys, with the new home
  have hplanted : Planted (homeOf due') (timerCmp key) s.tree { m | due m ≠ none } t := by
    refine (h.planted.congr_cmp fun a b ha hb hab => ?_).congr_home fun a ha => ?_
    · simpa [timerCmp, schedCmp, hkey a (hQ a ha), hkey b (hQ b hb)] using hab
    · rw [homeOf, homeOf, hdue_ne a (hQ a ha)]
  have hsmall : ∀ a ∈ n :: (t k).toList, (key a).toNat < 2 ^ 63 := by
    intro a ha
    rcases List.mem_cons.mp ha with rfl | ha
    · omega
    · obtain ⟨d', hd'⟩ := h.mem_iff.mp ha
      rw [hkey a (hQ a (by simp [hd']))]
      have := h.timer hd'
      omega
  have hcmp : ∀ a ∈ n :: (t (homeOf due' n)).toList, ∀ b ∈ n :: (t (homeOf due' n)).toList,
      windowCmp key 0 a b = timerCmp key a b := by
    rw [hhome]
    exact fun a ha b hb => timerCmp_eq (hsmall a ha) (hsmall b hb)
  have htotal : ∀ a ∈ (t (homeOf due' n)).toList,
      timerCmp key n a = true ∨ timerCmp key a n = true := by
    rw [hhome]
    intro a ha
    have hne : n ≠ a := by
      rintro rfl
      obtain ⟨d', hd'⟩ := h.mem_iff.mp ha
      rw [hnone] at hd'
      cases hd'
    have hself := hsmall n List.mem_cons_self
    have ha' := hsmall a (List.mem_cons_of_mem _ ha)
    rw [timerCmp_iff hself ha', timerCmp_iff ha' hself]
    omega
  obtain ⟨m, u, hexec, hplanted', -⟩ := hplanted.insert (L.isNode n hn) (by simp [hnone]) hcmp
    htotal (h.lt_fuel _)
  rw [hhome] at hexec hplanted'
  have hset : Set.insert n { m | due m ≠ none } = { m | due' m ≠ none } := by
    ext a
    refine Set.mem_insert_iff.trans ?_
    by_cases ha : a = n
    · simp [ha, hdue_n]
    · simp [hdue_ne a ha, ha]
  rw [hset] at hplanted'
  exact ⟨m, u, hexec, hplanted'⟩

/-- A timer more is set. -/
theorem pending_update (h : Pending L due s t) (hn : n ∈ L.timers) (hkeyn : (key n).toNat = d)
    (hd : d < 2 ^ 63) (hkey : ∀ m, m ≠ n → key m = s.key m) (h₁ : s.now ≤ n₁)
    (hnear : (d - n₁.toNat / L.oneMs.toNat) * L.oneMs.toNat ≤ 0x7fffffff) {F : RbForest}
    {u : ℕ → RbTree ℕ}
    (hplanted : Planted (homeOf (Function.update due n (some (k, d)))) (timerCmp key) F
      { m | Function.update due n (some (k, d)) m ≠ none } u) :
    Pending L (Function.update due n (some (k, d)))
      { s with
        triggered := Function.update s.triggered n false
        key := key
        tree := F
        armed := Function.update s.armed n (some k)
        now := n₁ } u := by
  have hl := h.later h₁
  have hcase : ∀ {a k' d'}, Function.update due n (some (k, d)) a = some (k', d') →
      (a = n ∧ k' = k ∧ d' = d) ∨ (a ≠ n ∧ due a = some (k', d')) := by
    intro a k' d' ha
    by_cases han : a = n
    · rw [han, Function.update_self] at ha
      cases ha
      exact .inl ⟨han, rfl, rfl⟩
    · rw [Function.update_of_ne han] at ha
      exact .inr ⟨han, ha⟩
  constructor
  case planted => exact hplanted
  case timer =>
    intro a k' d' ha
    rcases hcase ha with ⟨rfl, -, rfl⟩ | ⟨hne, ha⟩
    · exact ⟨hn, hkeyn, hd, Function.update_self ..⟩
    · obtain ⟨h1, h2, h3, h4⟩ := h.timer ha
      have hk : (key a).toNat = d' := by rw [hkey a hne, h2]
      exact ⟨h1, hk, h3, by simpa [hne] using h4⟩
  case near =>
    intro a k' d' ha
    rcases hcase ha with ⟨-, -, rfl⟩ | ⟨-, ha⟩
    · exact hnear
    · exact hl.near ha
  case armed =>
    intro a
    by_cases han : a = n
    · simp [han]
    · simpa [han] using h.armed a

end Plant

/-- **`set_cpu_timer`** -/
theorem setCpuTimer_spec (h : Pending L due s t) (hn : n ∈ L.timers) (hnone : due n = none)
    (he : 0 ≤ (s.elapse n).toInt) (hfit : (s.elapse n).toInt.toNat * L.oneMs.toNat ≤ 0x7fffffff)
    (h₀ : s.now ≤ n₀) (h₁ : n₀ ≤ n₁) (h₂ : n₁ ≤ n₂) (hlt : n₂.toNat < 2 ^ 62)
    (hlag : n₂.toNat ≤ n₁.toNat + L.lag) :
    ∃ s', s.setCpuTimer L k n n₀ n₁ n₂ = some s' ∧
      Left L k n₂ (Function.update due n
        (some (k, n₀.toNat / L.oneMs.toNat + (s.elapse n).toInt.toNat))) s s' := by
  have hle : n₀.toNat ≤ n₁.toNat ∧ n₁.toNat ≤ n₂.toNat := by
    rw [UInt64.le_iff_toNat_le] at h₁ h₂
    exact ⟨h₁, h₂⟩
  have hlt₀ : n₀.toNat < 2 ^ 62 := by omega
  obtain ⟨htime, hdlt⟩ := toNat_dueTime he hfit hlt₀
  obtain ⟨d, hd⟩ : ∃ d, d = n₀.toNat / L.oneMs.toNat + (s.elapse n).toInt.toNat := ⟨_, rfl⟩
  obtain ⟨key, hkeydef⟩ : ∃ key, key = Function.update s.key n
    (getTimestampMs L n₀ + (s.elapse n).toInt64.toUInt64) := ⟨_, rfl⟩
  have hkeyn : (key n).toNat = d := by rw [hkeydef, Function.update_self, htime, hd]
  have hkey : ∀ m, m ≠ n → key m = s.key m := fun m hm => by
    rw [hkeydef, Function.update_of_ne hm]
  rw [← hd] at hdlt ⊢
  have hnear : (d - n₁.toNat / L.oneMs.toNat) * L.oneMs.toNat ≤ 0x7fffffff := by
    refine le_trans (Nat.mul_le_mul_right _ ?_) hfit
    have := Nat.div_le_div_right (c := L.oneMs.toNat) hle.1
    omega
  obtain ⟨m, u, hexec, hplanted⟩ := planted_update h hn hnone hkeyn hdlt hkey k
  have hp := pending_update h hn hkeyn hdlt hkey (UInt64.le_trans h₀ h₁) hnear hplanted
  obtain ⟨s₁, hs₁⟩ : ∃ s₁ : TimerSys, s₁ = { s with
    triggered := Function.update s.triggered n false
    key := key
    tree := s.tree.set k m
    armed := Function.update s.armed n (some k) } := ⟨_, rfl⟩
  have hp' : Pending L (Function.update due n (some (k, d))) { s₁ with now := n₁ }
      (Function.update t k u) := by
    rw [hs₁]
    exact hp
  obtain ⟨c, hc, hsoon, hlate⟩ := timerSetClock_spec (k := k) hp' h₂ hlt hlag
  refine ⟨{ s₁ with cval := Function.update s₁.cval k c }, ?_,
    ⟨⟨Function.update t k u, ?_⟩, ⟨c, ?_, hsoon, hlate⟩, ?_⟩⟩
  · simp only [setCpuTimer, Option.bind_eq_bind]
    rw [← hkeydef, hexec, Option.bind_some]
    simp only [if_true]
    rw [← hs₁]
    exact hc
  · have hl := hp'.later (n := n₂) h₂
    exact ⟨hl.planted, hl.timer, hl.near, hl.armed⟩
  · subst hs₁
    rfl
  · subst hs₁
    rfl

/-! ## Runs -/

/-- What the kernel has done and what `Alarms` says. -/
structure Sim (L : TimerLayout) (s : TimerSys) (a : Alarms) : Prop where
  pending : ∃ t, Pending L a.due s t
  clocked : Clocked L a.due s
  called : s.called = a.called

/-- The order of the readings -/
theorem Later.cons {n : UInt64} {ns : List UInt64} (h : s.Later (n :: ns)) :
    s.now ≤ n ∧ n.toNat < 2 ^ 62 ∧ { s with now := n }.Later ns := by
  obtain ⟨hp, hlt⟩ := h
  rw [List.pairwise_cons] at hp
  exact ⟨hp.1 n List.mem_cons_self, hlt n List.mem_cons_self, hp.2,
    fun m hm => hlt m (List.mem_cons_of_mem _ hm)⟩

theorem put_other {due : ℕ → Option (ℕ × ℕ)} {m : ℕ} {d : Option (ℕ × ℕ)} {k : ℕ}
    (hold : ∀ k' d', due m = some (k', d') → k' = k) (hnew : ∀ k' d', d = some (k', d') → k' = k)
    (n k' d' : ℕ) (hk : k' ≠ k) :
    Function.update due m d n = some (k', d') ↔ due n = some (k', d') := by
  by_cases hn : n = m
  · rw [hn, Function.update_self]
    exact ⟨fun h => absurd (hnew _ _ h) hk, fun h => absurd (hold _ _ h) hk⟩
  · rw [Function.update_of_ne hn]

/-- **A round of the handler** calls the first timer if it is due, with nothing left undone
that was due on this CPU. -/
theorem handlerRound_spec {a : Alarms} (h : Pending L a.due s t) {n₃ : UInt64}
    (hl : s.Later [n₁, n₂, n₃]) (hlag : n₃.toNat ≤ n₂.toNat + L.lag) :
    (s.handlerRound L k n₁ n₂ n₃ = some s ∧
      ∀ m d, a.due m = some (k, d) → n₁.toNat / L.oneMs.toNat < d) ∨
    ∃ s' m d, s.handlerRound L k n₁ n₂ n₃ = some s' ∧ a.First k m d ∧
      d ≤ n₁.toNat / L.oneMs.toNat ∧ s'.called = (m, k) :: s.called ∧
      (∃ t, Pending L (Function.update a.due m none) { s' with now := n₃ } t) ∧
      ∃ c, s'.cval = Function.update s.cval k c ∧
        (∀ i d, Function.update a.due m none i = some (k, d) →
          c.toNat ≤ max (d * L.oneMs.toNat + L.oneMs.toNat + L.lag) n₃.toNat) ∧
        ∀ i d, Function.update a.due m none i = some (k, d) →
          ∃ i' d', Function.update a.due m none i' = some (k, d') ∧
            d' * L.oneMs.toNat ≤ c.toNat := by
  obtain ⟨h₁, -, hl₁⟩ := hl.cons
  obtain ⟨h₂, -, hl₂⟩ := hl₁.cons
  obtain ⟨h₃, hlt, -⟩ := hl₂.cons
  have h₂' : s.now ≤ n₂ := by
    rw [UInt64.le_iff_toNat_le] at h₁ h₂ ⊢
    exact le_trans h₁ h₂
  rcases h.first k with ⟨hf, hnone⟩ | ⟨m, d, hf, hm, hd, hmin⟩
  · refine .inl ⟨?_, fun m d hd => absurd hd (hnone m d)⟩
    simp only [handlerRound, hf, Option.bind_eq_bind, Option.bind_some, if_true]
  · have hkey := (h.timer hd).2.1
    by_cases hdue : getTimestampMs L n₁ < s.key m
    · refine .inl ⟨?_, fun m' d' hd' => ?_⟩
      · simp only [handlerRound, hf, Option.bind_eq_bind, Option.bind_some, if_neg hm, if_pos hdue]
      · rw [UInt64.lt_iff_toNat_lt, hkey, toNat_getTimestampMs] at hdue
        have := hmin m' d' hd'
        omega
    · obtain ⟨s', hs', hleft⟩ := cancelCpuTimer_spec h hd h₂' h₃ hlt hlag
      obtain ⟨t', hp⟩ := hleft.pending
      refine .inr ⟨{ s' with
        triggered := Function.update s'.triggered m true, called := (m, k) :: s'.called },
        m, d, ?_, ⟨hd, hmin⟩, ?_, ?_, ⟨t', ?_⟩, hleft.cval⟩
      · simp only [handlerRound, hf, Option.bind_eq_bind, Option.bind_some, if_neg hm, if_neg hdue,
          hs', Option.bind_some]
      · rw [UInt64.lt_iff_toNat_lt, hkey, toNat_getTimestampMs] at hdue
        omega
      · exact congrArg (List.cons (m, k)) hleft.called
      · refine ⟨hp.planted, fun {i k' d'} hi => ?_, hp.near, hp.armed⟩
        have hne : i ≠ m := by
          rintro rfl
          rw [Function.update_self] at hi
          cases hi
        obtain ⟨h1, h2, h3, h4⟩ := hp.timer hi
        exact ⟨h1, h2, h3, by simpa [hne] using h4⟩

/-- The later rounds and the first one -/
theorem sim_round {a : Alarms} (h : Sim L s a) {n₃ : UInt64} (hl : s.Later [n₁, n₂, n₃])
    (hlag : n₃.toNat ≤ n₂.toNat + L.lag) :
    ∃ s' a', s.handlerRound L k n₁ n₂ n₃ = some s' ∧ Alarms.Round L a k n₁ a' ∧
      Sim L { s' with now := n₃ } a' := by
  obtain ⟨t, hp⟩ := h.pending
  obtain ⟨h₁, -, hl₁⟩ := hl.cons
  obtain ⟨h₂, -, hl₂⟩ := hl₁.cons
  obtain ⟨h₃, -, -⟩ := hl₂.cons
  have hnow : s.now ≤ n₃ := by
    rw [UInt64.le_iff_toNat_le] at h₁ h₂ h₃ ⊢
    exact le_trans h₁ (le_trans h₂ h₃)
  rcases handlerRound_spec (k := k) hp hl hlag with ⟨hs, hquiet⟩ |
    ⟨s', m, d, hs, hfirst, hdue, hcalled, hpend, c, hc, hsoon, hlate⟩
  · refine ⟨s, a, hs, .quiet hquiet, ⟨t, hp.later hnow⟩, ⟨fun hd => ?_, h.clocked.late⟩, h.called⟩
    rw [UInt64.le_iff_toNat_le] at hnow
    exact le_trans (h.clocked.soon hd) (max_le_max_left _ hnow)
  · refine ⟨s', _, hs, .call hfirst hdue, hpend, ?_, ?_⟩
    · refine h.clocked.update hc hnow ?_ hsoon hlate
      refine put_other (fun k' d' hd => ?_) (fun k' d' hd => by cases hd)
      rw [hfirst.1] at hd
      cases hd
      rfl
    · exact hcalled.trans (by rw [h.called])

/-- A call of `set_cpu_timer` -/
theorem sim_set {a : Alarms} {m : ℕ} {e : Int32} (h : Sim L s a)
    (hok : s.Ok L (.set k m e n₀ n₁ n₂)) :
    ∃ s' a', s.step L (.set k m e n₀ n₁ n₂) = some s' ∧
      Alarms.Step L a (.set k m e n₀ n₁ n₂) a' ∧ Sim L s' a' := by
  obtain ⟨t, hp⟩ := h.pending
  obtain ⟨hm, harmed, he, hfit, hl, hlag⟩ := hok
  obtain ⟨h₀, -, hl₀⟩ := hl.cons
  obtain ⟨h₁, -, hl₁⟩ := hl₀.cons
  obtain ⟨h₂, hlt, -⟩ := hl₁.cons
  have hnone : a.due m = none := by
    have := hp.armed m
    rw [harmed] at this
    simpa using this.symm
  obtain ⟨s₁, hs₁⟩ : ∃ s₁ : TimerSys, s₁ = { s with elapse := Function.update s.elapse m e } :=
    ⟨_, rfl⟩
  have hel : s₁.elapse m = e := by rw [hs₁]; exact Function.update_self ..
  have hp₁ : Pending L a.due s₁ t := by
    rw [hs₁]
    exact ⟨hp.planted, hp.timer, hp.near, hp.armed⟩
  have hnow₁ : s₁.now = s.now := by rw [hs₁]
  obtain ⟨s', hs', hleft⟩ := setCpuTimer_spec (k := k) hp₁ hm hnone (by rwa [hel]) (by rwa [hel])
    (by rwa [hnow₁]) h₁ h₂ hlt hlag
  rw [hel] at hleft
  have hnow : s.now ≤ n₂ := by
    rw [UInt64.le_iff_toNat_le] at h₀ h₁ h₂ ⊢
    exact le_trans h₀ (le_trans h₁ h₂)
  obtain ⟨c, hc, hsoon, hlate⟩ := hleft.cval
  refine ⟨{ s' with now := n₂ }, _, ?_, .set hnone, hleft.pending, ?_, ?_⟩
  · simp only [step]
    rw [← hs₁, hs', Option.map_some]
  · refine h.clocked.update (k := k) (c := c) (by rw [hc, hs₁]) hnow ?_ hsoon hlate
    refine put_other (fun k' d' hd => ?_) (fun k' d' hd => ?_)
    · rw [hnone] at hd
      cases hd
    · cases hd
      rfl
  · exact hleft.called.trans (by rw [hs₁]; exact h.called)

/-- A call of `cancel_cpu_timer` -/
theorem sim_cancel {a : Alarms} {m : ℕ} (h : Sim L s a)
    (hok : s.Ok L (.cancel k m n₁ n₂)) :
    ∃ s' a', s.step L (.cancel k m n₁ n₂) = some s' ∧
      Alarms.Step L a (.cancel k m n₁ n₂) a' ∧ Sim L s' a' := by
  obtain ⟨t, hp⟩ := h.pending
  obtain ⟨harmed, hl, hlag⟩ := hok
  obtain ⟨h₁, -, hl₁⟩ := hl.cons
  obtain ⟨h₂, hlt, -⟩ := hl₁.cons
  obtain ⟨d, hd⟩ : ∃ d, a.due m = some (k, d) := by
    have := hp.armed m
    rw [harmed] at this
    obtain ⟨⟨k', d⟩, hd, rfl⟩ := Option.map_eq_some_iff.mp this.symm
    exact ⟨d, hd⟩
  obtain ⟨s', hs', hleft⟩ := cancelCpuTimer_spec hp hd h₁ h₂ hlt hlag
  have hnow : s.now ≤ n₂ := by
    rw [UInt64.le_iff_toNat_le] at h₁ h₂ ⊢
    exact le_trans h₁ h₂
  obtain ⟨c, hc, hsoon, hlate⟩ := hleft.cval
  refine ⟨{ s' with now := n₂ }, _, by simp only [step, hs', Option.map_some], .cancel hd,
    hleft.pending, ?_, hleft.called.trans h.called⟩
  refine h.clocked.update hc hnow ?_ hsoon hlate
  refine put_other (fun k' d' hd' => ?_) (fun k' d' hd' => by cases hd')
  rw [hd] at hd'
  cases hd'
  rfl

/-- An interrupt of the clock -/
theorem sim_clock {a : Alarms} {n : UInt64} (h : Sim L s a)
    (hok : s.Ok L (.clock k n₀ n n₁ n₂)) :
    ∃ s' a', s.step L (.clock k n₀ n n₁ n₂) = some s' ∧
      Alarms.Step L a (.clock k n₀ n n₁ n₂) a' ∧ Sim L s' a' := by
  obtain ⟨t, hp⟩ := h.pending
  obtain ⟨hirq, hl, hlag⟩ := hok
  obtain ⟨h₀, hlt₀, hl₀⟩ := hl.cons
  obtain ⟨c₀, hc₀, -⟩ := resetClock_spec (L := L) s k 1000 L.second hlt₀
  obtain ⟨s₁, hs₁⟩ : ∃ s₁, s₁ = { s with cval := Function.update s.cval k c₀ } := ⟨_, rfl⟩
  rw [← hs₁] at hc₀
  have hl' : s₁.Later [n, n₁, n₂] := by
    rw [hs₁]
    obtain ⟨hpw, hall⟩ := hl
    refine ⟨?_, fun x hx => hall x (List.mem_cons_of_mem _ hx)⟩
    exact hpw.sublist ((List.sublist_cons_self _ _).cons_cons _)
  have hp₁ : Pending L a.due s₁ t := by
    rw [hs₁]
    exact ⟨hp.planted, hp.timer, hp.near, hp.armed⟩
  obtain ⟨hn, -, hln⟩ := hl₀.cons
  obtain ⟨hn₁, -, hln₁⟩ := hln.cons
  obtain ⟨hn₂, -, -⟩ := hln₁.cons
  have hnow : s.now ≤ n₂ := by
    rw [UInt64.le_iff_toNat_le] at h₀ hn hn₁ hn₂ ⊢
    exact le_trans h₀ (le_trans hn (le_trans hn₁ hn₂))
  rcases handlerRound_spec (k := k) hp₁ hl' hlag with ⟨hs, hquiet⟩ |
    ⟨s', m, d, hs, hfirst, hdue, hcalled, hpend, c, hc, hsoon, hlate⟩
  · -- the interrupt came when a timer was due, so there is none
    have hnone : ∀ m d, a.due m ≠ some (k, d) := by
      intro m d hd
      obtain ⟨m', d', hd', hle⟩ := h.clocked.late hd
      have hq := hquiet m' d' hd'
      rw [UInt64.le_iff_toNat_le] at hirq hn
      have hdn : d' * L.oneMs.toNat ≤ n.toNat := le_trans hle (le_trans hirq hn)
      have := (Nat.le_div_iff_mul_le L.oneMs_pos).mpr hdn
      omega
    refine ⟨{ s₁ with now := n₂ }, a, ?_, .clock (.quiet hquiet),
      ⟨t, ?_⟩, ?_, by rw [hs₁]; exact h.called⟩
    · simp only [step, hc₀, Option.bind_eq_bind, Option.bind_some, hs]
    · exact hp₁.later (by rw [hs₁]; exact hnow)
    · refine h.clocked.update (k := k) (c := c₀) (by rw [hs₁]) hnow
        (fun _ _ _ _ => Iff.rfl) (fun m d hd => absurd hd (hnone m d))
        fun m d hd => absurd hd (hnone m d)
  · refine ⟨{ s' with now := n₂ }, _, ?_, .clock (.call hfirst hdue), hpend, ?_, ?_⟩
    · simp only [step, hc₀, Option.bind_eq_bind, Option.bind_some, hs]
    · refine h.clocked.update (k := k) (c := c) ?_ hnow ?_ hsoon hlate
      · change s'.cval = _
        rw [hc, hs₁, Function.update_idem]
      · refine put_other (fun k' d' hd => ?_) (fun k' d' hd => by cases hd)
        rw [hfirst.1] at hd
        cases hd
        rfl
    · exact hcalled.trans (by rw [hs₁, h.called])

/-- **A step does what `Alarms.Step` says**, and no assertion fails. -/
theorem sim_step {a : Alarms} {op : TimerOp} (h : Sim L s a) (hok : s.Ok L op) :
    ∃ s' a', s.step L op = some s' ∧ Alarms.Step L a op a' ∧ Sim L s' a' := by
  cases op with
  | set k m e n₀ n₁ n₂ => exact sim_set h hok
  | cancel k m n₁ n₂ => exact sim_cancel h hok
  | clock k n₀ n n₁ n₂ => exact sim_clock h hok
  | round k n n₁ n₂ =>
      obtain ⟨hl, hlag⟩ := hok
      obtain ⟨s', a', hs', hround, hsim⟩ := sim_round (k := k) h hl hlag
      exact ⟨_, a', by simp only [step, hs', Option.map_some], .round hround, hsim⟩

/-- The trees are empty. -/
theorem Init.sim (h : s.Init) : Sim L s .init where
  pending := by
    refine ⟨fun _ => .nil, ?_, ?_, ?_, fun n => h.armed n⟩
    · refine ⟨fun g => ⟨h.roots g, trivial⟩, fun _ => List.nodup_nil, fun _ => ⟨0, .nil⟩,
        fun _ => List.Pairwise.nil, fun n g => ?_⟩
      simp [Alarms.init]
    all_goals
      intro n k d hd
      cases hd
  clocked := by
    constructor
    all_goals
      intro n k d hd
      cases hd
  called := h.called

/-- A run of the kernel -/
inductive Run (L : TimerLayout) (s₀ : TimerSys) : List TimerOp → TimerSys → Prop
  | nil : Run L s₀ [] s₀
  | snoc {ops : List TimerOp} {op : TimerOp} {s s' : TimerSys} :
      Run L s₀ ops s → s.Ok L op → s.step L op = some s' → Run L s₀ (ops ++ [op]) s'

theorem Run.sim {s₀ : TimerSys} {ops : List TimerOp} (h₀ : s₀.Init) (h : Run L s₀ ops s) :
    ∃ a, Alarms.Run L .init ops a ∧ Sim L s a := by
  induction h with
  | nil => exact ⟨_, .nil, h₀.sim⟩
  | snoc _ hok hs ih =>
      obtain ⟨a, ha, hsim⟩ := ih
      obtain ⟨s', a', hs', hstep, hsim'⟩ := sim_step hsim hok
      cases hs.symm.trans hs'
      exact ⟨a', ha.snoc hstep, hsim'⟩

/-- **Timers go off once, in order, and never too early**: the calls of the handlers in a run of
the kernel are those of the same run of `Alarms`; and whatever call the kernel makes next, no
assertion of it fails. -/
theorem timers_go_off {s₀ : TimerSys} {ops : List TimerOp} (h₀ : s₀.Init) (h : Run L s₀ ops s) :
    ∃ a, Alarms.Run L .init ops a ∧ s.called = a.called ∧
      (∀ t, s.armed t = (a.due t).map Prod.fst) ∧
      ∀ op, s.Ok L op → ∃ s', s.step L op = some s' := by
  obtain ⟨a, ha, hsim⟩ := h.sim h₀
  obtain ⟨t, hp⟩ := hsim.pending
  refine ⟨a, ha, hsim.called, hp.armed, fun op hok => ?_⟩
  obtain ⟨s', -, hs', -⟩ := sim_step hsim hok
  exact ⟨s', hs'⟩

/-- **The clock is set in time**: it interrupts at the latest a millisecond and the lag after
the first timer is due, or at once; and not before, so that the interrupt finds a timer to
call. -/
theorem clock_in_time {s₀ : TimerSys} {ops : List TimerOp} (h₀ : s₀.Init) (h : Run L s₀ ops s) :
    (∀ t k, s.armed t = some k → (s.cval k).toNat ≤
      max ((s.key t).toNat * L.oneMs.toNat + L.oneMs.toNat + L.lag) s.now.toNat) ∧
    ∀ t k n₀ n n₁ n₂, s.armed t = some k → s.Ok L (.clock k n₀ n n₁ n₂) →
      ∃ s' t', s.step L (.clock k n₀ n n₁ n₂) = some s' ∧ s.armed t' = some k ∧
        s'.called = (t', k) :: s.called := by
  obtain ⟨a, -, hsim⟩ := h.sim h₀
  obtain ⟨t, hp⟩ := hsim.pending
  have hdue : ∀ {m k}, s.armed m = some k → ∃ d, a.due m = some (k, d) := by
    intro m k hm
    rw [hp.armed] at hm
    obtain ⟨⟨k', d⟩, hd, rfl⟩ := Option.map_eq_some_iff.mp hm
    exact ⟨d, hd⟩
  refine ⟨fun m k hm => ?_, fun m k n₀ n n₁ n₂ hm hok => ?_⟩
  · obtain ⟨d, hd⟩ := hdue hm
    rw [(hp.timer hd).2.1]
    exact hsim.clocked.soon hd
  · obtain ⟨d, hd⟩ := hdue hm
    obtain ⟨s', a', hs', hstep, hsim'⟩ := sim_step hsim hok
    cases hstep with
    | clock hround =>
        cases hround with
        | @call t' d' hfirst hle =>
            refine ⟨s', t', hs', ?_, ?_⟩
            · rw [hp.armed, hfirst.1]
              rfl
            · rw [hsim'.called, hsim.called]
        | quiet hq =>
            -- the counter is past the time that the first timer is due
            obtain ⟨m', d', hd', hle⟩ := hsim.clocked.late hd
            obtain ⟨hirq, hl, -⟩ := hok
            obtain ⟨-, -, hl₀⟩ := hl.cons
            obtain ⟨hn, -, -⟩ := hl₀.cons
            rw [UInt64.le_iff_toNat_le] at hirq hn
            have hdn : d' * L.oneMs.toNat ≤ n.toNat := le_trans hle (le_trans hirq hn)
            have h1 := (Nat.le_div_iff_mul_le L.oneMs_pos).mpr hdn
            have h2 := hq m' d' hd'
            omega

/-! ## A run of one timer -/

def smallTimers : TimerLayout where
  timers := {8}
  isNode := by
    intro t ht
    cases Finset.mem_singleton.mp ht
    exact ⟨by decide, by decide⟩
  oneMs := 2
  oneMs_pos := by decide
  second := by decide
  lag := 0

def smallTimerSys : TimerSys :=
  ⟨⟨fun _ => ⟨0, 0, 0⟩, fun _ => 0⟩, fun _ => false, fun _ => 0, fun _ => 0, fun _ => 2000, 0,
    fun _ => none, []⟩

theorem small_timer_set : ∃ s, Run smallTimers smallTimerSys [.set 0 8 5 10 10 10] s ∧
    s.cval 0 = 20 ∧ s.now = 10 ∧ s.armed 8 = some 0 := by
  refine ⟨_, Run.nil.snoc ?_ rfl, rfl, rfl, rfl⟩
  refine ⟨by decide, rfl, by decide, by decide, ⟨by decide, by simp⟩, by decide⟩

theorem timers_go_off_small : ∃ s a, Run smallTimers smallTimerSys
    [.set 0 8 5 10 10 10, .clock 0 20 20 20 20] s ∧
      Alarms.Run smallTimers .init [.set 0 8 5 10 10 10, .clock 0 20 20 20 20] a ∧
      s.called = [(8, 0)] ∧ a.called = [(8, 0)] := by
  have hr : ∃ s, Run smallTimers smallTimerSys [.set 0 8 5 10 10 10, .clock 0 20 20 20 20] s ∧
      s.called = [(8, 0)] := by
    refine ⟨_, (Run.nil.snoc ?_ rfl).snoc ?_ rfl, rfl⟩
    · refine ⟨by decide, rfl, by decide, by decide, ⟨by decide, by simp⟩, by decide⟩
    · refine ⟨by decide, ⟨by decide, by simp⟩, by decide⟩
  obtain ⟨s, hs, hc⟩ := hr
  obtain ⟨a, ha, hca, -⟩ := timers_go_off ⟨fun _ => rfl, fun _ => rfl, rfl⟩ hs
  exact ⟨s, a, hs, ha, hc, hca.symm.trans hc⟩

theorem clock_in_time_small : ∃ s s' t, Run smallTimers smallTimerSys [.set 0 8 5 10 10 10] s ∧
    s.step smallTimers (.clock 0 20 20 20 20) = some s' ∧ s'.called = (t, 0) :: s.called := by
  obtain ⟨s, hs, hc, hn, ha⟩ := small_timer_set
  have hok : s.Ok smallTimers (.clock 0 20 20 20 20) := by
    refine ⟨by rw [hc]; decide, ⟨?_, by simp⟩, by decide⟩
    rw [hn]
    decide
  obtain ⟨s', t, hs', -, hcalled⟩ := (clock_in_time ⟨fun _ => rfl, fun _ => rfl, rfl⟩ hs).2 8 0 20 20
    20 20 ha hok
  exact ⟨s, s', t, hs, hs', hcalled⟩

end TimerSys

end OsLab
