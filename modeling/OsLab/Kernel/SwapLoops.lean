import OsLab.Kernel.SwapSteps
import Mathlib.Data.Nat.Count

/-!
# The loops of `swapout` and `swapin`

A section is given by the numbers `x 0`, `x 1`, … of its pages in directory `pd`.  From
a view in which the mapped pages are the section's own, each loop keeps an invariant
that compares the view with the one at the start: `Hiding` and `Writing` for `swapout`,
`Reading` for `swapin`.

What a page is after the trip is read off the start: `View.back` is the page made of
the blocks that were stored for it.

## Main definitions

* `View.Uses`, `View.own`, `View.run`, `View.back` — a page, its run, and what comes back.
* `Owns` — the section's pages are its own.
* `Hiding`, `Writing`, `Reading` — the invariants.
-/

namespace OsLab

namespace View

/-- Page `k` is mapped. -/
def Uses (v : View) (pd : ℕ) (x : ℕ → ℕ) (k : ℕ) : Prop := v.entry pd (x k) ≠ 0

instance (v : View) (pd : ℕ) (x : ℕ → ℕ) : DecidablePred (v.Uses pd x) :=
  fun k => inferInstanceAs (Decidable (v.entry pd (x k) ≠ 0))

/-- The page that is mapped as page `k`. -/
def own (v : View) (pd : ℕ) (x : ℕ → ℕ) (k : ℕ) : ℕ := entryPage (v.entry pd (x k))

/-- The first block of the run that page `k` gets. -/
def run (v : View) (pd : ℕ) (x : ℕ → ℕ) (k : ℕ) : ℕ := runAt (v.Uses pd x) v.swapValid k

/-- What block `b` of that run holds afterwards. -/
def block (v : View) (pd : ℕ) (x : ℕ → ℕ) (k b : ℕ) : Bytes 512 :=
  v.outBlock (x k) (v.run pd x k + b)

/-- What comes back as page `k`. -/
def back (v : View) (pd : ℕ) (x : ℕ → ℕ) (k : ℕ) : Bytes 4096 :=
  Bytes.ofFn fun i => (v.block pd x k (i / 512)).get (i % 512)

end View

/-- **The first `n` pages are the section's own.** -/
structure Owns (T : TableMap) (v : View) (pd n : ℕ) (x : ℕ → ℕ) : Prop where
  addr : ∀ k, k < n → v.Uses pd x k → v.entry pd (x k) &&& notValid ≠ 0
  held : ∀ k, k < n → v.Uses pd x k → v.own pd x k ∈ v.held
  plain : ∀ k, k < n → v.Uses pd x k → v.zeroPage ≠ some (v.own pd x k)
  inj : ∀ j k, j < n → k < n → v.Uses pd x j → v.Uses pd x k → v.own pd x j = v.own pd x k → j = k
  /-- what the current process has at the same place is no page table -/
  leaf : ∀ k, k < n → v.Uses pd x k → v.entry v.cur (x k) ≠ 0 →
    ¬ IsLeaf T (entryPage (v.entry v.cur (x k)))
  /-- and no other page of the section -/
  apart : ∀ j k, j < n → k < n → v.Uses pd x j → v.Uses pd x k → v.entry v.cur (x k) ≠ 0 →
    entryPage (v.entry v.cur (x k)) = v.own pd x j → j = k

/-- After `k` rounds of the first loop of `swapout`. -/
structure Hiding (v₀ : View) (pd : ℕ) (x : ℕ → ℕ) (k : ℕ) (v : View) : Prop where
  rest : v = { v₀ with entry := v.entry }
  other : ∀ pd', pd' ≠ pd → v.entry pd' = v₀.entry pd'
  done : ∀ i, i < k → v.entry pd (x i) = v₀.entry pd (x i) &&& notValid
  todo : ∀ y, (∀ i, i < k → y ≠ x i) → v.entry pd y = v₀.entry pd y

/-- What neither loop touches. -/
structure Stays (v₀ v : View) : Prop where
  cur : v.cur = v₀.cur
  image : v.image = v₀.image
  sections : v.sections = v₀.sections
  zeroPage : v.zeroPage = v₀.zeroPage

/-- After `k` rounds of the second loop of `swapout`. -/
structure Writing (v₀ : View) (pd n : ℕ) (x : ℕ → ℕ) (k : ℕ) (v : View) : Prop where
  stays : Stays v₀ v
  other : ∀ pd', pd' ≠ pd → v.entry pd' = v₀.entry pd'
  todo : ∀ i, i < n → k ≤ i → v.entry pd (x i) = v₀.entry pd (x i) &&& notValid
  done : ∀ i, i < k → v.entry pd (x i) = if v₀.Uses pd x i then v₀.run pd x i <<< 12 else 0
  mem : ∀ q, (∀ i, i < k → v₀.Uses pd x i → q ≠ v₀.own pd x i) → v.mem q = v₀.mem q
  held : ∀ i, i < n → k ≤ i → v₀.Uses pd x i → v₀.own pd x i ∈ v.held
  runs : takeRuns (v₀.Uses pd x) v₀.swapValid k = some v.swapValid
  written : ∀ i, i < k → v₀.Uses pd x i → ∀ b, b < 8 →
    v.disk (v₀.run pd x i + b) = v₀.block pd x i b
  /-- the other blocks are as they were -/
  stale : ∀ c, (∀ i, i < k → v₀.Uses pd x i → ∀ b, b < 8 → c ≠ v₀.run pd x i + b) →
    v.disk c = v₀.disk c
  count : v.allocPageCnt = v₀.allocPageCnt - Nat.count (v₀.Uses pd x) k

/-- After `k` rounds of the first loop of `swapin`. -/
structure Reading (v₀ : View) (pd n : ℕ) (x : ℕ → ℕ) (k : ℕ) (v : View) : Prop where
  stays : Stays v₀ v
  todo : ∀ i, i < n → k ≤ i → v.entry pd (x i) = if v₀.Uses pd x i then v₀.run pd x i <<< 12 else 0
  done : ∀ i, i < k → v₀.Uses pd x i → ∃ p, p ∈ v.held ∧
    v.entry pd (x i) = (k2p p ||| pteUserData ||| pteValid) % 2 ^ 64 ∧ v.mem p = v₀.back pd x i
  zero : ∀ i, i < k → ¬ v₀.Uses pd x i → v.entry pd (x i) = 0
  disk : ∀ i, i < n → v₀.Uses pd x i → ∀ b, b < 8 → v.disk (v₀.run pd x i + b) = v₀.block pd x i b
  flags : ∀ j, v.swapValid j = true ↔ v₀.swapValid j = true ∨
    ∃ i, k ≤ i ∧ i < n ∧ v₀.Uses pd x i ∧ InRun (v₀.run pd x i) j
  count : v.allocPageCnt =
    v₀.allocPageCnt - Nat.count (v₀.Uses pd x) n + Nat.count (v₀.Uses pd x) k

/-! ## Entries -/

theorem pteAddress_and_notValid (e : ℕ) : pteAddress (e &&& notValid) = pteAddress e := by
  rw [pteAddress, pteAddress, Nat.and_assoc]
  congr 1

theorem entryPage_and_notValid (e : ℕ) : entryPage (e &&& notValid) = entryPage e := by
  rw [entryPage, entryPage, pteAddress_and_notValid]

/-- A block number of the swap area survives in an entry. -/
theorem run_entry {bno : ℕ} (hlo : swapStart ≤ bno) (hhi : bno + 8 ≤ swapEnd) :
    bno <<< 12 &&& notValid = bno <<< 12 ∧ bno <<< 12 ≠ 0 ∧ bno <<< 12 >>> 12 = bno := by
  have hmask : notValid = (2 ^ 63 - 1) <<< 1 := by decide
  simp only [swapStart, swapEnd] at hlo hhi
  refine ⟨?_, ?_, ?_⟩
  · have hlt : bno <<< 11 < 2 ^ 63 := by
      rw [Nat.shiftLeft_eq]
      omega
    rw [show bno <<< 12 = (bno <<< 11) <<< 1 from Nat.shiftLeft_add bno 11 1, hmask,
      ← Nat.shiftLeft_and_distrib, Nat.and_two_pow_sub_one_eq_mod, Nat.mod_eq_of_lt hlt]
  · rw [Nat.shiftLeft_eq]
    omega
  · rw [Nat.shiftLeft_eq, Nat.shiftRight_eq_div_pow]
    omega

theorem userEntry_valid {p : ℕ} (h : GoodPage p) :
    (k2p p ||| pteUserData ||| pteValid) % 2 ^ 64 &&& pteValid ≠ 0 ∧
      entryPage ((k2p p ||| pteUserData ||| pteValid) % 2 ^ 64) = p ∧
      ((k2p p ||| pteUserData ||| pteValid) % 2 ^ 64 ||| pteValid) % 2 ^ 64 =
        (k2p p ||| pteUserData ||| pteValid) % 2 ^ 64 := by
  obtain ⟨hvalid, hpage⟩ := Machine.userEntry h
  have hrw : pteUserData ||| pteRw = pteUserData := by decide
  rw [hrw] at hvalid hpage
  refine ⟨hvalid, hpage, ?_⟩
  have hflags : pteUserData ||| pteValid = 1607 := by decide
  rw [Nat.or_assoc, hflags, Nat.mod_eq_of_lt (h.entry_lt (by decide)), Nat.or_assoc]
  have hidem : 1607 ||| pteValid = 1607 := by decide
  rw [hidem, Nat.mod_eq_of_lt (h.entry_lt (by decide))]

namespace View

variable {v : View} {pd pd' x x' e : ℕ}

theorem store_entry : (v.store pd x e).entry pd' x' =
    if pd' = pd ∧ x' = x then e else v.entry pd' x' := rfl

theorem store_swapValid : (v.store pd x e).swapValid = v.swapValid := rfl

@[simp] theorem store_entry_self : (v.store pd x e).entry pd x = e := by
  simp [store_entry]

theorem store_entry_of_ne (h : x' ≠ x) : (v.store pd x e).entry pd x' = v.entry pd x' := by
  simp [store_entry, h]

theorem store_entry_other (h : pd' ≠ pd) : (v.store pd x e).entry pd' = v.entry pd' := by
  funext y
  simp [store_entry, h]

end View

/-! ## Hiding -/

namespace Hiding

variable {v₀ v : View} {pd k : ℕ} {x : ℕ → ℕ}

theorem init (v₀ : View) (pd : ℕ) (x : ℕ → ℕ) : Hiding v₀ pd x 0 v₀ := by
  constructor
  case rest => rfl
  case other => exact fun _ _ => rfl
  case done => exact fun i hi => absurd hi (Nat.not_lt_zero i)
  case todo => exact fun _ _ => rfl

theorem step (h : Hiding v₀ pd x k v) :
    Hiding v₀ pd x (k + 1) (v.store pd (x k) (v.entry pd (x k) &&& notValid)) := by
  constructor
  case rest => rw [h.rest]; rfl
  case other =>
    intro pd' hne
    rw [View.store_entry_other hne, h.other pd' hne]
  case done =>
    intro i hi
    by_cases hx : x i = x k
    · rw [hx, View.store_entry_self]
      by_cases hold : ∃ j, j < k ∧ x k = x j
      · -- an entry that is hidden already stays as it is
        obtain ⟨j, hj, heq⟩ := hold
        rw [heq, h.done j hj, Nat.and_assoc, Nat.and_self]
      · rw [h.todo (x k) fun j hj heq => hold ⟨j, hj, heq⟩]
    · rw [View.store_entry_of_ne hx]
      have hik : i ≠ k := by
        rintro rfl
        exact hx rfl
      exact h.done i (by omega)
  case todo =>
    intro y hy
    rw [View.store_entry_of_ne (hy k (by omega))]
    exact h.todo y fun i hi => hy i (by omega)

end Hiding

theorem Machine.hide_loop {all : List ℕ} {T : TableMap} {s : Machine} (h : PtOk all T s.pt)
    (pd : ℕ) (addr : ℕ → ℕ) (n : ℕ) : ∃ s', iterM (fun k s => s.hide pd (addr k)) n s = some s' ∧
      PtOk all T s'.pt ∧ Hiding (s.view T) pd (fun k => vpn (addr k)) n (s'.view T) := by
  refine iterM_progress n (fun k (t : Machine) => PtOk all T t.pt ∧
    Hiding (s.view T) pd (fun k => vpn (addr k)) k (t.view T)) ⟨h, Hiding.init _ _ _⟩ ?_
  intro k t _ hP
  obtain ⟨t', ht', hg⟩ := hide_goes hP.1 pd (addr k)
  refine ⟨t', ht', hg.ok, ?_⟩
  rw [hg.view]
  exact hP.2.step

/-! ## Writing -/

namespace Owns

variable {T : TableMap} {v₀ v : View} {pd n i j k : ℕ} {x : ℕ → ℕ}

/-- No other page of the section has the number of a mapped page. -/
theorem number_ne (h : Owns T v₀ pd n x) (hi : i < n) (hk : k < n) (hu : v₀.Uses pd x k)
    (hne : i ≠ k) : x i ≠ x k := by
  intro heq
  have hui : v₀.Uses pd x i := by
    rw [View.Uses, heq]
    exact hu
  refine hne (h.inj i k hi hk hui hu ?_)
  rw [View.own, View.own, heq]

theorem runs_spec (hr : (takeRuns (v₀.Uses pd x) v₀.swapValid n).isSome) (hk : k < n)
    (hu : v₀.Uses pd x k) : v₀.run pd x k <<< 12 &&& notValid = v₀.run pd x k <<< 12 ∧
      v₀.run pd x k <<< 12 ≠ 0 ∧ v₀.run pd x k <<< 12 >>> 12 = v₀.run pd x k := by
  obtain ⟨hlo, hhi, -⟩ := runAt_spec hr hk hu
  exact run_entry hlo hhi

end Owns

namespace Writing

variable {T : TableMap} {v₀ v : View} {pd n k : ℕ} {x : ℕ → ℕ}

/-- After the first loop. -/
theorem init (h : Hiding v₀ pd x n v) (hown : Owns T v₀ pd n x) : Writing v₀ pd n x 0 v := by
  have hmem : v.mem = v₀.mem := by rw [h.rest]
  have hheld : v.held = v₀.held := by rw [h.rest]
  have hdisk : v.disk = v₀.disk := by rw [h.rest]
  have hvalid : v.swapValid = v₀.swapValid := by rw [h.rest]
  constructor
  case stays => constructor <;> rw [h.rest]
  case other => exact h.other
  case todo => exact fun i hi _ => h.done i hi
  case mem => exact fun q _ => congrFun hmem q
  case held => exact fun i hi _ hu => hheld ▸ hown.held i hi hu
  case runs => rw [hvalid]; rfl
  case stale => exact fun c _ => congrFun hdisk c
  case count =>
    rw [h.rest]
    simp
  all_goals exact fun i hi => absurd hi (Nat.not_lt_zero i)

/-- A page that is not mapped. -/
theorem skip (h : Writing v₀ pd n x k v) (hk : k < n) (hu : ¬ v₀.Uses pd x k) :
    Writing v₀ pd n x (k + 1) v := by
  have h0 : v.entry pd (x k) = 0 := by
    have hz : v₀.entry pd (x k) = 0 := not_not.mp hu
    rw [h.todo k hk (le_refl k), hz, Nat.zero_and]
  have hlt : ∀ i, i < k + 1 → v₀.Uses pd x i → i < k := by
    intro i hi hui
    have hik : i ≠ k := by
      rintro rfl
      exact hu hui
    omega
  constructor
  case stays => exact h.stays
  case other => exact h.other
  case todo => exact fun i hi hki => h.todo i hi (by omega)
  case done =>
    intro i hi
    by_cases hik : i = k
    · rw [hik, h0, if_neg hu]
    · exact h.done i (by omega)
  case mem => exact fun q hq => h.mem q fun i hi => hq i (by omega)
  case held => exact fun i hi hki => h.held i hi (by omega)
  case runs => rw [takeRuns_skip hu, h.runs]
  case written => exact fun i hi hui => h.written i (hlt i hi hui) hui
  case stale => exact fun c hc => h.stale c fun i hi => hc i (by omega)
  case count => rw [h.count, Nat.count_succ, if_neg hu, Nat.add_zero]

/-- The current process has at page `k` what it had at the start. -/
theorem cur_entry (h : Writing v₀ pd n x k v) (hown : Owns T v₀ pd n x) (hk : k < n)
    (hu : v₀.Uses pd x k) : (v.entry v.cur (x k) = 0 ↔ v₀.entry v₀.cur (x k) = 0) ∧
      entryPage (v.entry v.cur (x k)) = entryPage (v₀.entry v₀.cur (x k)) := by
  rw [h.stays.cur]
  by_cases hpd : v₀.cur = pd
  · rw [hpd, h.todo k hk (le_refl k), entryPage_and_notValid]
    exact ⟨iff_of_false (hown.addr k hk hu) hu, rfl⟩
  · rw [h.other v₀.cur hpd]
    exact ⟨Iff.rfl, rfl⟩

/-- What is found at the place of page `k` is what was there at the start. -/
theorem outBlock_eq (h : Writing v₀ pd n x k v) (hown : Owns T v₀ pd n x)
    (hr : (takeRuns (v₀.Uses pd x) v₀.swapValid n).isSome) (hk : k < n) (hu : v₀.Uses pd x k)
    {b : ℕ} (hb : b < 8) : v.outBlock (x k) (v₀.run pd x k + b) = v₀.block pd x k b := by
  have hentry := h.cur_entry hown hk hu
  rw [View.block, View.outBlock, View.outBlock]
  by_cases h0 : v₀.entry v₀.cur (x k) = 0
  · rw [if_pos (hentry.1.mpr h0), if_pos h0]
    apply h.stale
    intro i hi hui c hc
    exact runAt_ne hr hk (by omega) hu hui (by omega) hb hc
  · rw [if_neg (fun hz => h0 (hentry.1.mp hz)), if_neg h0, hentry.2, h.mem]
    intro i hi hui heq
    have := hown.apart i k (by omega) hk hui hu h0 heq
    omega

/-- **A page goes to the disk.** -/
theorem step (h : Writing v₀ pd n x k v) (hown : Owns T v₀ pd n x)
    (hr : (takeRuns (v₀.Uses pd x) v₀.swapValid n).isSome) (hk : k < n) (hu : v₀.Uses pd x k)
    {valid : ℕ → Bool} (hv : takeRuns (v₀.Uses pd x) v₀.swapValid (k + 1) = some valid) :
    Writing v₀ pd n x (k + 1)
      (({ v.writeOut (x k) (v₀.run pd x k) 8 with swapValid := valid }.giveBack
        (v₀.own pd x k)).store pd (x k) (v₀.run pd x k <<< 12)) := by
  constructor
  case stays => exact ⟨h.stays.cur, h.stays.image, h.stays.sections, h.stays.zeroPage⟩
  case other =>
    intro pd' hne
    rw [View.store_entry_other hne]
    exact h.other pd' hne
  case todo =>
    intro i hi hki
    rw [View.store_entry_of_ne (hown.number_ne hi hk hu (by omega))]
    exact h.todo i hi (by omega)
  case done =>
    intro i hi
    by_cases hik : i = k
    · rw [hik, View.store_entry_self, if_pos hu]
    · rw [View.store_entry_of_ne (hown.number_ne (by omega) hk hu hik)]
      exact h.done i (by omega)
  case mem =>
    intro q hq
    show Function.update v.mem (v₀.own pd x k) _ q = v₀.mem q
    rw [Function.update_of_ne (hq k (by omega) hu)]
    exact h.mem q fun i hi => hq i (by omega)
  case held =>
    intro i hi hki hui
    show v₀.own pd x i ∈ v.held.erase (v₀.own pd x k)
    have hne : v₀.own pd x i ≠ v₀.own pd x k := by
      intro heq
      have := hown.inj i k hi hk hui hu heq
      omega
    exact (List.mem_erase_of_ne hne).mpr (h.held i hi (by omega) hui)
  case runs => exact hv
  case written =>
    intro i hi hui b hb
    show (if v₀.run pd x k ≤ v₀.run pd x i + b ∧ v₀.run pd x i + b < v₀.run pd x k + 8
      then v.outBlock (x k) (v₀.run pd x i + b) else v.disk (v₀.run pd x i + b)) = _
    by_cases hik : i = k
    · rw [hik, if_pos (by omega)]
      exact h.outBlock_eq hown hr hk hu hb
    · rw [if_neg]
      · exact h.written i (by omega) hui b hb
      · rintro ⟨hlo, hhi⟩
        have hne := runAt_ne hr (show i < n by omega) hk hui hu hik hb
          (show v₀.run pd x i + b - v₀.run pd x k < 8 by omega)
        exact hne (show v₀.run pd x i + b = v₀.run pd x k + _ by omega)
  case stale =>
    intro c hc
    show (if v₀.run pd x k ≤ c ∧ c < v₀.run pd x k + 8 then v.outBlock (x k) c else v.disk c) = _
    rw [if_neg]
    · exact h.stale c fun i hi => hc i (by omega)
    · rintro ⟨hlo, hhi⟩
      exact hc k (by omega) hu (c - v₀.run pd x k) (by omega) (by omega)
  case count =>
    show v.allocPageCnt - 1 = _
    rw [h.count, Nat.count_succ, if_pos hu]
    push_cast
    ring

end Writing

/-! ## Reading -/

namespace Reading

variable {T : TableMap} {v₀ v : View} {pd n k p : ℕ} {x : ℕ → ℕ}

/-- After `swapout`. -/
theorem init (h : Writing v₀ pd n x n v) : Reading v₀ pd n x 0 v := by
  constructor
  case stays => exact h.stays
  case todo => exact fun i hi _ => h.done i hi
  case disk => exact fun i hi hu => h.written i hi hu
  case flags =>
    intro j
    rw [takeRuns_flag h.runs]
    constructor
    · rintro (hold | ⟨i, hi, hu, hin⟩)
      · exact Or.inl hold
      · exact Or.inr ⟨i, Nat.zero_le i, hi, hu, hin⟩
    · rintro (hold | ⟨i, -, hi, hu, hin⟩)
      · exact Or.inl hold
      · exact Or.inr ⟨i, hi, hu, hin⟩
  case count => rw [h.count, Nat.count_zero, Nat.cast_zero, add_zero]
  all_goals exact fun i hi => absurd hi (Nat.not_lt_zero i)

/-- A page that is not mapped. -/
theorem skip (h : Reading v₀ pd n x k v) (hk : k < n) (hu : ¬ v₀.Uses pd x k) :
    Reading v₀ pd n x (k + 1) v := by
  have hne : ∀ i, v₀.Uses pd x i → i ≠ k := by
    rintro i hui rfl
    exact hu hui
  constructor
  case stays => exact h.stays
  case todo => exact fun i hi hki => h.todo i hi (by omega)
  case done =>
    intro i hi hui
    have := hne i hui
    exact h.done i (by omega) hui
  case zero =>
    intro i hi hui
    by_cases hik : i = k
    · rw [hik, h.todo k hk (le_refl k), if_neg hu]
    · exact h.zero i (by omega) hui
  case disk => exact h.disk
  case flags =>
    intro j
    rw [h.flags]
    constructor
    · rintro (hold | ⟨i, hki, hi, hui, hin⟩)
      · exact Or.inl hold
      · have := hne i hui
        exact Or.inr ⟨i, by omega, hi, hui, hin⟩
    · rintro (hold | ⟨i, hki, hi, hui, hin⟩)
      · exact Or.inl hold
      · exact Or.inr ⟨i, by omega, hi, hui, hin⟩
  case count => rw [h.count, Nat.count_succ, if_neg hu, Nat.add_zero]

/-- The blocks of a run make up what comes back. -/
theorem joined_eq (h : Reading v₀ pd n x k v) (hk : k < n) (hu : v₀.Uses pd x k) :
    joined v.disk (v₀.run pd x k) = v₀.back pd x k := by
  apply Bytes.ext_get
  intro i hi
  rw [joined, View.back, Bytes.get_ofFn _ hi, Bytes.get_ofFn _ hi, h.disk k hk hu _ (by omega)]

/-- **A page comes back from the disk.** -/
theorem step (h : Reading v₀ pd n x k v) (ps : List ℕ) (hown : Owns T v₀ pd n x)
    (hr : (takeRuns (v₀.Uses pd x) v₀.swapValid n).isSome) (hk : k < n) (hu : v₀.Uses pd x k)
    (hp : p ∉ v.held) : Reading v₀ pd n x (k + 1)
      ({ (v.take p ps).fill p (joined v.disk (v₀.run pd x k)) with
        swapValid := release8Blocks v.swapValid (v₀.run pd x k) }.store pd (x k)
          ((k2p p ||| pteUserData ||| pteValid) % 2 ^ 64)) := by
  constructor
  case stays => exact ⟨h.stays.cur, h.stays.image, h.stays.sections, h.stays.zeroPage⟩
  case todo =>
    intro i hi hki
    rw [View.store_entry_of_ne (hown.number_ne hi hk hu (by omega))]
    exact h.todo i hi (by omega)
  case done =>
    intro i hi hui
    by_cases hik : i = k
    · subst hik
      refine ⟨p, List.mem_cons_self, View.store_entry_self, ?_⟩
      show Function.update v.mem p _ p = _
      rw [Function.update_self, h.joined_eq hk hu]
    · obtain ⟨q, hq, hentry, hmem⟩ := h.done i (by omega) hui
      have hqp : q ≠ p := by
        rintro rfl
        exact hp hq
      refine ⟨q, List.mem_cons_of_mem p hq, ?_, ?_⟩
      · rw [View.store_entry_of_ne (hown.number_ne (by omega) hk hu hik)]
        exact hentry
      · show Function.update v.mem p _ q = _
        rw [Function.update_of_ne hqp, hmem]
  case zero =>
    intro i hi hui
    have hik : i ≠ k := by
      rintro rfl
      exact hui hu
    rw [View.store_entry_of_ne (hown.number_ne (by omega) hk hu hik)]
    exact h.zero i (by omega) hui
  case disk => exact h.disk
  case flags =>
    intro j
    obtain ⟨hlo, hhi, hfree⟩ := runAt_spec hr hk hu
    rw [← View.run] at hlo hhi
    rw [View.store_swapValid, release8Blocks_iff hlo hhi, h.flags]
    constructor
    · rintro ⟨hout, hold | ⟨i, hki, hi, hui, hin⟩⟩
      · exact Or.inl hold
      · have hik : i ≠ k := by
          rintro rfl
          exact hout hin
        exact Or.inr ⟨i, by omega, hi, hui, hin⟩
    · rintro (hold | ⟨i, hki, hi, hui, hin⟩)
      · refine ⟨fun hin => ?_, Or.inl hold⟩
        rw [(hfree j hin).1] at hold
        cases hold
      · exact ⟨fun hin' => runAt_disjoint hr hk hi hu hui (by omega) hin' hin,
          Or.inr ⟨i, by omega, hi, hui, hin⟩⟩
  case count =>
    show v.allocPageCnt + 1 = _
    rw [h.count, Nat.count_succ, if_pos hu]
    push_cast
    ring

end Reading

/-! ## The loops -/

namespace Machine

variable {all : List ℕ} {T : TableMap} {s : Machine} {v₀ : View} {pd n : ℕ} {addr : ℕ → ℕ}

/-- **The second loop of `swapout`.** -/
theorem pageOut_loop (h : PtOk all T s.pt) (ha : ∀ k, addr k % pageSize = 0)
    (hown : Owns T v₀ pd n fun k => vpn (addr k))
    (hr : (takeRuns (v₀.Uses pd fun k => vpn (addr k)) v₀.swapValid n).isSome)
    (h0 : Writing v₀ pd n (fun k => vpn (addr k)) 0 (s.view T)) :
    ∃ s', iterM (fun k s => s.pageOut pd (addr k)) n s = some s' ∧ PtOk all T s'.pt ∧
      Writing v₀ pd n (fun k => vpn (addr k)) n (s'.view T) := by
  refine iterM_progress n (fun k (t : Machine) => PtOk all T t.pt ∧
    Writing v₀ pd n (fun k => vpn (addr k)) k (t.view T)) ⟨h, h0⟩ ?_
  intro k t hk hP
  obtain ⟨hok, hw⟩ := hP
  by_cases hu : v₀.Uses pd (fun k => vpn (addr k)) k
  · have hentry := hw.todo k hk (le_refl k)
    have hpage : entryPage ((t.view T).entry pd (vpn (addr k))) =
        v₀.own pd (fun k => vpn (addr k)) k := by
      rw [hentry, entryPage_and_notValid]
      rfl
    obtain ⟨valid, hv⟩ := takeRuns_le hr (show k + 1 ≤ n from hk)
    obtain ⟨w, hw', hf⟩ := takeRuns_need hv hu
    rw [hw.runs] at hw'
    cases hw'
    rw [← View.run] at hf
    obtain ⟨t', ht', hg⟩ := pageOut_goes hok pd (addr k) (ha k)
      (by rw [hentry]; exact hown.addr k hk hu)
      (by rw [hpage]; exact hw.held k hk (le_refl k) hu)
      (by rw [hpage, hw.stays.zeroPage]; exact hown.plain k hk hu)
      (by
        intro hne
        have hcur := hw.cur_entry hown hk hu
        rw [show t.cur = (t.view T).cur from rfl] at hne ⊢
        rw [hcur.2]
        exact hown.leaf k hk hu fun hz => hne (hcur.1.mpr hz)) hf
    refine ⟨t', ht', hg.ok, ?_⟩
    have hstep := hw.step hown hr hk hu hv
    rw [hg.view, hpage, (Owns.runs_spec hr hk hu).1]
    exact hstep
  · have hz : (t.view T).entry pd (vpn (addr k)) = 0 := by
      have h0 : v₀.entry pd (vpn (addr k)) = 0 := not_not.mp hu
      rw [hw.todo k hk (le_refl k), h0, Nat.zero_and]
    obtain ⟨t', ht', hg⟩ := onEntry_zero hok hz
    refine ⟨t', ht' _, hg.ok, ?_⟩
    rw [hg.view]
    exact hw.skip hk hu

/-- Where `left_page_cnt` has not run away it can be computed with. -/
theorem leftPageCnt_eq (h : PtOk all T s.pt) (hlen : all.length = totalPage s.image)
    (hle : s.pt.sys.m.allocPageCnt ≤ totalPage s.image) :
    (s.pt.sys.m.leftPageCnt s.image : ℤ) = totalPage s.image - s.pt.sys.m.allocPageCnt ∧
      totalPage s.image - s.pt.sys.m.allocPageCnt ≤ s.pt.sys.m.pages.length := by
  have hpages : s.pt.sys.m.pages.length ≤ totalPage s.image :=
    hlen ▸ (List.subperm_of_subset h.acct.nodup h.acct.sub).length_le
  have hcount := h.acct.count
  rw [hlen] at hcount
  have hsmall : totalPage s.image < 2 ^ 64 := by
    have : totalPage s.image ≤ p2k phystop := (Nat.div_le_self _ _).trans (Nat.sub_le _ _)
    exact lt_of_le_of_lt this (by decide)
  constructor
  · rw [PageMem.leftPageCnt, Int.toNat_of_nonneg (by omega),
      Int.emod_eq_of_lt (by omega) (by omega)]
  · omega

/-- **The first loop of `swapin`.** -/
theorem pageIn_loop (h : PtOk all T s.pt) (hlen : all.length = totalPage v₀.image)
    (hleft : (reversedPages : ℤ) < totalPage v₀.image - v₀.allocPageCnt)
    (hown : Owns T v₀ pd n fun k => vpn (addr k))
    (hr : (takeRuns (v₀.Uses pd fun k => vpn (addr k)) v₀.swapValid n).isSome)
    (h0 : Reading v₀ pd n (fun k => vpn (addr k)) 0 (s.view T)) :
    ∃ s', iterM (fun k s => s.pageIn pd (addr k)) n s = some s' ∧ PtOk all T s'.pt ∧
      Reading v₀ pd n (fun k => vpn (addr k)) n (s'.view T) := by
  refine iterM_progress n (fun k (t : Machine) => PtOk all T t.pt ∧
    Reading v₀ pd n (fun k => vpn (addr k)) k (t.view T)) ⟨h, h0⟩ ?_
  intro k t hk hP
  obtain ⟨hok, hw⟩ := hP
  have hentry := hw.todo k hk (le_refl k)
  by_cases hu : v₀.Uses pd (fun k => vpn (addr k)) k
  · rw [if_pos hu] at hentry
    obtain ⟨-, hne, hback⟩ := Owns.runs_spec hr hk hu
    have himage : t.image = v₀.image := hw.stays.image
    -- at least one of the pages that went out has not come back
    have hcount : (t.pt.sys.m.allocPageCnt : ℤ) =
        v₀.allocPageCnt - Nat.count (v₀.Uses pd fun k => vpn (addr k)) n +
          Nat.count (v₀.Uses pd fun k => vpn (addr k)) k := hw.count
    have hmono := Nat.count_monotone (v₀.Uses pd fun k => vpn (addr k)) (show k + 1 ≤ n from hk)
    rw [Nat.count_succ, if_pos hu] at hmono
    obtain ⟨hcnt, hfree⟩ := leftPageCnt_eq hok (by rw [himage, hlen]) (by rw [himage]; omega)
    rw [himage] at hcnt hfree
    cases hp : (t.view T).free with
    | nil =>
        have hnil : t.pt.sys.m.pages = [] := hp
        rw [hnil, List.length_nil] at hfree
        omega
    | cons p ps =>
        have hpages : t.pt.sys.m.pages = p :: ps := hp
        obtain ⟨t', ht', hg⟩ := pageIn_goes hok pd (addr k)
          (by rw [hentry]; exact hne) (by rw [himage]; omega) hp
        refine ⟨t', ht', hg.ok, ?_⟩
        have hstep := hw.step ps hown hr hk hu (hok.acct.fetch hpages).1
        rw [hentry, hback] at hg
        rw [hg.view]
        exact hstep
  · rw [if_neg hu] at hentry
    obtain ⟨t', ht', hg⟩ := onEntry_zero hok hentry
    refine ⟨t', ht' _, hg.ok, ?_⟩
    rw [hg.view]
    exact hw.skip hk hu

/-- **The second loop of `swapin`** changes nothing: the entries are valid already. -/
theorem reveal_loop (h : PtOk all T s.pt)
    (h0 : Reading v₀ pd n (fun k => vpn (addr k)) n (s.view T)) :
    ∃ s', iterM (fun k s => s.reveal pd (addr k)) n s = some s' ∧ PtOk all T s'.pt ∧
      Reading v₀ pd n (fun k => vpn (addr k)) n (s'.view T) := by
  refine iterM_progress n (fun _ (t : Machine) => PtOk all T t.pt ∧
    Reading v₀ pd n (fun k => vpn (addr k)) n (t.view T)) ⟨h, h0⟩ ?_
  intro k t hk hP
  obtain ⟨hok, hw⟩ := hP
  obtain ⟨t', ht', hg⟩ := reveal_goes (s := t) hok pd (addr k) (by
    intro hne
    have hu : v₀.Uses pd (fun k => vpn (addr k)) k := by
      by_contra hu
      exact hne (hw.zero k hk hu)
    obtain ⟨p, hp, hentry, -⟩ := hw.done k hk hu
    rw [hentry]
    exact (userEntry_valid (hok.good p (hok.acct.held p hp).1)).2.2)
  refine ⟨t', ht', hg.ok, ?_⟩
  rw [hg.view]
  exact hw

end Machine

end OsLab
