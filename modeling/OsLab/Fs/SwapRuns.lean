import OsLab.Fs.Swap

/-!
# Runs taken round by round

A loop that calls `find_and_set_8_blocks` in some of its rounds, and later gives the
runs back in the same order.  The runs are free when they are taken, so no two of them
meet, and giving all of them back restores the flags.

## Main definitions

* `takeRuns`, `runAt` — the flags after some rounds, and the run that a round takes.
* `runAt_ne`, `takeRuns_flag` — runs do not meet, and they are what is set.
-/

namespace OsLab

/-- The flags after `n` rounds, when the rounds that `need` a run take one. -/
def takeRuns (need : ℕ → Prop) [DecidablePred need] (valid : ℕ → Bool) (n : ℕ) :
    Option (ℕ → Bool) :=
  iterM (fun k v => if need k then (findAndSet8Blocks v).map Prod.snd else some v) n valid

/-- The first block of the run that round `k` takes. -/
def runAt (need : ℕ → Prop) [DecidablePred need] (valid : ℕ → Bool) (k : ℕ) : ℕ :=
  (((takeRuns need valid k).bind findAndSet8Blocks).map Prod.fst).getD 0

/-- Flag `i` belongs to the run from block `bno` on. -/
def InRun (bno i : ℕ) : Prop := bno ≤ swapStart + i ∧ swapStart + i < bno + 8

section Rounds

variable {need : ℕ → Prop} [DecidablePred need] {valid v v' : ℕ → Bool} {n j k i : ℕ}

theorem takeRuns_succ : takeRuns need valid (k + 1) = (takeRuns need valid k).bind fun v =>
    if need k then (findAndSet8Blocks v).map Prod.snd else some v := rfl

theorem takeRuns_le (h : (takeRuns need valid n).isSome) (hk : k ≤ n) :
    ∃ v, takeRuns need valid k = some v := by
  induction n with
  | zero =>
      rw [Nat.le_zero.mp hk]
      exact Option.isSome_iff_exists.mp h
  | succ n ih =>
      rcases Nat.lt_or_ge n k with hlt | hle
      · rw [show k = n + 1 by omega]
        exact Option.isSome_iff_exists.mp h
      · apply ih _ hle
        rw [takeRuns_succ] at h
        exact Option.isSome_of_isSome_bind h

/-- A round that needs no run changes nothing. -/
theorem takeRuns_skip (hk : ¬ need k) :
    takeRuns need valid (k + 1) = takeRuns need valid k := by
  simp [takeRuns_succ, hk]

/-- A round that needs a run takes `runAt`. -/
theorem takeRuns_need (h : takeRuns need valid (k + 1) = some v') (hk : need k) :
    ∃ v, takeRuns need valid k = some v ∧
      findAndSet8Blocks v = some (runAt need valid k, v') := by
  rw [takeRuns_succ, Option.bind_eq_some_iff] at h
  obtain ⟨v, hv, h⟩ := h
  rw [if_pos hk, Option.map_eq_some_iff] at h
  obtain ⟨⟨bno, w⟩, hf, rfl⟩ := h
  refine ⟨v, hv, ?_⟩
  simp [runAt, hv, hf]

/-- **What is set** after some rounds: what was set before, and the runs taken. -/
theorem takeRuns_flag (h : takeRuns need valid n = some v) (i : ℕ) :
    v i = true ↔ valid i = true ∨ ∃ k, k < n ∧ need k ∧ InRun (runAt need valid k) i := by
  induction n generalizing v with
  | zero =>
      cases h
      simp
  | succ n ih =>
      by_cases hn : need n
      · obtain ⟨w, hw, hf⟩ := takeRuns_need h hn
        obtain ⟨-, -, -, hset⟩ := findAndSet8Blocks_spec hf
        rw [hset, Bool.or_eq_true, decide_eq_true_eq, ih hw]
        constructor
        · rintro (hin | hold | ⟨k, hk, hneed, hin⟩)
          · exact Or.inr ⟨n, by omega, hn, hin⟩
          · exact Or.inl hold
          · exact Or.inr ⟨k, by omega, hneed, hin⟩
        · rintro (hold | ⟨k, hk, hneed, hin⟩)
          · exact Or.inr (Or.inl hold)
          · rcases Nat.lt_or_ge k n with hlt | hge
            · exact Or.inr (Or.inr ⟨k, hlt, hneed, hin⟩)
            · obtain rfl : k = n := by omega
              exact Or.inl hin
      · rw [takeRuns_skip hn] at h
        rw [ih h]
        constructor
        · rintro (hold | ⟨k, hk, hneed, hin⟩)
          · exact Or.inl hold
          · exact Or.inr ⟨k, by omega, hneed, hin⟩
        · rintro (hold | ⟨k, hk, hneed, hin⟩)
          · exact Or.inl hold
          · rcases Nat.lt_or_ge k n with hlt | hge
            · exact Or.inr ⟨k, hlt, hneed, hin⟩
            · obtain rfl : k = n := by omega
              exact absurd hneed hn

/-- A run lies in the swap area, and was free. -/
theorem runAt_spec (h : (takeRuns need valid n).isSome) (hk : k < n) (hneed : need k) :
    swapStart ≤ runAt need valid k ∧ runAt need valid k + 8 ≤ swapEnd ∧
      ∀ i, InRun (runAt need valid k) i → valid i = false ∧
        ∀ j, j < k → need j → ¬ InRun (runAt need valid j) i := by
  obtain ⟨v', hv'⟩ := takeRuns_le h (show k + 1 ≤ n from hk)
  obtain ⟨v, hv, hf⟩ := takeRuns_need hv' hneed
  obtain ⟨hlo, hhi, hfree, -⟩ := findAndSet8Blocks_spec hf
  refine ⟨hlo, hhi, ?_⟩
  intro i hin
  have hclear := hfree i hin.1 hin.2
  have hflag := takeRuns_flag hv i
  rw [hclear] at hflag
  simp only [Bool.false_eq_true, false_iff, not_or, Bool.not_eq_true] at hflag
  exact ⟨hflag.1, fun j hj hneed' hin' => hflag.2 ⟨j, hj, hneed', hin'⟩⟩

/-- **Runs of different rounds do not meet.** -/
theorem runAt_disjoint (h : (takeRuns need valid n).isSome) (hj : j < n) (hk : k < n)
    (hnj : need j) (hnk : need k) (hne : j ≠ k) (hin : InRun (runAt need valid j) i) :
    ¬ InRun (runAt need valid k) i := by
  intro hin'
  rcases Nat.lt_or_gt_of_ne hne with hlt | hgt
  · exact ((runAt_spec h hk hnk).2.2 i hin').2 j hlt hnj hin
  · exact ((runAt_spec h hj hnj).2.2 i hin).2 k hgt hnk hin'

/-- No block belongs to two runs. -/
theorem runAt_ne (h : (takeRuns need valid n).isSome) (hj : j < n) (hk : k < n) (hnj : need j)
    (hnk : need k) (hne : j ≠ k) {a b : ℕ} (ha : a < 8) (hb : b < 8) :
    runAt need valid j + a ≠ runAt need valid k + b := by
  intro heq
  have hlo := (runAt_spec h hj hnj).1
  have hin : InRun (runAt need valid j) (runAt need valid j + a - swapStart) := by
    constructor <;> omega
  apply runAt_disjoint h hj hk hnj hnk hne hin
  constructor <;> omega

end Rounds

/-- The index of the first flag of a run. -/
theorem swapIndex_eq {bno : ℕ} (hlo : swapStart ≤ bno) (hhi : bno + 8 ≤ swapEnd) :
    swapIndex bno = bno - swapStart := by
  simp only [swapStart, swapEnd] at hlo hhi
  simp only [swapIndex, swapStart]
  omega

theorem release8Blocks_iff {valid : ℕ → Bool} {bno : ℕ} (hlo : swapStart ≤ bno)
    (hhi : bno + 8 ≤ swapEnd) (i : ℕ) :
    release8Blocks valid bno i = true ↔ ¬ InRun bno i ∧ valid i = true := by
  have hin : (swapIndex bno ≤ i ∧ i < (swapIndex bno + 8) % 2 ^ 32 ∧ i < swapEnd - swapStart) ↔
      InRun bno i := by
    rw [InRun, swapIndex_eq hlo hhi]
    simp only [swapStart, swapEnd] at hlo hhi ⊢
    omega
  rw [release8Blocks, Bool.and_eq_true, Bool.not_eq_true', decide_eq_false_iff_not, hin]

end OsLab
