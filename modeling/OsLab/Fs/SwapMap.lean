import OsLab.Fs.SwapRuns
import Mathlib.Data.Finset.Card
import Mathlib.Data.Finset.Image
import Mathlib.Data.Finset.Range

/-!
# The map of the swap area

`find_and_set_8_blocks` and `release_8_blocks` in any order, where only runs that were
found and not yet released are given back.  The window of the search stands where the
last set flag was, and could stop anywhere; but all runs are of one length, and while the
flags of every aligned block of eight are equal, the search stops at such a block only.

## Main definitions

* `SwapMap`, `SwapMap.step` — the flags, and the runs that are live.
* `SwapMap.Runs` — what holds of them.
* `findLoop_aligned`, `find_eq_none_iff` — the search.
* `swap_runs` — the result over runs.
-/

namespace OsLab

/-- The flags and the runs that were found and not yet released. -/
structure SwapMap where
  valid : ℕ → Bool
  live : List ℕ

inductive SwapCall
  | findAndSet8Blocks
  | release8Blocks (bno : ℕ)
  deriving DecidableEq, Repr

namespace SwapMap

def step (s : SwapMap) : SwapCall → Option SwapMap
  | .findAndSet8Blocks => do
      let (bno, valid) ← OsLab.findAndSet8Blocks s.valid
      some ⟨valid, bno :: s.live⟩
  | .release8Blocks bno => some ⟨OsLab.release8Blocks s.valid bno, s.live.erase bno⟩

/-- What is released was found, and not yet released. -/
def Legal (s : SwapMap) : SwapCall → Prop
  | .findAndSet8Blocks => True
  | .release8Blocks bno => bno ∈ s.live

/-- All blocks are free. -/
def init : SwapMap := ⟨fun _ => false, []⟩

/-- A run starts at `SWAP_START` plus a multiple of eight, and lies in the swap area. -/
def Aligned (bno : ℕ) : Prop := swapStart ≤ bno ∧ bno + 8 ≤ swapEnd ∧ 8 ∣ bno - swapStart

/-- **What holds of the live runs.** -/
structure Runs (s : SwapMap) : Prop where
  aligned : ∀ bno ∈ s.live, Aligned bno
  nodup : s.live.Nodup
  flag : ∀ i, s.valid i = true ↔ ∃ bno ∈ s.live, InRun bno i

end SwapMap

/-! ## The search -/

section Search

variable {valid : ℕ → Bool} {fuel left right a : ℕ}

/-- **The search stops at aligned blocks** while the flags of each aligned block are equal.  A
window that starts inside such a block starts behind a set flag, and is empty. -/
theorem findLoop_aligned (hblock : ∀ i, valid i = valid (i - i % 8))
    (hleft : 8 ∣ left ∨ left = right ∧ valid left = true)
    (h : findLoop valid fuel left right = some a) : 8 ∣ a := by
  induction fuel generalizing left right with
  | zero => cases h
  | succ fuel ih =>
      rw [findLoop] at h
      split at h
      case isFalse => cases h
      split at h
      · rename_i hclear
        have hdvd : 8 ∣ left := by
          rcases hleft with hdvd | ⟨rfl, hset⟩
          · exact hdvd
          · rw [hset] at hclear
            cases hclear
        split at h
        · cases h
          exact hdvd
        · exact ih (Or.inl hdvd) h
      · rename_i hset
        rw [Bool.not_eq_false] at hset
        apply ih _ h
        by_cases hdvd : 8 ∣ right + 1
        · exact Or.inl hdvd
        · -- the next flag is in the same block
          have hsame : right + 1 - (right + 1) % 8 = right - right % 8 := by omega
          refine Or.inr ⟨rfl, ?_⟩
          rw [hblock, hsame, ← hblock, hset]

end Search

namespace SwapMap

variable {s s' : SwapMap} {call : SwapCall} {bno bno' i k : ℕ}

theorem aligned_iff : Aligned bno ↔ ∃ k, k < 25 ∧ bno = swapStart + 8 * k := by
  simp only [Aligned, swapStart, swapEnd]
  constructor
  · rintro ⟨hlo, hhi, k, hk⟩
    exact ⟨k, by omega, by omega⟩
  · rintro ⟨k, hk, rfl⟩
    exact ⟨by omega, by omega, k, by omega⟩

/-- Aligned runs that meet are equal. -/
theorem Aligned.eq (h : Aligned bno) (h' : Aligned bno') (hin : InRun bno i)
    (hin' : InRun bno' i) : bno = bno' := by
  obtain ⟨k, -, rfl⟩ := aligned_iff.mp h
  obtain ⟨k', -, rfl⟩ := aligned_iff.mp h'
  simp only [InRun] at hin hin'
  omega

/-- An aligned run meets whole blocks of flags. -/
theorem Aligned.inRun_iff (h : Aligned bno) : InRun bno i ↔ InRun bno (i - i % 8) := by
  obtain ⟨k, -, rfl⟩ := aligned_iff.mp h
  simp only [InRun]
  omega

namespace Runs

/-- The flags of an aligned block are equal. -/
theorem block (h : s.Runs) (i : ℕ) : s.valid i = s.valid (i - i % 8) := by
  rw [Bool.eq_iff_iff, h.flag, h.flag]
  constructor
  · rintro ⟨bno, hbno, hin⟩
    exact ⟨bno, hbno, (h.aligned bno hbno).inRun_iff.mp hin⟩
  · rintro ⟨bno, hbno, hin⟩
    exact ⟨bno, hbno, (h.aligned bno hbno).inRun_iff.mpr hin⟩

/-- What is found is an aligned run. -/
theorem aligned_of_find {valid : ℕ → Bool} (h : s.Runs)
    (hf : findAndSet8Blocks s.valid = some (bno, valid)) : Aligned bno := by
  obtain ⟨hlo, hhi, -, -⟩ := findAndSet8Blocks_spec hf
  refine ⟨hlo, hhi, ?_⟩
  rw [findAndSet8Blocks, Option.bind_eq_bind, Option.bind_eq_some_iff] at hf
  obtain ⟨left, hl, hf⟩ := hf
  cases hf
  rw [Nat.add_sub_cancel_left]
  exact findLoop_aligned h.block (Or.inl (Nat.dvd_zero 8)) hl

/-- **No two live runs meet.** -/
theorem disjoint (h : s.Runs) :
    s.live.Pairwise fun bno bno' => ∀ i, InRun bno i → ¬ InRun bno' i := by
  apply h.nodup.imp_of_mem
  intro bno bno' hbno hbno' hne i hin hin'
  exact hne ((h.aligned bno hbno).eq (h.aligned bno' hbno') hin hin')

theorem init : SwapMap.init.Runs := by
  constructor <;> simp [SwapMap.init]

theorem step_find {valid : ℕ → Bool} (h : s.Runs)
    (hf : findAndSet8Blocks s.valid = some (bno, valid)) : Runs ⟨valid, bno :: s.live⟩ := by
  obtain ⟨hlo, hhi, hfree, hset⟩ := findAndSet8Blocks_spec hf
  refine ⟨?_, ?_, ?_⟩
  · intro b hb
    rcases List.mem_cons.mp hb with rfl | hb
    · exact h.aligned_of_find hf
    · exact h.aligned b hb
  · refine List.nodup_cons.mpr ⟨?_, h.nodup⟩
    intro hbno
    -- the first flag of the run was clear
    have hin : InRun bno (bno - swapStart) := by
      simp only [InRun]
      omega
    have hclear := hfree (bno - swapStart) hin.1 hin.2
    rw [(h.flag _).mpr ⟨bno, hbno, hin⟩] at hclear
    cases hclear
  · intro i
    show valid i = true ↔ _
    rw [hset, Bool.or_eq_true, decide_eq_true_eq, h.flag, List.exists_mem_cons_iff]
    rfl

theorem step_release (h : s.Runs) (hbno : bno ∈ s.live) :
    Runs ⟨release8Blocks s.valid bno, s.live.erase bno⟩ := by
  have ha := h.aligned bno hbno
  refine ⟨fun b hb => h.aligned b (List.mem_of_mem_erase hb), h.nodup.erase bno, ?_⟩
  intro i
  dsimp only
  rw [release8Blocks_iff ha.1 ha.2.1, h.flag]
  constructor
  · rintro ⟨hout, b, hb, hin⟩
    have hne : b ≠ bno := by
      rintro rfl
      exact hout hin
    exact ⟨b, (h.nodup.mem_erase_iff).mpr ⟨hne, hb⟩, hin⟩
  · rintro ⟨b, hb, hin⟩
    obtain ⟨hne, hb⟩ := (h.nodup.mem_erase_iff).mp hb
    exact ⟨fun hout => hne ((h.aligned b hb).eq ha hin hout), b, hb, hin⟩

/-- **Both calls keep the runs apart.** -/
theorem step (h : s.Runs) (hok : s.Legal call) (hs : s.step call = some s') : s'.Runs := by
  cases call with
  | findAndSet8Blocks =>
      rw [SwapMap.step, Option.bind_eq_bind, Option.bind_eq_some_iff] at hs
      obtain ⟨⟨bno, valid⟩, hf, hs⟩ := hs
      cases hs
      exact h.step_find hf
  | release8Blocks bno =>
      rw [SwapMap.step, Option.some.injEq] at hs
      rw [← hs]
      exact h.step_release hok

/-! ## When no run is left -/

/-- The places of aligned runs. -/
def slots : Finset ℕ := (Finset.range 25).image fun k => swapStart + 8 * k

theorem card_slots : slots.card = 25 := by decide

theorem mem_slots : bno ∈ slots ↔ Aligned bno := by
  rw [aligned_iff, slots, Finset.mem_image]
  constructor
  · rintro ⟨k, hk, rfl⟩
    exact ⟨k, Finset.mem_range.mp hk, rfl⟩
  · rintro ⟨k, hk, rfl⟩
    exact ⟨k, Finset.mem_range.mpr hk, rfl⟩

theorem subset_slots (h : s.Runs) : s.live.toFinset ⊆ slots := by
  intro bno hbno
  exact mem_slots.mpr (h.aligned bno (List.mem_toFinset.mp hbno))

theorem card_live (h : s.Runs) : s.live.toFinset.card = s.live.length :=
  List.toFinset_card_of_nodup h.nodup

/-- An aligned run that is not live is free. -/
theorem free_of_notMem (h : s.Runs) (ha : Aligned bno) (hbno : bno ∉ s.live) (hin : InRun bno i) :
    s.valid i = false := by
  rw [← Bool.not_eq_true, h.flag]
  rintro ⟨b, hb, hin'⟩
  exact hbno ((h.aligned b hb).eq ha hin' hin ▸ hb)

/-- **The search fails** when as many runs are live as the area has places. -/
theorem find_eq_none_iff (h : s.Runs) :
    findAndSet8Blocks s.valid = none ↔ s.live.length = (swapEnd - swapStart) / 8 := by
  have hlen : (swapEnd - swapStart) / 8 = slots.card := by rw [card_slots]; rfl
  rw [hlen, ← h.card_live]
  constructor
  · intro hnone
    by_contra hne
    obtain ⟨bno, hbno, hout⟩ : ∃ bno ∈ slots, bno ∉ s.live.toFinset := by
      by_contra hall
      push Not at hall
      exact hne (congrArg Finset.card (Finset.Subset.antisymm h.subset_slots hall))
    have ha := mem_slots.mp hbno
    have hfree : ∀ i, bno - swapStart ≤ i → i < bno - swapStart + 8 → s.valid i = false := by
      intro i h₁ h₂
      apply h.free_of_notMem ha (fun hm => hout (List.mem_toFinset.mpr hm))
      have := ha.1
      simp only [InRun]
      omega
    have hfound : (findLoop s.valid (swapEnd - swapStart + 1) 0 0).isSome := by
      have h₁ := ha.1
      have h₂ := ha.2.1
      have hend : swapEnd = swapStart + 200 := rfl
      exact findLoop_isSome (le_refl 0) (by omega) (fun i _ h₂ => absurd h₂ (by omega))
        (Nat.zero_le _) hfree (by omega) (by omega)
    obtain ⟨left, hl⟩ := Option.isSome_iff_exists.mp hfound
    rw [findAndSet8Blocks, hl] at hnone
    cases hnone
  · intro hcard
    have hall : s.live.toFinset = slots := Finset.eq_of_subset_of_card_le h.subset_slots (by omega)
    cases hf : findAndSet8Blocks s.valid with
    | none => rfl
    | some r =>
        obtain ⟨bno, valid⟩ := r
        have hbno : bno ∈ s.live := by
          rw [← List.mem_toFinset, hall]
          exact mem_slots.mpr (h.aligned_of_find hf)
        -- a run that is found is not live
        have hnd := (h.step_find hf).nodup
        exact absurd hbno (List.nodup_cons.mp hnd).1

end Runs

end SwapMap

/-- **Swap runs never fragment or overlap**, over any calls in any order. -/
theorem swap_runs (s : SwapMap) (h : Reach SwapMap.step SwapMap.Legal SwapMap.init s) :
    (∀ bno ∈ s.live, swapStart ≤ bno ∧ bno + 8 ≤ swapEnd ∧ 8 ∣ bno - swapStart) ∧
      (s.live.Pairwise fun bno bno' => ∀ i, InRun bno i → ¬ InRun bno' i) ∧
      (∀ i, s.valid i = true ↔ ∃ bno ∈ s.live, InRun bno i) ∧
      (findAndSet8Blocks s.valid = none ↔ s.live.length = (swapEnd - swapStart) / 8) := by
  have hr : s.Runs := h.invariant SwapMap.Runs.init fun _ _ _ hs => hs.step
  exact ⟨hr.aligned, hr.disjoint, hr.flag, hr.find_eq_none_iff⟩

/-- A test for `Legal`. -/
def SwapMap.legal (s : SwapMap) : SwapCall → Bool
  | .findAndSet8Blocks => true
  | .release8Blocks bno => bno ∈ s.live

theorem SwapMap.legal_iff (s : SwapMap) (call : SwapCall) (h : s.legal call = true) :
    s.Legal call := by
  cases call with
  | findAndSet8Blocks => trivial
  | release8Blocks bno =>
      have hbno : bno ∈ s.live := of_decide_eq_true h
      exact hbno

/-- The first of two runs is released, and found again. -/
theorem swap_runs_two : ∃ s : SwapMap, s.live = [800, 808] ∧
    (∀ i, s.valid i = true ↔ ∃ bno ∈ s.live, InRun bno i) ∧
    findAndSet8Blocks s.valid ≠ none := by
  have hrun : (runs (fun s i => if s.legal i then s.step i else none) SwapMap.init
      [.findAndSet8Blocks, .findAndSet8Blocks, .release8Blocks 800,
        .findAndSet8Blocks]).map SwapMap.live = some [800, 808] := by decide +kernel
  obtain ⟨s, hs, hlive⟩ := Option.map_eq_some_iff.mp hrun
  obtain ⟨-, -, hflag, hnone⟩ :=
    swap_runs s (Reach.of_tested .init SwapMap.legal_iff _ hs)
  refine ⟨s, hlive, hflag, ?_⟩
  rw [Ne, hnone, hlive]
  decide

end OsLab
