import OsLab.Fs.Bitmap
import OsLab.Lib.Run

/-!
# The swap area

`find_and_set_8_blocks` and `release_8_blocks` of `fs/cache.c`.  The blocks from
`SWAP_START` to `SWAP_END` are kept by an array of flags in memory, the blocks of files
by the bitmap on the disk, and the bitmap knows nothing of the swap area.

## Main definitions

* `findAndSet8Blocks`, `release8Blocks` — as in the source.
* `findLoop_spec`, `findLoop_isSome` — the run that is found.
* `TwoAllocs`, `TwoAllocs.step` — both allocators on one disk, with what they have handed out.
-/

namespace OsLab

/-- `SWAP_START` -/
def swapStart : ℕ := 800

/-- `SWAP_END` -/
def swapEnd : ℕ := 1000

/-- The loop of `find_and_set_8_blocks`: `left` where eight flags are clear from there on.
`fuel` bounds the number of rounds. -/
def findLoop (valid : ℕ → Bool) : ℕ → ℕ → ℕ → Option ℕ
  | 0, _, _ => none
  | fuel + 1, left, right =>
      if right < swapEnd - swapStart then
        if valid right = false then
          if right + 1 - left = 8 then some left else findLoop valid fuel left (right + 1)
        else findLoop valid fuel (right + 1) (right + 1)
      else none

/-- `find_and_set_8_blocks`: the first block of the run and the flags; it panics if there is no
run. -/
def findAndSet8Blocks (valid : ℕ → Bool) : Option (ℕ × (ℕ → Bool)) := do
  let left ← findLoop valid (swapEnd - swapStart + 1) 0 0
  some (swapStart + left, fun i => decide (left ≤ i ∧ i < left + 8) || valid i)

/-- `bno - SWAP_START` in 32 bits. -/
def swapIndex (bno : ℕ) : ℕ := (bno % 2 ^ 32 + 2 ^ 32 - swapStart) % 2 ^ 32

/-- `release_8_blocks`.  The bound of the loop is computed in 32 bits, too. -/
def release8Blocks (valid : ℕ → Bool) (bno : ℕ) : ℕ → Bool :=
  fun i => !decide (swapIndex bno ≤ i ∧ i < (swapIndex bno + 8) % 2 ^ 32 ∧
    i < swapEnd - swapStart) && valid i

section Find

variable {valid valid' : ℕ → Bool} {fuel left right a bno : ℕ}

/-- **The run that is found** is free and lies in the swap area. -/
theorem findLoop_spec (hle : left ≤ right)
    (hfree : ∀ i, left ≤ i → i < right → valid i = false)
    (h : findLoop valid fuel left right = some a) :
    left ≤ a ∧ a + 8 ≤ swapEnd - swapStart ∧ ∀ i, a ≤ i → i < a + 8 → valid i = false := by
  induction fuel generalizing left right with
  | zero => cases h
  | succ fuel ih =>
      rw [findLoop] at h
      split at h
      case isFalse => cases h
      rename_i hlt
      split at h
      · rename_i hclear
        have hfree' : ∀ i, left ≤ i → i < right + 1 → valid i = false := by
          intro i h₁ h₂
          rcases Nat.lt_or_ge i right with hi | hi
          · exact hfree i h₁ hi
          · obtain rfl : i = right := by omega
            exact hclear
        split at h
        · cases h
          refine ⟨le_refl _, by omega, ?_⟩
          intro i h₁ h₂
          exact hfree' i h₁ (by omega)
        · exact ih (by omega) hfree' h
      · obtain ⟨h₁, h₂, h₃⟩ := ih (le_refl _) (fun i h₁ h₂ => absurd h₂ (by omega)) h
        exact ⟨by omega, h₂, h₃⟩

/-- Where eight flags in a row are clear, a run is found. -/
theorem findLoop_isSome (hle : left ≤ right) (hlt : right < left + 8)
    (hfree : ∀ i, left ≤ i → i < right → valid i = false) (ha : left ≤ a)
    (hrun : ∀ i, a ≤ i → i < a + 8 → valid i = false) (hend : a + 8 ≤ swapEnd - swapStart)
    (hfuel : swapEnd - swapStart < fuel + right) : (findLoop valid fuel left right).isSome := by
  induction fuel generalizing left right with
  | zero => omega
  | succ fuel ih =>
      rw [findLoop, if_pos (by omega)]
      by_cases hclear : valid right = false
      · rw [if_pos hclear]
        by_cases h8 : right + 1 - left = 8
        · rw [if_pos h8]
          rfl
        · rw [if_neg h8]
          apply ih (by omega) (by omega) ?_ ha (by omega)
          intro i h₁ h₂
          rcases Nat.lt_or_ge i right with hi | hi
          · exact hfree i h₁ hi
          · obtain rfl : i = right := by omega
            exact hclear
      · rw [if_neg hclear]
        -- a set flag lies before the run: after it, eight clear flags were seen
        have hbefore : right < a := by
          by_contra hge
          exact hclear (hrun right (by omega) (by omega))
        exact ih (le_refl _) (by omega) (fun i h₁ h₂ => absurd h₂ (by omega)) (by omega) (by omega)

theorem findAndSet8Blocks_spec (h : findAndSet8Blocks valid = some (bno, valid')) :
    swapStart ≤ bno ∧ bno + 8 ≤ swapEnd ∧
      (∀ i, bno ≤ swapStart + i → swapStart + i < bno + 8 → valid i = false) ∧
      ∀ i, valid' i = (decide (bno ≤ swapStart + i ∧ swapStart + i < bno + 8) || valid i) := by
  rw [findAndSet8Blocks, Option.bind_eq_bind, Option.bind_eq_some_iff] at h
  obtain ⟨left, hl, h⟩ := h
  cases h
  obtain ⟨-, hend, hfree⟩ := findLoop_spec (le_refl 0) (fun i _ h₂ => absurd h₂ (by omega)) hl
  have hlen : swapEnd = swapStart + 200 := rfl
  refine ⟨by omega, by omega, ?_, ?_⟩
  · intro i h₁ h₂
    exact hfree i (by omega) (by omega)
  · intro i
    show (decide (left ≤ i ∧ i < left + 8) || valid i) = _
    congr 1
    rw [decide_eq_decide]
    omega

end Find

/-! ## Two allocators, one disk -/

/-- The disk, the flags, and what the two allocators have handed out and not got back. -/
structure TwoAllocs where
  disk : Disk
  swapValid : ℕ → Bool
  /-- the blocks from `cache_alloc` -/
  allocated : List ℕ
  /-- the first blocks of the runs from `find_and_set_8_blocks` -/
  live : List ℕ

inductive AllocCall
  | cacheAlloc
  | cacheFree (b : ℕ)
  | findAndSet8Blocks
  | release8Blocks (bno : ℕ)
  /-- a block is written, other than by the two allocators -/
  | write (b : ℕ) (d : Sector)

namespace TwoAllocs

def step (sb : SuperBlock) (s : TwoAllocs) : AllocCall → Option TwoAllocs
  | .cacheAlloc => do
      let (b, m) ← OsLab.cacheAlloc sb s.disk
      some { s with disk := m, allocated := b :: s.allocated }
  | .cacheFree b => do
      let m ← OsLab.cacheFree sb s.disk b
      some { s with disk := m, allocated := s.allocated.erase b }
  | .findAndSet8Blocks => do
      let (bno, valid) ← OsLab.findAndSet8Blocks s.swapValid
      some { s with swapValid := valid, live := bno :: s.live }
  | .release8Blocks bno =>
      some { s with swapValid := OsLab.release8Blocks s.swapValid bno, live := s.live.erase bno }
  | .write b d => some { s with disk := Function.update s.disk b d }

/-- What callers promise: what is given back was handed out, and the bitmap is written by
`cache_alloc` and `cache_free` only. -/
def Legal (sb : SuperBlock) (s : TwoAllocs) : AllocCall → Prop
  | .cacheFree b => b ∈ s.allocated
  | .release8Blocks bno => bno ∈ s.live
  | .write b _ => b ∉ sb.bitmapBlocks
  | _ => True

/-- A `cache_alloc` is made where a block below the swap area is free. -/
def RoomBelow (sb : SuperBlock) (s : TwoAllocs) : AllocCall → Prop
  | .cacheAlloc => ∃ b, b < swapStart ∧ sb.used s.disk b = false
  | _ => True

/-- After `init_bcache`. -/
def init (m : Disk) : TwoAllocs := ⟨m, fun _ => false, [], []⟩

/-- **No block is in a file and in a swap run.** -/
def Separate (s : TwoAllocs) : Prop :=
  ∀ b ∈ s.allocated, ∀ bno ∈ s.live, ¬ (bno ≤ b ∧ b < bno + 8)

/-- The two allocators stay on their side of `SWAP_START`. -/
structure Sides (s : TwoAllocs) : Prop where
  below : ∀ b ∈ s.allocated, b < swapStart
  above : ∀ bno ∈ s.live, swapStart ≤ bno

variable {sb : SuperBlock} {s s' : TwoAllocs} {call : AllocCall}

theorem Sides.separate (h : Sides s) : Separate s := by
  intro b hb bno hbno hin
  have h₁ := h.below b hb
  have h₂ := h.above bno hbno
  omega

theorem Sides.step (h : Sides s) (hroom : RoomBelow sb s call) (hr : s.step sb call = some s') :
    Sides s' := by
  cases call with
  | cacheAlloc =>
      rw [TwoAllocs.step, Option.bind_eq_bind, Option.bind_eq_some_iff] at hr
      obtain ⟨⟨b, m⟩, ha, hr⟩ := hr
      cases hr
      refine ⟨?_, h.above⟩
      intro a ha'
      rcases List.mem_cons.mp ha' with rfl | ha'
      · -- the scan takes the first clear bit
        obtain ⟨b, hlt, hclear⟩ := hroom
        obtain ⟨-, -, hfirst⟩ := scan_eq_some (cacheAlloc_eq_some ha).1
        by_contra hge
        rw [hfirst b (by omega)] at hclear
        cases hclear
      · exact h.below a ha'
  | cacheFree b =>
      rw [TwoAllocs.step, Option.bind_eq_bind, Option.bind_eq_some_iff] at hr
      obtain ⟨m, -, hr⟩ := hr
      cases hr
      exact ⟨fun a ha => h.below a (List.mem_of_mem_erase ha), h.above⟩
  | findAndSet8Blocks =>
      rw [TwoAllocs.step, Option.bind_eq_bind, Option.bind_eq_some_iff] at hr
      obtain ⟨⟨bno, valid⟩, hf, hr⟩ := hr
      cases hr
      refine ⟨h.below, ?_⟩
      intro bno' hbno'
      rcases List.mem_cons.mp hbno' with rfl | hbno'
      · exact (findAndSet8Blocks_spec hf).1
      · exact h.above bno' hbno'
  | release8Blocks bno =>
      cases hr
      exact ⟨h.below, fun bno' hbno' => h.above bno' (List.mem_of_mem_erase hbno')⟩
  | write b d =>
      cases hr
      exact ⟨h.below, h.above⟩

theorem Sides.init (m : Disk) : Sides (init m) :=
  ⟨fun _ h => absurd h List.not_mem_nil, fun _ h => absurd h List.not_mem_nil⟩

end TwoAllocs

end OsLab
