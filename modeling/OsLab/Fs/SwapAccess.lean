import OsLab.Fs.SwapRuns

/-!
# Accesses to the flags of the swap area

The functions of `fs/cache.c` that use `swap_valid`, with every index they use, in order.
`swap_valid` has `SWAP_END - SWAP_START` flags, and memory goes on behind them; the flags
here do, too.  `find_and_set_8_blocks` and `release_8_blocks` count from `SWAP_START` on,
`init_bcache` counts blocks.

## Main definitions

* `initBcacheUses`, `releaseUses`, `findUses` — the functions, with the indices.
* `findUses_fst`, `releaseUses_fst` — without them they are the functions of `OsLab.Fs.Swap`.
* `SwapTrace.step` — calls in any order.
* `swap_accesses` — which of the indices are out of bounds.
-/

namespace OsLab

/-- `for (; i < stop; i++) swap_valid[i] = b;`, in at most `fuel` rounds: the flags after it and
the indices. -/
def storeLoop (b : Bool) (stop : ℕ) : ℕ → ℕ → (ℕ → Bool) → (ℕ → Bool) × List ℕ
  | 0, _, valid => (valid, [])
  | fuel + 1, i, valid =>
      if i < stop then
        let (valid, uses) := storeLoop b stop fuel (i + 1) (Function.update valid i b)
        (valid, i :: uses)
      else (valid, [])

/-- The last loop of `init_bcache`. -/
def initBcacheUses (valid : ℕ → Bool) : (ℕ → Bool) × List ℕ :=
  storeLoop false swapEnd (swapEnd - swapStart) swapStart valid

/-- `release_8_blocks` -/
def releaseUses (valid : ℕ → Bool) (bno : ℕ) : (ℕ → Bool) × List ℕ :=
  storeLoop false (min ((swapIndex bno + 8) % 2 ^ 32) (swapEnd - swapStart)) (swapEnd - swapStart)
    (swapIndex bno) valid

/-- The first loop of `find_and_set_8_blocks`, as `findLoop`. -/
def findLoopUses (valid : ℕ → Bool) : ℕ → ℕ → ℕ → Option ℕ × List ℕ
  | 0, _, _ => (none, [])
  | fuel + 1, left, right =>
      if right < swapEnd - swapStart then
        if valid right = false then
          if right + 1 - left = 8 then (some left, [right])
          else
            let (r, uses) := findLoopUses valid fuel left (right + 1)
            (r, right :: uses)
        else
          let (r, uses) := findLoopUses valid fuel (right + 1) (right + 1)
          (r, right :: uses)
      else (none, [])

/-- `find_and_set_8_blocks`: before it panics it prints all flags. -/
def findUses (valid : ℕ → Bool) : Option (ℕ × (ℕ → Bool)) × List ℕ :=
  match findLoopUses valid (swapEnd - swapStart + 1) 0 0 with
  | (some left, uses) =>
      let (valid, stores) := storeLoop true (left + 8) 8 left valid
      (some (swapStart + left, valid), uses ++ stores)
  | (none, uses) => (none, uses ++ List.range (swapEnd - swapStart))

/-! ## The functions without the indices -/

section Loops

variable {b : Bool} {stop fuel left right i j bno : ℕ} {valid : ℕ → Bool}

theorem storeLoop_fst (hfuel : stop ≤ i + fuel) :
    (storeLoop b stop fuel i valid).1 j = if i ≤ j ∧ j < stop then b else valid j := by
  induction fuel generalizing i valid with
  | zero =>
      rw [storeLoop, if_neg (by omega)]
  | succ fuel ih =>
      rw [storeLoop]
      split_ifs with hlt hj hj
      · rw [ih (by omega)]
        by_cases hji : j = i
        · subst hji
          rw [if_neg (by omega), Function.update_self]
        · rw [if_pos (by omega)]
      · rw [ih (by omega), if_neg (by omega), Function.update_of_ne (by omega)]
      · omega
      · rfl

/-- **The indices that are stored to.** -/
theorem mem_storeLoop (hfuel : stop ≤ i + fuel) :
    j ∈ (storeLoop b stop fuel i valid).2 ↔ i ≤ j ∧ j < stop := by
  induction fuel generalizing i valid with
  | zero =>
      rw [storeLoop]
      simp only [List.not_mem_nil, false_iff]
      omega
  | succ fuel ih =>
      rw [storeLoop]
      split_ifs with hlt
      · rw [List.mem_cons, ih (by omega)]
        omega
      · simp only [List.not_mem_nil, false_iff]
        omega

theorem findLoopUses_fst :
    (findLoopUses valid fuel left right).1 = findLoop valid fuel left right := by
  induction fuel generalizing left right with
  | zero => rfl
  | succ fuel ih =>
      rw [findLoopUses, findLoop]
      split_ifs
      · rfl
      · exact ih
      · exact ih
      · rfl

theorem findLoopUses_lt (hi : i ∈ (findLoopUses valid fuel left right).2) :
    i < swapEnd - swapStart := by
  induction fuel generalizing left right with
  | zero => cases hi
  | succ fuel ih =>
      rw [findLoopUses] at hi
      split_ifs at hi with hlt hclear h8
      · rw [List.mem_singleton.mp hi]
        exact hlt
      · rcases List.mem_cons.mp hi with rfl | hi
        · exact hlt
        · exact ih hi
      · rcases List.mem_cons.mp hi with rfl | hi
        · exact hlt
        · exact ih hi
      · cases hi

theorem findUses_fst : (findUses valid).1 = findAndSet8Blocks valid := by
  rw [findUses, findAndSet8Blocks, ← findLoopUses_fst]
  cases hf : findLoopUses valid (swapEnd - swapStart + 1) 0 0 with
  | mk r uses =>
      cases r with
      | none => rfl
      | some left =>
          simp only [Option.bind_eq_bind, Option.bind_some]
          congr 2
          funext j
          rw [storeLoop_fst (by omega)]
          split_ifs with hj
          · simp [hj]
          · simp [hj]

theorem releaseUses_fst : (releaseUses valid bno).1 = release8Blocks valid bno := by
  funext j
  have hiff : (swapIndex bno ≤ j ∧ j < min ((swapIndex bno + 8) % 2 ^ 32) (swapEnd - swapStart)) ↔
      swapIndex bno ≤ j ∧ j < (swapIndex bno + 8) % 2 ^ 32 ∧ j < swapEnd - swapStart := by
    rw [Nat.lt_min]
  rw [releaseUses, storeLoop_fst (by omega), release8Blocks, if_congr hiff rfl rfl]
  by_cases hj : swapIndex bno ≤ j ∧ j < (swapIndex bno + 8) % 2 ^ 32 ∧ j < swapEnd - swapStart
  · rw [if_pos hj, decide_eq_true hj]
    rfl
  · rw [if_neg hj, decide_eq_false hj]
    rfl

/-- **The search stays in bounds**, also when it fails. -/
theorem findUses_lt (hi : i ∈ (findUses valid).2) : i < swapEnd - swapStart := by
  have hloop := @findLoopUses_lt (swapEnd - swapStart + 1) 0 0 i valid
  rw [findUses] at hi
  cases hf : findLoopUses valid (swapEnd - swapStart + 1) 0 0 with
  | mk r uses =>
      simp only [hf] at hi hloop
      cases r with
      | none =>
          rcases List.mem_append.mp hi with hi | hi
          · exact hloop hi
          · exact List.mem_range.mp hi
      | some left =>
          rcases List.mem_append.mp hi with hi | hi
          · exact hloop hi
          · -- the run that was found lies in the swap area
            have hl : findLoop valid (swapEnd - swapStart + 1) 0 0 = some left := by
              rw [← findLoopUses_fst, hf]
            have hend := (findLoop_spec (le_refl 0) (fun i _ h => absurd h (by omega)) hl).2.1
            have hlt := ((mem_storeLoop (by omega)).mp hi).2
            omega

/-- **A release stays in bounds**, of any number at all. -/
theorem releaseUses_lt (hi : i ∈ (releaseUses valid bno).2) : i < swapEnd - swapStart := by
  rw [releaseUses, mem_storeLoop (by omega)] at hi
  omega

/-- **The initialization uses block numbers.** -/
theorem mem_initBcacheUses : i ∈ (initBcacheUses valid).2 ↔ swapStart ≤ i ∧ i < swapEnd := by
  rw [initBcacheUses, mem_storeLoop (by simp [swapStart, swapEnd])]

/-- The flags themselves are not written. -/
theorem initBcacheUses_fst (hj : j < swapEnd - swapStart) :
    (initBcacheUses valid).1 j = valid j := by
  have hlt : j < swapStart := by
    simp only [swapStart, swapEnd] at hj ⊢
    omega
  rw [initBcacheUses, storeLoop_fst (by simp [swapStart, swapEnd]), if_neg (by omega)]

end Loops

/-! ## Calls in any order -/

/-- The flags, the indices used so far, and whether a call has panicked. -/
structure SwapTrace where
  valid : ℕ → Bool
  uses : List ℕ
  panicked : Bool

inductive SwapUse
  | findAndSet8Blocks
  | release8Blocks (bno : ℕ)
  deriving DecidableEq, Repr

/-- The argument is a `u32`. -/
def SwapUse.isU32 : SwapUse → Bool
  | .findAndSet8Blocks => true
  | .release8Blocks bno => bno < 2 ^ 32

namespace SwapTrace

/-- After `init_bcache`; `mem` is the memory from `swap_valid` on. -/
def initBcache (mem : ℕ → Bool) : SwapTrace :=
  ⟨(initBcacheUses mem).1, (initBcacheUses mem).2, false⟩

def step (s : SwapTrace) (call : SwapUse) : Option SwapTrace :=
  if s.panicked then none
  else match call with
    | .findAndSet8Blocks =>
        match findUses s.valid with
        | (some (_, valid), uses) => some ⟨valid, s.uses ++ uses, false⟩
        | (none, uses) => some ⟨s.valid, s.uses ++ uses, true⟩
    | .release8Blocks bno =>
        some ⟨(releaseUses s.valid bno).1, s.uses ++ (releaseUses s.valid bno).2, false⟩

/-- Every index is one of a flag. -/
def InBounds (s : SwapTrace) : Prop := ∀ i ∈ s.uses, i < swapEnd - swapStart

variable {mem : ℕ → Bool} {s s' : SwapTrace} {call : SwapUse}

/-- **Every call stays in bounds.** -/
theorem step_uses (hs : s.step call = some s') :
    ∃ uses, s'.uses = s.uses ++ uses ∧ ∀ i ∈ uses, i < swapEnd - swapStart := by
  cases call with
  | findAndSet8Blocks =>
      rw [step] at hs
      split at hs
      · cases hs
      have hlt : ∀ i ∈ (findUses s.valid).2, i < swapEnd - swapStart := fun _ hi => findUses_lt hi
      cases hf : findUses s.valid with
      | mk r uses =>
          rw [hf] at hlt
          cases r with
          | none =>
              simp only [hf, Option.some.injEq] at hs
              exact ⟨uses, by rw [← hs], hlt⟩
          | some r =>
              simp only [hf, Option.some.injEq] at hs
              exact ⟨uses, by rw [← hs], hlt⟩
  | release8Blocks bno =>
      rw [step] at hs
      split at hs
      · cases hs
      simp only [Option.some.injEq] at hs
      exact ⟨_, by rw [← hs], fun _ hi => releaseUses_lt hi⟩

/-- What a run has used: the indices of `init_bcache`, and then flags only. -/
theorem uses_eq (h : Reach step (fun _ call => call.isU32) (initBcache mem) s) :
    ∃ uses, s.uses = (initBcacheUses mem).2 ++ uses ∧ ∀ i ∈ uses, i < swapEnd - swapStart := by
  refine h.invariant (P := fun s => ∃ uses, s.uses = (initBcacheUses mem).2 ++ uses ∧
    ∀ i ∈ uses, i < swapEnd - swapStart) ⟨[], by simp [initBcache], by simp⟩ ?_
  rintro s call s' ⟨uses, heq, hlt⟩ - hs
  obtain ⟨more, heq', hlt'⟩ := step_uses hs
  refine ⟨uses ++ more, by rw [heq', heq, List.append_assoc], ?_⟩
  intro i hi
  rcases List.mem_append.mp hi with hi | hi
  · exact hlt i hi
  · exact hlt' i hi

end SwapTrace

/-- **No run stays in bounds**: `init_bcache` stores behind the flags.  Nothing else does, and
the flags are clear because they are static. -/
theorem swap_accesses (mem : ℕ → Bool) (s : SwapTrace)
    (h : Reach SwapTrace.step (fun _ call => call.isU32) (SwapTrace.initBcache mem) s) :
    ¬ s.InBounds ∧
      (∀ i ∈ s.uses, swapEnd - swapStart ≤ i → swapStart ≤ i ∧ i < swapEnd) ∧
      ∀ i, i < swapEnd - swapStart → (SwapTrace.initBcache mem).valid i = mem i := by
  obtain ⟨uses, heq, hlt⟩ := SwapTrace.uses_eq h
  refine ⟨?_, ?_, ?_⟩
  · intro hin
    have hmem : swapStart ∈ s.uses := by
      rw [heq, List.mem_append, mem_initBcacheUses]
      exact Or.inl ⟨le_refl _, by decide⟩
    exact absurd (hin swapStart hmem) (by decide)
  · intro i hi hge
    rw [heq, List.mem_append, mem_initBcacheUses] at hi
    rcases hi with hi | hi
    · exact hi
    · have := hlt i hi
      omega
  · intro i hi
    have hkeep : (initBcacheUses mem).1 i = mem i := initBcacheUses_fst hi
    simpa only [SwapTrace.initBcache] using hkeep

/-- Before the first call, `init_bcache` has used index 800. -/
theorem swap_accesses_init : ¬ ∀ (mem : ℕ → Bool) (s : SwapTrace),
    (∀ i, i < swapEnd - swapStart → mem i = false) →
    Reach SwapTrace.step (fun _ call => call.isU32) (SwapTrace.initBcache mem) s →
    s.InBounds ∧ ∀ i, i < swapEnd - swapStart → (SwapTrace.initBcache mem).valid i = false := by
  intro h
  obtain ⟨hin, -⟩ := h (fun _ => false) _ (fun _ _ => rfl) .init
  have huse : 800 ∈ (SwapTrace.initBcache fun _ => false).uses := by
    rw [SwapTrace.initBcache, mem_initBcacheUses]
    decide
  exact absurd (hin 800 huse) (by decide)

/-- A run is found, and a number below the swap area is released. -/
theorem swap_accesses_two : ∃ s : SwapTrace, s.uses.length = 216 ∧ ¬ s.InBounds := by
  have hrun : (runs (fun s call => if call.isU32 then s.step call else none)
      (SwapTrace.initBcache fun _ => false) [.findAndSet8Blocks, .release8Blocks 799]).map
      (fun s => s.uses.length) = some 216 := by decide +kernel
  obtain ⟨s, hs, hlen⟩ := Option.map_eq_some_iff.mp hrun
  have hreach : Reach SwapTrace.step (fun _ call => call.isU32)
      (SwapTrace.initBcache fun _ => false) s := Reach.of_tested .init (fun _ _ h => h) _ hs
  exact ⟨s, hlen, (swap_accesses _ s hreach).1⟩

end OsLab
