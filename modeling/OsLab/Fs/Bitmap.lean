import OsLab.Fs.FileSpec
import Mathlib.Data.Finset.Card

/-!
# The free block bitmap

`cache_alloc` and `cache_free` of `fs/cache.c` over a disk.  Bit `b` of the bitmap
says that block `b` is in use; the bits are scanned from block 0 on, all of the
`num_blocks` blocks.

## Main definitions

* `Bytes.bit`, `Bytes.setBit`, `Bytes.clearBit` — one bit of a bitmap block.
* `SuperBlock.used` — the bit of a block.
* `cacheAlloc`, `cacheFree` — the operations.
* `SuperBlock.Exact` — the bits are set for a given set of blocks and no others.
* `cacheAlloc_lawful` — `cache_alloc` is the allocator `inode_write` expects.
-/

namespace OsLab

/-- `BIT_PER_BLOCK` -/
def bitPerBlock : ℕ := blockSize * 8

theorem bitPerBlock_eq : bitPerBlock = 4096 := rfl

namespace Bytes

/-- `(data[bi / 8] & m) != 0` with `m = 1 << (bi % 8)` -/
def bit (d : Sector) (bi : ℕ) : Bool := (d.get (bi / 8)).toBitVec.getLsbD (bi % 8)

/-- `data[bi / 8] |= m` -/
def setBit (d : Sector) (bi : ℕ) : Sector :=
  ofFn fun j => if j = bi / 8 then ⟨(d.get j).toBitVec ||| BitVec.twoPow 8 (bi % 8)⟩ else d.get j

/-- `data[bi / 8] &= ~m` -/
def clearBit (d : Sector) (bi : ℕ) : Sector :=
  ofFn fun j =>
    if j = bi / 8 then ⟨(d.get j).toBitVec &&& ~~~BitVec.twoPow 8 (bi % 8)⟩ else d.get j

theorem bit_of_le (d : Sector) {bi : ℕ} (h : bitPerBlock ≤ bi) : d.bit bi = false := by
  rw [bitPerBlock_eq] at h
  rw [bit, get_of_le _ (by omega)]
  simp

theorem bit_setBit (d : Sector) {bi : ℕ} (h : bi < bitPerBlock) (j : ℕ) :
    (d.setBit bi).bit j = (decide (j = bi) || d.bit j) := by
  rcases Nat.lt_or_ge j bitPerBlock with hj | hj
  · rw [bitPerBlock_eq] at h hj
    rw [bit, setBit, get_ofFn _ (by omega)]
    split
    · rename_i hdiv
      rw [BitVec.getLsbD_or, BitVec.getLsbD_twoPow, bit, Bool.or_comm]
      congr 1
      rw [decide_eq_true (by omega : bi % 8 < 8), Bool.true_and, decide_eq_decide]
      omega
    · rename_i hdiv
      rw [decide_eq_false (by intro h; exact hdiv (by rw [h])), Bool.false_or, bit]
  · rw [bit_of_le _ hj, bit_of_le _ hj, decide_eq_false (by omega)]
    rfl

theorem bit_clearBit (d : Sector) (bi j : ℕ) :
    (d.clearBit bi).bit j = (!decide (j = bi) && d.bit j) := by
  rcases Nat.lt_or_ge j bitPerBlock with hj | hj
  · rw [bitPerBlock_eq] at hj
    rw [bit, clearBit, get_ofFn _ (by omega)]
    split
    · rename_i hdiv
      rw [BitVec.getLsbD_and, BitVec.getLsbD_not, BitVec.getLsbD_twoPow, bit, Bool.and_comm,
        decide_eq_true (by omega : j % 8 < 8), decide_eq_true (by omega : bi % 8 < 8),
        Bool.true_and, Bool.true_and]
      congr 2
      rw [decide_eq_decide]
      omega
    · rename_i hdiv
      rw [decide_eq_false (by intro h; exact hdiv (by rw [h])), Bool.not_false, Bool.true_and, bit]
  · rw [bit_of_le _ hj, bit_of_le _ hj, Bool.and_false]

/-- The bits set one after the other. -/
theorem bit_foldl_setBit (d : Sector) {k : ℕ} (h : k ≤ bitPerBlock) (j : ℕ) :
    ((List.range k).foldl setBit d).bit j = (decide (j < k) || d.bit j) := by
  induction k with
  | zero => simp
  | succ k ih =>
      rw [List.range_succ, List.foldl_append, List.foldl_cons, List.foldl_nil,
        bit_setBit _ (by omega), ih (by omega), ← Bool.or_assoc]
      congr 1
      rw [← Bool.decide_or, decide_eq_decide]
      omega

@[simp] theorem bit_zero (j : ℕ) : (zero : Sector).bit j = false := by
  simp [bit]

end Bytes

/-! ## The operations -/

namespace SuperBlock

/-- `BBLOCK` -/
def bblock (sb : SuperBlock) (b : ℕ) : ℕ := b / bitPerBlock + sb.bitmapStart

/-- The bit of block `b`. -/
def used (sb : SuperBlock) (m : Disk) (b : ℕ) : Bool := (m (sb.bblock b)).bit (b % bitPerBlock)

/-- The bitmap blocks. -/
def bitmapBlocks (sb : SuperBlock) : Set ℕ := { a | ∃ b, b < sb.numBlocks ∧ sb.bblock b = a }

/-- The inner loop of `cache_alloc` on the bitmap block of the blocks from `b` on. -/
def scanBlock (sb : SuperBlock) (m : Disk) (b : ℕ) : Option ℕ :=
  (List.range bitPerBlock).find? fun bi =>
    decide (b + bi < sb.numBlocks) && !(m (sb.bblock b)).bit bi

/-- The block `cache_alloc` finds. -/
def scan (sb : SuperBlock) (m : Disk) : Option ℕ :=
  (List.range ((sb.numBlocks + (bitPerBlock - 1)) / bitPerBlock)).findSome? fun i =>
    (sb.scanBlock m (i * bitPerBlock)).map (i * bitPerBlock + ·)

end SuperBlock

/-- `cache_alloc`: the bit is set and the block zeroed. -/
def cacheAlloc (sb : SuperBlock) (m : Disk) : Option (ℕ × Disk) := do
  let b ← sb.scan m
  let m := Function.update m (sb.bblock b) ((m (sb.bblock b)).setBit (b % bitPerBlock))
  some (b, Function.update m b Bytes.zero)

/-- `cache_free`; it panics if the bit is clear. -/
def cacheFree (sb : SuperBlock) (m : Disk) (b : ℕ) : Option Disk :=
  if sb.used m b then
    some (Function.update m (sb.bblock b) ((m (sb.bblock b)).clearBit (b % bitPerBlock)))
  else none

/-- The block cache of `fs/cache.c` as an allocator. -/
def bcacheAlloc (sb : SuperBlock) : BlockAlloc := ⟨cacheAlloc sb, cacheFree sb⟩

/-! ## The scan -/

section Scan

variable {sb : SuperBlock} {m m' : Disk} {a b i : ℕ}

private theorem used_mul_add (h : i < bitPerBlock) :
    sb.used m (a * bitPerBlock + i) = (m (sb.bblock (a * bitPerBlock))).bit i := by
  have hdiv : (a * bitPerBlock + i) / bitPerBlock = a * bitPerBlock / bitPerBlock := by
    rw [bitPerBlock_eq] at h ⊢
    omega
  have hmod : (a * bitPerBlock + i) % bitPerBlock = i := by
    rw [bitPerBlock_eq] at h ⊢
    omega
  rw [SuperBlock.used, SuperBlock.bblock, hdiv, hmod, SuperBlock.bblock]

private theorem scanBlock_eq_none (h : sb.scanBlock m (a * bitPerBlock) = none)
    (hi : i < bitPerBlock) (hn : a * bitPerBlock + i < sb.numBlocks) :
    sb.used m (a * bitPerBlock + i) = true := by
  rw [SuperBlock.scanBlock, List.find?_eq_none] at h
  have := h i (List.mem_range.mpr hi)
  rw [decide_eq_true hn, Bool.true_and, Bool.not_eq_true, Bool.not_eq_false'] at this
  rw [used_mul_add hi, this]

/-- **`cache_alloc` takes the first block** whose bit is clear. -/
theorem scan_eq_some (h : sb.scan m = some b) :
    b < sb.numBlocks ∧ sb.used m b = false ∧ ∀ a, a < b → sb.used m a = true := by
  rw [SuperBlock.scan, List.findSome?_eq_some_iff] at h
  obtain ⟨l₁, i, l₂, hl, hi, hbefore⟩ := h
  obtain ⟨bi, hbi, rfl⟩ := Option.map_eq_some_iff.mp hi
  have hl₁ : ∀ j, j < i → j ∈ l₁ := by
    intro j hj
    have hlen : l₁.length = i := by
      have := congrArg (fun l => l[l₁.length]?) hl
      simp only [List.getElem?_append_right (le_refl _), Nat.sub_self, List.getElem?_cons_zero] at this
      rw [List.getElem?_eq_some_iff] at this
      obtain ⟨hlt, heq⟩ := this
      rw [List.getElem_range] at heq
      exact heq
    have htake := congrArg (List.take l₁.length) hl
    rw [List.take_left, List.take_range, hlen] at htake
    rw [← htake, List.mem_range]
    have := congrArg List.length hl
    simp only [List.length_range, List.length_append, List.length_cons] at this
    omega
  rw [SuperBlock.scanBlock, List.find?_range_eq_some] at hbi
  simp only [Bool.and_eq_true, decide_eq_true_eq, Bool.not_eq_true'] at hbi
  obtain ⟨⟨hn, hclear⟩, hlt, hfirst⟩ := hbi
  rw [List.mem_range] at hlt
  refine ⟨hn, by rw [used_mul_add hlt]; exact hclear, ?_⟩
  intro a ha
  have hsplit : a = a / bitPerBlock * bitPerBlock + a % bitPerBlock := (Nat.div_add_mod' _ _).symm
  have hmod : a % bitPerBlock < bitPerBlock := Nat.mod_lt _ (by decide)
  rw [hsplit]
  rcases Nat.lt_or_ge (a / bitPerBlock) i with hai | hai
  · -- an earlier bitmap block
    have := hbefore _ (hl₁ _ hai)
    rw [Option.map_eq_none_iff] at this
    exact scanBlock_eq_none this hmod (by omega)
  · -- the same one
    have hq : a / bitPerBlock = i := by
      rw [bitPerBlock_eq] at hlt ha hai ⊢
      omega
    rw [hq] at hsplit ⊢
    have hbit := hfirst (a % bitPerBlock) (by omega)
    have hlt' : i * bitPerBlock + a % bitPerBlock < sb.numBlocks := by omega
    rw [decide_eq_true hlt', Bool.true_and, Bool.not_eq_false'] at hbit
    rw [used_mul_add hmod, hbit]

theorem scan_eq_none (h : sb.scan m = none) (hb : b < sb.numBlocks) : sb.used m b = true := by
  rw [SuperBlock.scan, List.findSome?_eq_none_iff] at h
  have hmod : b % bitPerBlock < bitPerBlock := Nat.mod_lt _ (by decide)
  have hsplit : b = b / bitPerBlock * bitPerBlock + b % bitPerBlock := (Nat.div_add_mod' _ _).symm
  have := h (b / bitPerBlock) (by
    rw [List.mem_range]
    simp only [bitPerBlock_eq]
    omega)
  rw [Option.map_eq_none_iff] at this
  rw [hsplit]
  exact scanBlock_eq_none this hmod (by omega)

end Scan

/-! ## The bits after an operation -/

section Bits

variable {sb : SuperBlock} {m m' : Disk} {a b : ℕ}

private theorem bblock_mod_inj (h : sb.bblock a = sb.bblock b)
    (h' : a % bitPerBlock = b % bitPerBlock) : a = b := by
  simp only [SuperBlock.bblock, bitPerBlock_eq] at h h'
  omega

theorem SuperBlock.used_congr (h : m' (sb.bblock a) = m (sb.bblock a)) :
    sb.used m' a = sb.used m a := by
  rw [used, h, used]

theorem used_setBit (sb : SuperBlock) (m : Disk) (a b : ℕ) :
    sb.used (Function.update m (sb.bblock b) ((m (sb.bblock b)).setBit (b % bitPerBlock))) a =
      (decide (a = b) || sb.used m a) := by
  have hmod : b % bitPerBlock < bitPerBlock := Nat.mod_lt _ (by decide)
  rw [SuperBlock.used]
  by_cases hb : sb.bblock a = sb.bblock b
  · rw [hb, Function.update_self, Bytes.bit_setBit _ hmod, SuperBlock.used, hb]
    congr 1
    rw [decide_eq_decide]
    exact ⟨bblock_mod_inj hb, fun h => by rw [h]⟩
  · rw [Function.update_of_ne hb, decide_eq_false, Bool.false_or, SuperBlock.used]
    rintro rfl
    exact hb rfl

theorem used_clearBit (sb : SuperBlock) (m : Disk) (a b : ℕ) :
    sb.used (Function.update m (sb.bblock b) ((m (sb.bblock b)).clearBit (b % bitPerBlock))) a =
      (!decide (a = b) && sb.used m a) := by
  rw [SuperBlock.used]
  by_cases hb : sb.bblock a = sb.bblock b
  · rw [hb, Function.update_self, Bytes.bit_clearBit, SuperBlock.used, hb]
    congr 2
    rw [decide_eq_decide]
    exact ⟨bblock_mod_inj hb, fun h => by rw [h]⟩
  · rw [Function.update_of_ne hb, decide_eq_false, Bool.not_false, Bool.true_and, SuperBlock.used]
    rintro rfl
    exact hb rfl

end Bits

/-! ## The bitmap as a set -/

/-- The bits that are set are those of the blocks in use `U` and of the reserved blocks `K`, and
at least `n` are clear. -/
structure SuperBlock.Exact (sb : SuperBlock) (K : Set ℕ) (n : ℕ) (U : Set ℕ) (m : Disk) :
    Prop where
  bits : ∀ b, b < sb.numBlocks → (sb.used m b = true ↔ b ∈ U ∨ b ∈ K)
  lt : ∀ b ∈ U, b < sb.numBlocks
  off : ∀ b ∈ U, b ∉ K
  count : n ≤ ((Finset.range sb.numBlocks).filter fun b => sb.used m b = false).card

/-- The blocks that are never handed out: block 0 and the bitmap. -/
structure SuperBlock.Reserved (sb : SuperBlock) (K : Set ℕ) : Prop where
  zero : 0 ∈ K
  bitmap : sb.bitmapBlocks ⊆ K

section Lawful

variable {sb : SuperBlock} {K U : Set ℕ} {m m' : Disk} {a b n : ℕ} {d : Sector}

/-- A block in use does not hold bits. -/
theorem SuperBlock.Exact.bblock_ne (h : sb.Exact K n U m) (hK : sb.Reserved K) (hb : b ∈ U)
    (ha : a < sb.numBlocks) : sb.bblock a ≠ b := by
  rintro rfl
  exact h.off _ hb (hK.bitmap ⟨a, ha, rfl⟩)

/-- The bitmap does not depend on the blocks in use. -/
theorem SuperBlock.Exact.sync (h : sb.Exact K n U m) (hK : sb.Reserved K) (hb : b ∈ U) :
    sb.Exact K n U (Function.update m b d) := by
  have hused : ∀ a, a < sb.numBlocks → sb.used (Function.update m b d) a = sb.used m a := by
    intro a ha
    exact SuperBlock.used_congr (Function.update_of_ne (h.bblock_ne hK hb ha) _ _)
  refine ⟨?_, h.lt, h.off, ?_⟩
  · intro a ha
    rw [hused a ha]
    exact h.bits a ha
  · refine le_trans h.count (Finset.card_le_card ?_)
    intro a ha
    rw [Finset.mem_filter] at ha ⊢
    rw [hused a (Finset.mem_range.mp ha.1)]
    exact ha

theorem SuperBlock.Exact.mono {n' : ℕ} (h : sb.Exact K n U m) (hn : n' ≤ n) :
    sb.Exact K n' U m := ⟨h.bits, h.lt, h.off, le_trans hn h.count⟩

theorem cacheAlloc_eq_some (h : cacheAlloc sb m = some (b, m')) :
    sb.scan m = some b ∧ m' = Function.update
      (Function.update m (sb.bblock b) ((m (sb.bblock b)).setBit (b % bitPerBlock))) b
      Bytes.zero := by
  rw [cacheAlloc] at h
  rcases hs : sb.scan m with - | b'
  · rw [hs] at h
    cases h
  · rw [hs] at h
    cases h
    exact ⟨rfl, rfl⟩

theorem SuperBlock.Exact.alloc (h : sb.Exact K n U m) (hK : sb.Reserved K)
    (ha : cacheAlloc sb m = some (b, m')) : b ∉ U ∧ b ∉ K ∧ b < sb.numBlocks ∧
      m' b = Bytes.zero ∧ (∀ a ∈ U, m' a = m a) ∧ sb.Exact K (n - 1) (insert b U) m' := by
  obtain ⟨hscan, rfl⟩ := cacheAlloc_eq_some ha
  obtain ⟨hlt, hclear, -⟩ := scan_eq_some hscan
  have hnot : ¬ (b ∈ U ∨ b ∈ K) := by
    rw [← h.bits b hlt, hclear]
    decide
  rw [not_or] at hnot
  -- the block is no bitmap block, so zeroing it clears no bit
  have hbb : ∀ a, a < sb.numBlocks → sb.bblock a ≠ b := by
    rintro a ha' rfl
    exact hnot.2 (hK.bitmap ⟨a, ha', rfl⟩)
  have hused : ∀ a, a < sb.numBlocks → sb.used (Function.update (Function.update m (sb.bblock b)
      ((m (sb.bblock b)).setBit (b % bitPerBlock))) b Bytes.zero) a =
        (decide (a = b) || sb.used m a) := by
    intro a ha'
    rw [SuperBlock.used_congr (Function.update_of_ne (hbb a ha') _ _), used_setBit]
  refine ⟨hnot.1, hnot.2, hlt, Function.update_self .., ?_, ?_, ?_, ?_, ?_⟩
  · intro a haU
    rw [Function.update_of_ne, Function.update_of_ne]
    · exact (h.bblock_ne hK haU hlt).symm
    · rintro rfl
      exact hnot.1 haU
  · intro a ha'
    rw [hused a ha', Bool.or_eq_true, decide_eq_true_eq, h.bits a ha', Set.mem_insert_iff, or_assoc]
  · intro a haU
    rcases Set.mem_insert_iff.mp haU with rfl | haU
    · exact hlt
    · exact h.lt a haU
  · intro a haU
    rcases Set.mem_insert_iff.mp haU with rfl | haU
    · exact hnot.2
    · exact h.off a haU
  · -- one clear bit less
    have herase : ((Finset.range sb.numBlocks).filter fun a => sb.used m a = false).erase b ⊆
        (Finset.range sb.numBlocks).filter fun a => sb.used (Function.update (Function.update m
          (sb.bblock b) ((m (sb.bblock b)).setBit (b % bitPerBlock))) b Bytes.zero) a = false := by
      intro a ha'
      rw [Finset.mem_erase, Finset.mem_filter] at ha'
      rw [Finset.mem_filter, hused a (Finset.mem_range.mp ha'.2.1)]
      refine ⟨ha'.2.1, ?_⟩
      rw [decide_eq_false ha'.1, Bool.false_or]
      exact ha'.2.2
    have hmem : b ∈ (Finset.range sb.numBlocks).filter fun a => sb.used m a = false :=
      Finset.mem_filter.mpr ⟨Finset.mem_range.mpr hlt, hclear⟩
    refine le_trans ?_ (Finset.card_le_card herase)
    rw [Finset.card_erase_of_mem hmem]
    exact Nat.sub_le_sub_right h.count 1

theorem SuperBlock.Exact.free (h : sb.Exact K n U m) (hK : sb.Reserved K) (hb : b ∈ U) :
    ∃ m', cacheFree sb m b = some m' ∧ (∀ a, a ∉ K → m' a = m a) ∧ sb.Exact K n (U \ {b}) m' := by
  have hlt := h.lt b hb
  have hset : sb.used m b = true := (h.bits b hlt).mpr (Or.inl hb)
  refine ⟨_, if_pos hset, ?_, ?_, ?_, ?_, ?_⟩
  · intro a ha
    apply Function.update_of_ne
    rintro rfl
    exact ha (hK.bitmap ⟨b, hlt, rfl⟩)
  · intro a ha
    rw [used_clearBit, Bool.and_eq_true, Bool.not_eq_true', decide_eq_false_iff_not, h.bits a ha,
      Set.mem_sdiff, Set.mem_singleton_iff]
    constructor
    · rintro ⟨hne, haU | haK⟩
      · exact Or.inl ⟨haU, hne⟩
      · exact Or.inr haK
    · rintro (⟨haU, hne⟩ | haK)
      · exact ⟨hne, Or.inl haU⟩
      · refine ⟨?_, Or.inr haK⟩
        rintro rfl
        exact h.off _ hb haK
  · intro a ha
    exact h.lt a ha.1
  · intro a ha
    exact h.off a ha.1
  · refine le_trans h.count (Finset.card_le_card ?_)
    intro a ha
    rw [Finset.mem_filter] at ha ⊢
    rw [used_clearBit, ha.2]
    exact ⟨ha.1, Bool.and_false _⟩

/-- **`cache_alloc` hands out fresh zeroed blocks.** -/
theorem cacheAlloc_lawful (hK : sb.Reserved K) : (bcacheAlloc sb).Lawful (sb.Exact K) where
  returns := by
    intro n U m h
    rcases hs : sb.scan m with - | b
    · -- no bit is clear
      exfalso
      have hempty : ((Finset.range sb.numBlocks).filter fun b => sb.used m b = false) = ∅ := by
        rw [Finset.filter_eq_empty_iff]
        intro b hb
        rw [scan_eq_none hs (Finset.mem_range.mp hb)]
        decide
      have := h.count
      rw [hempty, Finset.card_empty] at this
      omega
    · show (cacheAlloc sb m).isSome
      rw [cacheAlloc, hs]
      rfl
  fresh := by
    intro n U m b m' h ha
    obtain ⟨hU, hbK, hlt, hz, hsame, hE⟩ := h.alloc hK ha
    refine ⟨hU, ?_, Nat.lt_trans hlt (sb.isU32 _ (by simp)), hz, hsame, hE⟩
    rintro rfl
    exact hbK hK.zero
  sync := fun h hb => h.sync hK hb
  mono := fun h hn => h.mono hn

end Lawful

end OsLab
