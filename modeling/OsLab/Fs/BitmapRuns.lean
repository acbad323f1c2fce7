import OsLab.Fs.Bitmap
import OsLab.Fs.Ownership

/-!
# The scan of the bitmap and its histories

`cache_alloc` walks over the bitmap with two `u32` counters.  With a device of at
most `2 ^ 32 - BIT_PER_BLOCK` blocks neither of them wraps around, and the walk is
the scan `cacheAlloc`.  A history is a sequence of allocations and frees, with
writes to blocks outside the bitmap in between.

## Main definitions

* `allocInner`, `allocOuter`, `cacheAllocLoop` — the loops of `cache_alloc`.
* `BitmapRun`, `liveBlocks`, `setBits` — histories, and what they leave behind.
* `bitmap_alloc_free` — what the two operations do, alone and over histories.
-/

namespace OsLab

/-! ## The loops -/

/-- `for (bi = 0; bi < BIT_PER_BLOCK && b + bi < num_blocks; bi++)`: the first clear bit.
The outer `none` says that the rounds did not suffice. -/
def allocInner (n : UInt32) (d : Sector) (b : UInt32) : ℕ → UInt32 → Option (Option UInt32)
  | 0, _ => none
  | k + 1, bi =>
      if bi < 4096 ∧ b + bi < n then
        if d.bit bi.toNat then allocInner n d b k (bi + 1) else some (some bi)
      else some none

/-- `for (b = 0; b < num_blocks; b += BIT_PER_BLOCK)`, and the panic behind the loop. -/
def allocOuter (sb : SuperBlock) (m : Disk) : ℕ → UInt32 → Option (Option (ℕ × Disk))
  | 0, _ => none
  | k + 1, b =>
      if b < UInt32.ofNat sb.numBlocks then
        let a := sb.bblock b.toNat
        match allocInner (UInt32.ofNat sb.numBlocks) (m a) b (bitPerBlock + 1) 0 with
        | none => none
        | some none => allocOuter sb m k (b + 4096)
        | some (some bi) =>
            let m := Function.update m a ((m a).setBit bi.toNat)
            some (some ((b + bi).toNat, Function.update m (b + bi).toNat Bytes.zero))
      else some none

/-- `cache_alloc`, with as many rounds as the device has bitmap blocks. -/
def cacheAllocLoop (sb : SuperBlock) (m : Disk) : Option (Option (ℕ × Disk)) :=
  allocOuter sb m (sb.numBlocks / bitPerBlock + 2) 0

section Loops

/-- The scan is determined by being the first clear bit. -/
theorem scan_eq_some_of_first {sb : SuperBlock} {m : Disk} {b : ℕ} (hb : b < sb.numBlocks)
    (hclear : sb.used m b = false) (hfirst : ∀ a, a < b → sb.used m a = true) :
    sb.scan m = some b := by
  rcases hs : sb.scan m with - | x
  · rw [scan_eq_none hs hb] at hclear
    cases hclear
  · obtain ⟨-, hx, hxfirst⟩ := scan_eq_some hs
    rcases Nat.lt_trichotomy x b with h | rfl | h
    · rw [hfirst x h] at hx
      cases hx
    · rfl
    · rw [hxfirst b h] at hclear
      cases hclear

theorem scan_eq_none_of_all {sb : SuperBlock} {m : Disk}
    (hall : ∀ a, a < sb.numBlocks → sb.used m a = true) : sb.scan m = none := by
  rcases hs : sb.scan m with - | x
  · rfl
  · obtain ⟨hlt, hx, -⟩ := scan_eq_some hs
    rw [hall x hlt] at hx
    cases hx

variable {sb : SuperBlock} {m : Disk} {n b bi : UInt32} {d : Sector} {k : ℕ}

/-- The inner loop ends, at the first clear bit if there is one. -/
theorem allocInner_spec (hb : b.toNat + 4096 < 2 ^ 32) (hbi : bi.toNat ≤ 4096)
    (hk : 4096 < k + bi.toNat) :
    ∃ r, allocInner n d b k bi = some r ∧
      (r = none → ∀ j, bi.toNat ≤ j → j < 4096 → b.toNat + j < n.toNat → d.bit j = true) ∧
      ∀ x, r = some x → x.toNat < 4096 ∧ b.toNat + x.toNat < n.toNat ∧
        d.bit x.toNat = false ∧ ∀ j, bi.toNat ≤ j → j < x.toNat → d.bit j = true := by
  induction k generalizing bi with
  | zero => omega
  | succ k ih =>
      have hsum : (b + bi).toNat = b.toNat + bi.toNat := by
        rw [UInt32.toNat_add]
        omega
      rw [allocInner]
      by_cases hin : bi < 4096 ∧ b + bi < n
      · rw [if_pos hin]
        obtain ⟨hlt, hn⟩ := hin
        rw [UInt32.lt_iff_toNat_lt, hsum] at hn
        have hlt' : bi.toNat < 4096 := UInt32.lt_iff_toNat_lt.mp hlt
        by_cases hbit : d.bit bi.toNat = true
        · rw [if_pos hbit]
          have hsucc : (bi + 1).toNat = bi.toNat + 1 := by
            rw [UInt32.toNat_add]
            simp only [UInt32.toNat_one]
            omega
          obtain ⟨r, hr, hnone, hsome⟩ := @ih (bi + 1) (by omega) (by omega)
          rw [hsucc] at hnone hsome
          refine ⟨r, hr, ?_, ?_⟩
          · intro h j hj
            rcases Nat.eq_or_lt_of_le hj with rfl | hj
            · intro _ _
              exact hbit
            · exact hnone h j hj
          · intro x hx
            obtain ⟨hx₁, hx₂, hx₃, hx₄⟩ := hsome x hx
            refine ⟨hx₁, hx₂, hx₃, ?_⟩
            intro j hj
            rcases Nat.eq_or_lt_of_le hj with rfl | hj
            · intro _
              exact hbit
            · exact hx₄ j hj
        · rw [if_neg hbit]
          rw [Bool.not_eq_true] at hbit
          refine ⟨_, rfl, by simp, ?_⟩
          intro x hx
          cases hx
          exact ⟨hlt', hn, hbit, by omega⟩
      · rw [if_neg hin]
        refine ⟨_, rfl, ?_, by simp⟩
        intro _ j hj hj' hjn
        -- a bit that is left would let the loop go on
        refine absurd ⟨?_, ?_⟩ hin
        · rw [UInt32.lt_iff_toNat_lt]
          show bi.toNat < 4096
          omega
        · rw [UInt32.lt_iff_toNat_lt, hsum]
          omega

/-- The outer loop ends, at the first block that is not in use if there is one. -/
theorem allocOuter_spec (hn : sb.numBlocks ≤ 2 ^ 32 - bitPerBlock) (hb : b.toNat % 4096 = 0)
    (hle : b.toNat < sb.numBlocks + 4096) (hk : sb.numBlocks + 4096 < 4096 * k + b.toNat)
    (hbefore : ∀ a, a < b.toNat → a < sb.numBlocks → sb.used m a = true) :
    allocOuter sb m k b = some (cacheAlloc sb m) := by
  have hN : (UInt32.ofNat sb.numBlocks).toNat = sb.numBlocks :=
    UInt32.toNat_ofNat_of_lt (sb.isU32 _ (by simp))
  rw [bitPerBlock_eq] at hn
  induction k generalizing b with
  | zero => omega
  | succ k ih =>
      rw [allocOuter]
      by_cases hlt : b < UInt32.ofNat sb.numBlocks
      · rw [if_pos hlt]
        rw [UInt32.lt_iff_toNat_lt, hN] at hlt
        have hused : ∀ j, j < 4096 →
            sb.used m (b.toNat + j) = (m (sb.bblock b.toNat)).bit j := by
          intro j hj
          have hdiv : (b.toNat + j) / bitPerBlock = b.toNat / bitPerBlock := by
            rw [bitPerBlock_eq]
            omega
          have hmod : (b.toNat + j) % bitPerBlock = j := by
            rw [bitPerBlock_eq]
            omega
          rw [SuperBlock.used, SuperBlock.bblock, hdiv, hmod, SuperBlock.bblock]
        obtain ⟨r, hr, hnone, hsome⟩ := @allocInner_spec
          (UInt32.ofNat sb.numBlocks) b 0 (m (sb.bblock b.toNat)) (bitPerBlock + 1) (by omega)
          (by simp) (by simp [bitPerBlock_eq])
        rw [hN] at hnone hsome
        simp only [hr]
        rcases r with - | bi
        · -- the next bitmap block
          have hnext : (b + 4096).toNat = b.toNat + 4096 := by
            have h4096 : (4096 : UInt32).toNat = 4096 := rfl
            rw [UInt32.toNat_add, h4096]
            omega
          simp only
          refine ih (by omega) (by omega) (by omega) ?_
          intro a ha han
          rcases Nat.lt_or_ge a b.toNat with hab | hab
          · exact hbefore a hab han
          · have := hnone rfl (a - b.toNat) (by simp) (by omega) (by omega)
            rw [← hused _ (by omega), Nat.add_sub_of_le hab] at this
            exact this
        · obtain ⟨hbi, hlast, hclear, hset⟩ := hsome bi rfl
          have hsum : (b + bi).toNat = b.toNat + bi.toNat := by
            rw [UInt32.toNat_add]
            omega
          have hscan : sb.scan m = some (b + bi).toNat := by
            refine scan_eq_some_of_first (by omega) ?_ ?_
            · rw [hsum, hused _ hbi, hclear]
            · intro a ha
              rcases Nat.lt_or_ge a b.toNat with hab | hab
              · exact hbefore a hab (by omega)
              · have := hset (a - b.toNat) (by simp) (by omega)
                rw [← hused _ (by omega), Nat.add_sub_of_le hab] at this
                exact this
          have hdiv : sb.bblock (b + bi).toNat = sb.bblock b.toNat := by
            rw [hsum, SuperBlock.bblock, SuperBlock.bblock, bitPerBlock_eq]
            congr 1
            omega
          have hmod : (b + bi).toNat % bitPerBlock = bi.toNat := by
            rw [hsum, bitPerBlock_eq]
            omega
          simp only [cacheAlloc, hscan, Option.bind_eq_bind, Option.bind_some, hdiv, hmod]
      · rw [if_neg hlt]
        rw [UInt32.lt_iff_toNat_lt, hN] at hlt
        rw [cacheAlloc, scan_eq_none_of_all fun a ha => hbefore a (by omega) ha]
        rfl

/-- **The loops are the scan.** -/
theorem cacheAllocLoop_eq (hn : sb.numBlocks ≤ 2 ^ 32 - bitPerBlock) :
    cacheAllocLoop sb m = some (cacheAlloc sb m) := by
  refine allocOuter_spec hn rfl (by simp) ?_ (by simp)
  rw [bitPerBlock_eq]
  simp only [UInt32.toNat_zero]
  omega

end Loops

/-! ## Histories -/

/-- What a user of the allocator does. -/
inductive BitmapEvent
  | alloc (b : ℕ)
  | free (b : ℕ)
  | write (b : ℕ) (d : Sector)

/-- A history, one event after the other, newest first.  Nobody writes the bitmap by hand. -/
inductive BitmapRun (sb : SuperBlock) (m₀ : Disk) : List BitmapEvent → Disk → Prop
  | start : BitmapRun sb m₀ [] m₀
  | alloc {es : List BitmapEvent} {m m' : Disk} {b : ℕ} :
      BitmapRun sb m₀ es m → cacheAllocLoop sb m = some (some (b, m')) →
      BitmapRun sb m₀ (.alloc b :: es) m'
  | free {es : List BitmapEvent} {m m' : Disk} {b : ℕ} :
      BitmapRun sb m₀ es m → cacheFree sb m b = some m' →
      BitmapRun sb m₀ (.free b :: es) m'
  | write {es : List BitmapEvent} {m : Disk} {b : ℕ} {d : Sector} :
      BitmapRun sb m₀ es m → b ∉ sb.bitmapBlocks →
      BitmapRun sb m₀ (.write b d :: es) (Function.update m b d)

/-- The blocks handed out and not freed since. -/
def liveBlocks : List BitmapEvent → List ℕ
  | [] => []
  | .alloc b :: es => b :: liveBlocks es
  | .free b :: es => (liveBlocks es).erase b
  | .write _ _ :: es => liveBlocks es

/-- A set of blocks, plus those allocated and minus those freed. -/
def setBits (U : Set ℕ) : List BitmapEvent → Set ℕ
  | [] => U
  | .alloc b :: es => insert b (setBits U es)
  | .free b :: es => setBits U es \ {b}
  | .write _ _ :: es => setBits U es

section Histories

variable {sb : SuperBlock} {m m' : Disk} {a b : ℕ} {U : Set ℕ} {es : List BitmapEvent}

/-- The bits of the meta blocks are set, as far as the bitmap goes. -/
def SuperBlock.MetaSet (sb : SuperBlock) (m : Disk) : Prop :=
  ∀ a ∈ sb.bitmapBlocks, a < sb.numBlocks → sb.used m a = true

/-- A block that is handed out is no bitmap block. -/
theorem SuperBlock.MetaSet.notMem (h : sb.MetaSet m) (hb : b < sb.numBlocks)
    (hclear : sb.used m b = false) : b ∉ sb.bitmapBlocks := by
  intro hmem
  rw [h b hmem hb] at hclear
  cases hclear

theorem SuperBlock.MetaSet.used_alloc (h : sb.MetaSet m) (ha : cacheAlloc sb m = some (b, m'))
    (hmem : sb.bblock a ∈ sb.bitmapBlocks) : sb.used m' a = (decide (a = b) || sb.used m a) := by
  obtain ⟨hscan, rfl⟩ := cacheAlloc_eq_some ha
  obtain ⟨hlt, hclear, -⟩ := scan_eq_some hscan
  have hne : sb.bblock a ≠ b := by
    intro he
    rw [he] at hmem
    exact h.notMem hlt hclear hmem
  rw [SuperBlock.used_congr (Function.update_of_ne hne _ _), used_setBit]

theorem SuperBlock.used_free (ha : cacheFree sb m b = some m') :
    sb.used m' a = (!decide (a = b) && sb.used m a) := by
  rw [cacheFree] at ha
  split at ha
  · cases ha
    rw [used_clearBit]
  · cases ha

/-- What a history keeps. -/
structure BitmapInv (sb : SuperBlock) (m₀ : Disk) (es : List BitmapEvent) (m : Disk) : Prop where
  metaSet : sb.MetaSet m
  bits : ∀ a, sb.bblock a ∈ sb.bitmapBlocks →
    (sb.used m a = true ↔ a ∈ setBits { a | sb.used m₀ a = true } es)
  live : ∀ b ∈ liveBlocks es, b < sb.numBlocks ∧ sb.used m b = true
  nodup : (liveBlocks es).Nodup

theorem BitmapInv.alloc {m₀ : Disk} (h : BitmapInv sb m₀ es m)
    (ha : cacheAlloc sb m = some (b, m')) : BitmapInv sb m₀ (.alloc b :: es) m' := by
  obtain ⟨hlt, hclear, -⟩ := scan_eq_some (cacheAlloc_eq_some ha).1
  have hused : ∀ a, sb.bblock a ∈ sb.bitmapBlocks →
      sb.used m' a = (decide (a = b) || sb.used m a) := fun a => h.metaSet.used_alloc ha
  refine ⟨?_, ?_, ?_, ?_⟩
  · intro a hmem han
    rw [hused a ⟨a, han, rfl⟩, h.metaSet a hmem han, Bool.or_true]
  · intro a hmem
    rw [hused a hmem, Bool.or_eq_true, decide_eq_true_eq, h.bits a hmem]
    rfl
  · intro a hmem
    rcases List.mem_cons.mp hmem with rfl | hmem
    · refine ⟨hlt, ?_⟩
      rw [hused a ⟨a, hlt, rfl⟩, decide_eq_true rfl, Bool.true_or]
    · obtain ⟨han, hu⟩ := h.live a hmem
      exact ⟨han, by rw [hused a ⟨a, han, rfl⟩, hu, Bool.or_true]⟩
  · refine List.nodup_cons.mpr ⟨?_, h.nodup⟩
    intro hmem
    rw [(h.live b hmem).2] at hclear
    cases hclear

theorem BitmapInv.free {m₀ : Disk} (h : BitmapInv sb m₀ es m) (hb : b ∉ sb.bitmapBlocks)
    (ha : cacheFree sb m b = some m') : BitmapInv sb m₀ (.free b :: es) m' := by
  have hused : ∀ a, sb.used m' a = (!decide (a = b) && sb.used m a) :=
    fun a => SuperBlock.used_free ha
  refine ⟨?_, ?_, ?_, ?_⟩
  · intro a hmem han
    have hne : a ≠ b := by
      rintro rfl
      exact hb hmem
    rw [hused a, decide_eq_false hne, h.metaSet a hmem han]
    rfl
  · intro a hmem
    rw [hused a, Bool.and_eq_true, Bool.not_eq_true', decide_eq_false_iff_not, h.bits a hmem,
      and_comm]
    rfl
  · intro a hmem
    obtain ⟨hne, hmem⟩ := (h.nodup.mem_erase_iff).mp hmem
    obtain ⟨han, hu⟩ := h.live a hmem
    exact ⟨han, by rw [hused a, decide_eq_false hne, hu]; rfl⟩
  · exact h.nodup.erase b

theorem BitmapInv.write {m₀ : Disk} {d : Sector} (h : BitmapInv sb m₀ es m)
    (hb : b ∉ sb.bitmapBlocks) : BitmapInv sb m₀ (.write b d :: es) (Function.update m b d) := by
  have hused : ∀ a, sb.bblock a ∈ sb.bitmapBlocks →
      sb.used (Function.update m b d) a = sb.used m a := by
    intro a hmem
    refine SuperBlock.used_congr (Function.update_of_ne ?_ _ _)
    intro he
    rw [he] at hmem
    exact hb hmem
  refine ⟨?_, ?_, ?_, h.nodup⟩
  · intro a hmem han
    rw [hused a ⟨a, han, rfl⟩, h.metaSet a hmem han]
  · intro a hmem
    rw [hused a hmem, h.bits a hmem]
    rfl
  · intro a hmem
    obtain ⟨han, hu⟩ := h.live a hmem
    exact ⟨han, by rw [hused a ⟨a, han, rfl⟩, hu]⟩

/-- The invariant along a history. -/
theorem BitmapRun.inv {m₀ : Disk} (hn : sb.numBlocks ≤ 2 ^ 32 - bitPerBlock)
    (h0 : sb.MetaSet m₀) (h : BitmapRun sb m₀ es m)
    (hfree : ∀ b, BitmapEvent.free b ∈ es → b ∉ sb.bitmapBlocks) : BitmapInv sb m₀ es m := by
  induction h with
  | start => exact ⟨h0, fun _ _ => Iff.rfl, by simp [liveBlocks], List.nodup_nil⟩
  | alloc _ ha ih =>
      rw [cacheAllocLoop_eq hn, Option.some_inj] at ha
      exact (ih fun b hb => hfree b (List.mem_cons_of_mem _ hb)).alloc ha
  | free _ ha ih =>
      exact (ih fun b hb => hfree b (List.mem_cons_of_mem _ hb)).free
        (hfree _ List.mem_cons_self) ha
  | write _ hb ih => exact (ih fun b hb => hfree b (List.mem_cons_of_mem _ hb)).write hb

end Histories

/-! ## The allocator -/

/-- The bit of the bitmap block itself is set. -/
theorem Small.metaSet : Small.sb.MetaSet (Small.disk 6) := by
  rintro a ⟨b, hb, rfl⟩ -
  have hb' : ∀ b < 8, Small.sb.used (Small.disk 6) (Small.sb.bblock b) = true := by decide
  exact hb' b hb

/-- **The bitmap allocates and frees.**  `cache_alloc` ends; it finds the least block whose bit is
clear, sets that bit, zeroes the block and leaves the others alone, and it panics when there is
none.  `cache_free` clears the bit and panics when it is clear.  Over a history that
frees no bitmap block the live blocks differ, and the bits are the ones from before plus the blocks
allocated minus the blocks freed. -/
theorem bitmap_alloc_free (sb : SuperBlock) (hn : sb.numBlocks ≤ 2 ^ 32 - bitPerBlock) (m : Disk)
    (hmeta : ∀ a ∈ sb.bitmapBlocks, a < sb.numBlocks → sb.used m a = true) :
    (∃ r, cacheAllocLoop sb m = some r ∧
      (r = none ↔ ∀ a, a < sb.numBlocks → sb.used m a = true) ∧
      ∀ b m', r = some (b, m') → b < sb.numBlocks ∧ sb.used m b = false ∧
        (∀ a, a < b → sb.used m a = true) ∧ b ≠ sb.bblock b ∧ m' b = Bytes.zero ∧
        m' (sb.bblock b) = (m (sb.bblock b)).setBit (b % bitPerBlock) ∧
        (∀ a, a ≠ b → a ≠ sb.bblock b → m' a = m a) ∧
        ∀ a, sb.bblock a ∈ sb.bitmapBlocks → (sb.used m' a = true ↔ a = b ∨ sb.used m a = true)) ∧
    (∀ b, (cacheFree sb m b = none ↔ sb.used m b = false) ∧
      ∀ m', cacheFree sb m b = some m' → (∀ a, a ≠ sb.bblock b → m' a = m a) ∧
        ∀ a, sb.used m' a = true ↔ a ≠ b ∧ sb.used m a = true) ∧
    ∀ es m', BitmapRun sb m es m' →
      (∀ b, BitmapEvent.free b ∈ es → b ∉ sb.bitmapBlocks) → (liveBlocks es).Nodup ∧
      ∀ a, sb.bblock a ∈ sb.bitmapBlocks →
        (sb.used m' a = true ↔ a ∈ setBits { a | sb.used m a = true } es) := by
  refine ⟨⟨_, cacheAllocLoop_eq hn, ?_, ?_⟩, ?_, ?_⟩
  · constructor
    · intro h a ha
      rw [cacheAlloc] at h
      rcases hs : sb.scan m with - | x
      · exact scan_eq_none hs ha
      · rw [hs] at h
        cases h
    · intro h
      rw [cacheAlloc, scan_eq_none_of_all h]
      rfl
  · intro b m' h
    have hused := fun a => SuperBlock.MetaSet.used_alloc (a := a) hmeta h
    obtain ⟨hscan, rfl⟩ := cacheAlloc_eq_some h
    obtain ⟨hlt, hclear, hfirst⟩ := scan_eq_some hscan
    have hne : b ≠ sb.bblock b := by
      intro he
      refine SuperBlock.MetaSet.notMem hmeta hlt hclear ?_
      rw [he]
      exact ⟨b, hlt, rfl⟩
    refine ⟨hlt, hclear, hfirst, hne, Function.update_self .., ?_, ?_, ?_⟩
    · rw [Function.update_of_ne hne.symm, Function.update_self]
    · intro a hab ha
      rw [Function.update_of_ne hab, Function.update_of_ne ha]
    · intro a hmem
      rw [hused a hmem, Bool.or_eq_true, decide_eq_true_eq]
  · intro b
    refine ⟨?_, ?_⟩
    · rw [cacheFree, ite_eq_right_iff, ← Bool.not_eq_true]
      simp
    · intro m' h
      refine ⟨?_, ?_⟩
      · intro a ha
        rw [cacheFree] at h
        split at h
        · cases h
          rw [Function.update_of_ne ha]
        · cases h
      · intro a
        rw [SuperBlock.used_free h, Bool.and_eq_true, Bool.not_eq_true', decide_eq_false_iff_not]
  · intro es m' h hfree
    have hI := h.inv hn hmeta hfree
    exact ⟨hI.nodup, hI.bits⟩

/-- With the first six bits set, block 6 is handed out, and after it and block 5 are freed, block 5
is the first that is. -/
theorem bitmap_alloc_free_small :
    (∃ m', cacheAllocLoop Small.sb (Small.disk 6) = some (some (6, m')) ∧ m' 6 = Bytes.zero) ∧
    ∃ m', BitmapRun Small.sb (Small.disk 6) [.alloc 5, .free 5, .free 6, .alloc 6] m' ∧
      ∀ a, Small.sb.bblock a ∈ Small.sb.bitmapBlocks →
        (Small.sb.used m' a = true ↔
          a ∈ setBits { a | Small.sb.used (Small.disk 6) a = true }
            [.alloc 5, .free 5, .free 6, .alloc 6]) := by
  have hmeta : ∀ a ∈ Small.sb.bitmapBlocks, a < Small.sb.numBlocks →
      Small.sb.used (Small.disk 6) a = true := Small.metaSet
  obtain ⟨⟨r, hr, hnone, hsome⟩, -, hruns⟩ :=
    bitmap_alloc_free Small.sb (by decide) (Small.disk 6) hmeta
  constructor
  · have h6 : Small.sb.used (Small.disk 6) 6 = false := by decide
    rcases r with - | ⟨b, m'⟩
    · have := hnone.mp rfl 6 (by decide)
      rw [h6] at this
      cases this
    · obtain ⟨hlt, hclear, hfirst, -, hz, -⟩ := hsome b m' rfl
      have hb : b = 6 := by
        refine le_antisymm (Nat.le_of_not_lt fun h => ?_) (Nat.le_of_not_lt fun h => ?_)
        · rw [hfirst 6 h] at h6
          cases h6
        · have hset : ∀ b < 6, Small.sb.used (Small.disk 6) b = true := by decide
          rw [hset b h] at hclear
          cases hclear
      subst hb
      exact ⟨m', hr, hz⟩
  · have hrun : ((cacheAllocLoop Small.sb (Small.disk 6)).bind fun r => r.bind fun r =>
        (cacheFree Small.sb r.2 6).bind fun m₂ => (cacheFree Small.sb m₂ 5).bind fun m₃ =>
          (cacheAllocLoop Small.sb m₃).bind fun r' => r'.map fun r' => (r.1, r'.1)) =
        some (6, 5) := by decide +kernel
    simp only [Option.bind_eq_some_iff, Option.map_eq_some_iff, Prod.mk.injEq] at hrun
    obtain ⟨_, h₁, ⟨b, m₁⟩, rfl, m₂, h₂, m₃, h₃, _, h₄, ⟨b', m₄⟩, rfl, rfl, rfl⟩ := hrun
    have hes := (((BitmapRun.start.alloc h₁).free h₂).free h₃).alloc h₄
    refine ⟨m₄, hes, (hruns _ _ hes ?_).2⟩
    rintro b hb ⟨c, hc, rfl⟩
    have h4 : Small.sb.bblock c = 4 := by
      have hc' : c < 8 := hc
      rw [SuperBlock.bblock, bitPerBlock_eq, Nat.div_eq_of_lt (by omega)]
      rfl
    simp [h4] at hb

/-- Block 4, the bitmap, is freed, handed out and zeroed: the bit of the block handed out is clear,
and so are all others. -/
theorem bitmap_freed : ¬ ∀ sb : SuperBlock, sb.numBlocks ≤ 2 ^ 32 - bitPerBlock → ∀ m : Disk,
    (∀ a ∈ sb.bitmapBlocks, a < sb.numBlocks → sb.used m a = true) →
    ∀ es m', BitmapRun sb m es m' → (liveBlocks es).Nodup ∧
      ∀ a, sb.bblock a ∈ sb.bitmapBlocks →
        (sb.used m' a = true ↔ a ∈ setBits { a | sb.used m a = true } es) := by
  intro hall
  have hrun : ((cacheFree Small.sb (Small.disk 6) 4).bind fun m₁ =>
      (cacheAllocLoop Small.sb m₁).bind fun r => r.map fun r => (r.1, Small.sb.used r.2 4)) =
      some (4, false) := by decide +kernel
  simp only [Option.bind_eq_some_iff, Option.map_eq_some_iff, Prod.mk.injEq] at hrun
  obtain ⟨m₁, h₁, _, h₂, ⟨b, m₂⟩, rfl, rfl, hclear⟩ := hrun
  have hbits := (hall Small.sb (by decide) (Small.disk 6) Small.metaSet _ _
    ((BitmapRun.start.free h₁).alloc h₂)).2 4 ⟨0, by decide, by decide⟩
  rw [hclear] at hbits
  exact absurd (hbits.mpr (Or.inl rfl)) Bool.false_ne_true

end OsLab
