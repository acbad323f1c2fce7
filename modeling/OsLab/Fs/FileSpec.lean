import OsLab.Fs.Inode
import Mathlib.Data.List.GetD
import Mathlib.Data.Set.Insert

/-!
# Files as byte arrays

What `inode_map`, `inode_read` and `inode_write` do to the file of an inode, given an
allocator that hands out fresh zeroed blocks.

A file is its bytes, where a block that is not mapped reads as zero; so mapping a new
zeroed block changes no byte, and each round of `inode_write` changes the bytes it
stores and no others.  `V` is the set of blocks that other inodes use.  `Apart` says
that the inode uses no block twice and none of `V`, and every step leaves the blocks
of `V` alone.

## Main definitions

* `slot`, `blocks` — the blocks an inode uses.
* `Apart` — none of them is used twice.
* `BlockAlloc.Lawful` — what is expected of `cache->alloc`.
* `Filled` — one new block.
* `inodeMap_spec`, `writeLoop_spec`, `readLoop_spec` — the operations.
-/

namespace OsLab

/-- What is expected of `cache->alloc`.  `Good n U m` says that on the disk `m` the allocator
takes the blocks of `U` to be in use and has at least `n` more. -/
structure BlockAlloc.Lawful (c : BlockAlloc) (Good : ℕ → Set ℕ → Disk → Prop) : Prop where
  returns : ∀ {n U m}, Good (n + 1) U m → (c.alloc m).isSome
  /-- a block that is not in use, zeroed; the blocks in use do not change -/
  fresh : ∀ {n U m b m'}, Good n U m → c.alloc m = some (b, m') → b ∉ U ∧ b ≠ 0 ∧ b < 2 ^ 32 ∧
    m' b = Bytes.zero ∧ (∀ a ∈ U, m' a = m a) ∧ Good (n - 1) (insert b U) m'
  /-- the allocator does not look at the blocks in use -/
  sync : ∀ {n U m b d}, Good n U m → b ∈ U → Good n U (Function.update m b d)
  mono : ∀ {n n' U m}, Good n U m → n' ≤ n → Good n' U m

/-- The blocks of an inode by number: those of the file, and `INODE_MAX_BLOCKS` for the indirect
block; zero if there is none. -/
def slot (m : Disk) (e : InodeEntry) (s : ℕ) : ℕ :=
  if s = inodeMaxBlocks then e.indirect.toNat else blockAddr m e s

/-- The blocks an inode uses. -/
def blocks (m : Disk) (e : InodeEntry) : Set ℕ :=
  { b | b ≠ 0 ∧ ∃ s, s ≤ inodeMaxBlocks ∧ slot m e s = b }

/-- The inode uses no block twice, and none of `V`. -/
structure Apart (V : Set ℕ) (m : Disk) (e : InodeEntry) : Prop where
  inj : ∀ s t, s ≤ inodeMaxBlocks → t ≤ inodeMaxBlocks → slot m e s = slot m e t →
    slot m e s ≠ 0 → s = t
  off : ∀ b ∈ blocks m e, b ∉ V

/-- The fields of an entry that no block operation changes. -/
def SameMeta (e e' : InodeEntry) : Prop :=
  e'.type = e.type ∧ e'.major = e.major ∧ e'.minor = e.minor ∧ e'.numLinks = e.numLinks ∧
    e'.numBytes = e.numBytes

variable {c : BlockAlloc} {Good : ℕ → Set ℕ → Disk → Prop} {U V : Set ℕ} {m m' m'' : Disk}
  {e e' e'' : InodeEntry} {s t b k i n N : ℕ} {d : Sector}

theorem SameMeta.refl (e : InodeEntry) : SameMeta e e := ⟨rfl, rfl, rfl, rfl, rfl⟩

theorem SameMeta.trans (h : SameMeta e e') (h' : SameMeta e' e'') : SameMeta e e'' := by
  obtain ⟨h1, h2, h3, h4, h5⟩ := h
  obtain ⟨g1, g2, g3, g4, g5⟩ := h'
  exact ⟨g1.trans h1, g2.trans h2, g3.trans h3, g4.trans h4, g5.trans h5⟩

/-! ## Slots -/

theorem slot_of_lt (h : s < inodeMaxBlocks) : slot m e s = blockAddr m e s :=
  if_neg (Nat.ne_of_lt h)

@[simp] theorem slot_indirect (m : Disk) (e : InodeEntry) :
    slot m e inodeMaxBlocks = e.indirect.toNat := if_pos rfl

theorem mem_blocks_of_slot (hs : s ≤ inodeMaxBlocks) (h : slot m e s ≠ 0) :
    slot m e s ∈ blocks m e := ⟨h, s, hs, rfl⟩

theorem indirect_mem_blocks (h : e.indirect ≠ 0) : e.indirect.toNat ∈ blocks m e := by
  refine ⟨?_, inodeMaxBlocks, le_refl _, slot_indirect m e⟩
  intro h0
  exact h (UInt32.toNat_inj.mp h0)

/-- An entry without addresses uses no block. -/
theorem blocks_eq_empty (ha : ∀ k, e.addr k = 0) (hi : e.indirect = 0) : blocks m e = ∅ := by
  ext b
  simp only [Set.mem_empty_iff_false, iff_false]
  rintro ⟨h0, s, -, hs⟩
  apply h0
  rw [← hs, slot, blockAddr, hi, ha]
  simp

/-- Past the end of the indirect block there is no address. -/
theorem blockAddr_of_le (h : inodeMaxBlocks ≤ k) : blockAddr m e k = 0 := by
  simp only [inodeMaxBlocks_eq] at h
  rw [blockAddr, if_neg (by simp; omega)]
  split
  · rfl
  · have hz : ∀ j, (m e.indirect.toNat).get (4 * (k - inodeNumDirect) + j) = 0 := by
      intro j
      apply Bytes.get_of_le
      simp only [inodeNumDirect_eq]
      omega
    rw [indirectAddr, Bytes.word, Bytes.leNat_congr (g := fun _ => 0) fun j _ => hz j]
    rfl

/-- The addresses depend on the indirect block only. -/
theorem slot_congr (h : e.indirect ≠ 0 → m' e.indirect.toNat = m e.indirect.toNat) (s : ℕ) :
    slot m' e s = slot m e s := by
  simp only [slot, blockAddr, indirectAddr]
  by_cases hi : e.indirect = 0
  · simp [hi]
  · rw [h hi]

theorem blocks_congr (h : e.indirect ≠ 0 → m' e.indirect.toNat = m e.indirect.toNat) :
    blocks m' e = blocks m e := by
  ext b
  simp only [blocks, slot_congr h]

theorem Apart.congr (h : Apart V m e)
    (hm : e.indirect ≠ 0 → m' e.indirect.toNat = m e.indirect.toNat) : Apart V m' e := by
  constructor
  · intro s t hs ht hst h0
    rw [slot_congr hm] at hst h0
    rw [slot_congr hm] at hst
    exact h.inj s t hs ht hst h0
  · intro b hb
    rw [blocks_congr hm] at hb
    exact h.off b hb

/-- **A file is unchanged** where its blocks are. -/
theorem byteAt_congr (h : ∀ b ∈ blocks m e, m' b = m b) (i : ℕ) : byteAt m' e i = byteAt m e i := by
  have hind : e.indirect ≠ 0 → m' e.indirect.toNat = m e.indirect.toNat :=
    fun hi => h _ (indirect_mem_blocks hi)
  have haddr : blockAddr m' e (i / blockSize) = blockAddr m e (i / blockSize) := by
    rcases Nat.lt_or_ge (i / blockSize) inodeMaxBlocks with hk | hk
    · rw [← slot_of_lt hk, slot_congr hind, slot_of_lt hk]
    · rw [blockAddr_of_le hk, blockAddr_of_le hk]
  rw [byteAt, byteAt, haddr]
  split
  · rfl
  · rename_i h0
    have hk : i / blockSize < inodeMaxBlocks := by
      by_contra hk
      exact h0 (blockAddr_of_le (by omega))
    rw [h]
    rw [← slot_of_lt hk] at h0 ⊢
    exact mem_blocks_of_slot hk.le h0

/-! ## One new block -/

/-- The free block `b` has become slot `s` of the inode. -/
structure Filled (V : Set ℕ) (m : Disk) (e : InodeEntry) (s b : ℕ) (m' : Disk) (e' : InodeEntry) :
    Prop where
  le : s ≤ inodeMaxBlocks
  empty : slot m e s = 0
  slot : ∀ t, t ≤ inodeMaxBlocks → slot m' e' t = if t = s then b else slot m e t
  ne_zero : b ≠ 0
  fresh : b ∉ V ∧ b ∉ blocks m e
  zero : m' b = Bytes.zero
  others : ∀ a ∈ V, m' a = m a
  data : ∀ t, t < inodeMaxBlocks → OsLab.slot m e t ≠ 0 →
    m' (OsLab.slot m e t) = m (OsLab.slot m e t)
  same : SameMeta e e'

namespace Filled

theorem blocks (h : Filled V m e s b m' e') : blocks m' e' = insert b (OsLab.blocks m e) := by
  ext a
  constructor
  · rintro ⟨h0, t, ht, hta⟩
    rw [h.slot t ht] at hta
    split at hta
    · exact Set.mem_insert_iff.mpr (Or.inl hta.symm)
    · exact Set.mem_insert_of_mem _ ⟨h0, t, ht, hta⟩
  · intro ha
    rcases Set.mem_insert_iff.mp ha with rfl | ⟨h0, t, ht, hta⟩
    · refine ⟨h.ne_zero, s, h.le, ?_⟩
      rw [h.slot s h.le, if_pos rfl]
    · refine ⟨h0, t, ht, ?_⟩
      rw [h.slot t ht, if_neg, hta]
      rintro rfl
      exact h0 (hta.symm.trans h.empty)

theorem apart (h : Filled V m e s b m' e') (ha : Apart V m e) : Apart V m' e' := by
  constructor
  · intro p q hp hq hpq h0
    rw [h.slot p hp, h.slot q hq] at hpq
    rw [h.slot p hp] at h0
    split at hpq
    · rename_i hps
      split at hpq
      · rename_i hqs
        rw [hps, hqs]
      · -- the new block is not one of the old ones
        refine absurd ?_ h.fresh.2
        rw [hpq]
        exact mem_blocks_of_slot hq (hpq ▸ h.ne_zero)
    · rename_i hps
      rw [if_neg hps] at h0
      split at hpq
      · refine absurd ?_ h.fresh.2
        rw [← hpq]
        exact mem_blocks_of_slot hp h0
      · exact ha.inj p q hp hq hpq h0
  · intro a hmem
    rw [h.blocks] at hmem
    rcases Set.mem_insert_iff.mp hmem with rfl | hmem
    · exact h.fresh.1
    · exact ha.off a hmem

/-- **A new zeroed block changes no byte.** -/
theorem byteAt (h : Filled V m e s b m' e') (i : ℕ) : byteAt m' e' i = byteAt m e i := by
  rcases Nat.lt_or_ge (i / blockSize) inodeMaxBlocks with hk | hk
  · have haddr := h.slot _ hk.le
    rw [slot_of_lt hk, slot_of_lt hk] at haddr
    rw [OsLab.byteAt, OsLab.byteAt, haddr]
    split
    · rename_i hks
      have hold : blockAddr m e (i / blockSize) = 0 := by
        rw [← slot_of_lt hk, hks]
        exact h.empty
      rw [if_neg h.ne_zero, if_pos hold, h.zero, Bytes.get_zero]
    · by_cases h0 : blockAddr m e (i / blockSize) = 0
      · rw [if_pos h0, if_pos h0]
      · have := h.data _ hk (by rwa [slot_of_lt hk])
        rw [slot_of_lt hk] at this
        rw [if_neg h0, if_neg h0, this]
  · rw [OsLab.byteAt, OsLab.byteAt, if_pos (blockAddr_of_le hk), if_pos (blockAddr_of_le hk)]

end Filled

theorem addr_setAddr (hk : k < 12) (hb : b < 2 ^ 32) (t : ℕ) :
    (e.setAddr k b).addr t = if t = k then b else e.addr t := by
  simp only [InodeEntry.addr, InodeEntry.setAddr]
  by_cases ht : t < 12
  · simp only [dif_pos ht]
    split
    · exact UInt32.toNat_ofNat_of_lt' hb
    · rfl
  · rw [dif_neg ht, dif_neg ht, if_neg (by omega)]

/-- The block `b` is free and zeroed on the disk `m'`, which differs from `m` in blocks that are
not in use. -/
structure FreshBlock (V : Set ℕ) (m : Disk) (e : InodeEntry) (b : ℕ) (m' : Disk) : Prop where
  off : b ∉ V ∧ b ∉ blocks m e
  ne_zero : b ≠ 0
  lt : b < 2 ^ 32
  zero : m' b = Bytes.zero
  others : ∀ a ∈ V, m' a = m a
  own : ∀ a ∈ blocks m e, m' a = m a

theorem FreshBlock.indirect (h : FreshBlock V m e b m') :
    e.indirect ≠ 0 → m' e.indirect.toNat = m e.indirect.toNat :=
  fun hi => h.own _ (indirect_mem_blocks hi)

theorem FreshBlock.toNat_ofNat (h : FreshBlock V m e b m') : (UInt32.ofNat b).toNat = b :=
  UInt32.toNat_ofNat_of_lt' h.lt

theorem FreshBlock.ofNat_ne_zero (h : FreshBlock V m e b m') : UInt32.ofNat b ≠ 0 := by
  intro h0
  have := h.toNat_ofNat
  rw [h0] at this
  exact h.ne_zero this.symm

/-- A block from `cache->alloc`. -/
theorem BlockAlloc.Lawful.alloc (hL : c.Lawful Good) (hG : Good N (V ∪ blocks m e) m)
    (ha : c.alloc m = some (b, m')) : FreshBlock V m e b m' := by
  obtain ⟨hb, h0, hlt, hz, hsame, -⟩ := hL.fresh hG ha
  exact ⟨⟨fun h => hb (Or.inl h), fun h => hb (Or.inr h)⟩, h0, hlt, hz,
    fun a ha => hsame a (Or.inl ha), fun a ha => hsame a (Or.inr ha)⟩

theorem FreshBlock.fill_direct (hF : FreshBlock V m e b m') (hk : k < inodeNumDirect) (h0 : e.addr k = 0) :
    Filled V m e k b m' (e.setAddr k b) := by
  simp only [inodeNumDirect_eq] at hk
  have hslot : ∀ t, t ≤ inodeMaxBlocks → slot m' (e.setAddr k b) t = if t = k then b else
      slot m e t := by
    intro t ht
    by_cases ht' : t = inodeMaxBlocks
    · rw [ht', slot_indirect, slot_indirect, if_neg (by simp; omega)]
      rfl
    · have htl : t < inodeMaxBlocks := Nat.lt_of_le_of_ne ht ht'
      rw [slot_of_lt htl]
      by_cases htd : t < inodeNumDirect
      · rw [slot_of_lt htl, blockAddr, blockAddr, if_pos htd, if_pos htd, addr_setAddr hk hF.lt]
      · have htk : t ≠ k := by
          simp only [inodeNumDirect_eq] at htd
          omega
        rw [if_neg htk, ← slot_congr hF.indirect, slot_of_lt htl, blockAddr, blockAddr, if_neg htd,
          if_neg htd]
        rfl
  refine ⟨by simp; omega, ?_, hslot, hF.ne_zero, hF.off, hF.zero, hF.others, ?_,
    ⟨rfl, rfl, rfl, rfl, rfl⟩⟩
  · rw [slot_of_lt (by simp; omega), blockAddr, if_pos (by simpa using hk)]
    exact h0
  · intro t ht ht0
    exact hF.own _ (mem_blocks_of_slot ht.le ht0)

theorem FreshBlock.fill_indirect (hF : FreshBlock V m e b m') (h0 : e.indirect = 0) :
    Filled V m e inodeMaxBlocks b m' { e with indirect := UInt32.ofNat b } := by
  have hb := hF.toNat_ofNat
  refine ⟨le_refl _, by rw [slot_indirect, h0]; rfl, ?_, hF.ne_zero, hF.off, hF.zero, hF.others,
    ?_, ⟨rfl, rfl, rfl, rfl, rfl⟩⟩
  · intro t ht
    by_cases ht' : t = inodeMaxBlocks
    · rw [ht', slot_indirect, if_pos rfl]
      exact hb
    · have htl : t < inodeMaxBlocks := Nat.lt_of_le_of_ne ht ht'
      rw [if_neg ht', slot_of_lt htl, slot_of_lt htl, blockAddr, blockAddr]
      by_cases htd : t < inodeNumDirect
      · rw [if_pos htd, if_pos htd]
        rfl
      · -- the new indirect block lists no block
        rw [if_neg htd, if_neg htd, if_neg hF.ofNat_ne_zero, if_pos h0]
        simp only [indirectAddr, hb, hF.zero, Bytes.word_zero]
  · intro t ht ht0
    exact hF.own _ (mem_blocks_of_slot ht.le ht0)

theorem FreshBlock.fill_table (hF : FreshBlock V m e b m') (hA : Apart V m e) (hk : inodeNumDirect ≤ k)
    (hk' : k < inodeMaxBlocks) (hi : e.indirect ≠ 0) (h0 : blockAddr m e k = 0) :
    Filled V m e k b (Function.update m' e.indirect.toNat
      ((m' e.indirect.toNat).setWord (4 * (k - inodeNumDirect)) 4 b)) e := by
  simp only [inodeNumDirect_eq, inodeMaxBlocks_eq] at hk hk'
  have hiB := indirect_mem_blocks (m := m) hi
  have hbi : b ≠ e.indirect.toNat := by
    rintro rfl
    exact hF.off.2 hiB
  refine ⟨by simp; omega, by rw [slot_of_lt (by simpa using hk')]; exact h0, ?_, hF.ne_zero,
    hF.off, by rw [Function.update_of_ne hbi]; exact hF.zero, ?_, ?_, SameMeta.refl e⟩
  · intro t ht
    by_cases ht' : t = inodeMaxBlocks
    · rw [ht', slot_indirect, slot_indirect, if_neg (by simp; omega)]
    · have htl : t < inodeMaxBlocks := Nat.lt_of_le_of_ne ht ht'
      rw [slot_of_lt htl, slot_of_lt htl, blockAddr, blockAddr]
      by_cases htd : t < inodeNumDirect
      · rw [if_pos htd, if_pos htd, if_neg]
        simp only [inodeNumDirect_eq] at htd
        omega
      · rw [if_neg htd, if_neg htd, if_neg hi, if_neg hi]
        simp only [indirectAddr, Function.update_self]
        simp only [inodeNumDirect_eq, inodeMaxBlocks_eq] at htd htl ⊢
        by_cases htk : t = k
        · rw [if_pos htk, htk, Bytes.word_setWord_self _ _ (by omega), Nat.mod_eq_of_lt]
          exact hF.lt
        · rw [if_neg htk, Bytes.word_setWord_of_disjoint _ (by omega), hF.indirect hi]
  · intro a haV
    rw [Function.update_of_ne, hF.others a haV]
    intro h
    exact hA.off _ hiB (h ▸ haV)
  · intro t ht ht0
    have hne' : slot m e t ≠ e.indirect.toNat := by
      intro h
      rw [← slot_indirect m e] at h
      have := hA.inj t inodeMaxBlocks ht.le (le_refl _) h ht0
      omega
    rw [Function.update_of_ne hne']
    exact hF.own _ (mem_blocks_of_slot ht.le ht0)

/-! ## `inode_map` -/

/-- Block `k` of the file is the block `b`, and nothing else has changed. -/
structure MapStep (V : Set ℕ) (m : Disk) (e : InodeEntry) (k b : ℕ) (m' : Disk)
    (e' : InodeEntry) : Prop where
  lt : k < inodeMaxBlocks
  addr : blockAddr m' e' k = b
  ne_zero : b ≠ 0
  other : ∀ t, t ≠ k → blockAddr m' e' t = blockAddr m e t
  apart : Apart V m' e'
  others : ∀ a ∈ V, m' a = m a
  bytes : ∀ i, byteAt m' e' i = byteAt m e i
  same : SameMeta e e'
  keeps : e.indirect ≠ 0 → e'.indirect ≠ 0

/-- The number of blocks `inode_map` allocates. -/
def mapCost (m : Disk) (e : InodeEntry) (k : ℕ) : ℕ :=
  if blockAddr m e k ≠ 0 then 0
  else if k < inodeNumDirect ∨ e.indirect ≠ 0 then 1
  else 2

private theorem sub_lt_iff (hd : ¬ k < inodeNumDirect) :
    k - inodeNumDirect < inodeNumIndirect ↔ k < inodeMaxBlocks := by
  rw [inodeMaxBlocks]
  omega

private theorem lt_of_direct (hd : k < inodeNumDirect) : k < inodeMaxBlocks := by
  rw [inodeMaxBlocks]
  omega

theorem lt_of_blockAddr_ne_zero (h : blockAddr m e k ≠ 0) : k < inodeMaxBlocks := by
  by_contra hk
  exact h (blockAddr_of_le (Nat.le_of_not_lt hk))

namespace Filled

theorem blockAddr (h : Filled V m e s b m' e') (t : ℕ) (ht : t ≠ s) :
    blockAddr m' e' t = blockAddr m e t := by
  rcases Nat.lt_or_ge t inodeMaxBlocks with htl | htl
  · rw [← slot_of_lt htl, ← slot_of_lt htl, h.slot t htl.le, if_neg ht]
  · rw [blockAddr_of_le htl, blockAddr_of_le htl]

theorem keeps (h : Filled V m e s b m' e') (hi : e.indirect ≠ 0) : e'.indirect ≠ 0 := by
  have hind := h.slot inodeMaxBlocks (le_refl _)
  rw [slot_indirect, slot_indirect] at hind
  intro h0
  rw [h0] at hind
  split at hind
  · exact h.ne_zero hind.symm
  · exact hi (UInt32.toNat_inj.mp hind.symm)

theorem mapStep (h : Filled V m e k b m' e') (hA : Apart V m e) (hk : k < inodeMaxBlocks) :
    MapStep V m e k b m' e' where
  lt := hk
  addr := by rw [← slot_of_lt hk, h.slot k hk.le, if_pos rfl]
  ne_zero := h.ne_zero
  other := h.blockAddr
  apart := h.apart hA
  others := h.others
  bytes := h.byteAt
  same := h.same
  keeps := h.keeps

theorem good (h : Filled V m e s b m' e') (hG : Good n (insert b (V ∪ OsLab.blocks m e)) m') :
    Good n (V ∪ OsLab.blocks m' e') m' := by
  rw [h.blocks, Set.union_insert]
  exact hG

end Filled

private theorem mapIndirect_of_ne (hi : e.indirect ≠ 0) :
    mapIndirect c m e = some (e.indirect.toNat, e, m) := by
  rw [mapIndirect, if_neg hi]

private theorem mapIndirect_of_alloc (hi : e.indirect = 0) (hal : c.alloc m = some (b, m')) :
    mapIndirect c m e = some (b, { e with indirect := UInt32.ofNat b }, m') := by
  rw [mapIndirect, if_pos hi, hal]
  rfl

/-- `inode_map` past the direct blocks, once the indirect block is there. -/
private theorem inodeMap_table {ind : ℕ} (hd : ¬ k < inodeNumDirect) (hk : k < inodeMaxBlocks)
    (hmi : mapIndirect c m e = some (ind, e', m')) : inodeMap c m e k =
      if indirectAddr m' ind (k - inodeNumDirect) = 0 then
        do
          let (b, m) ← c.alloc m'
          some (b, true, e',
            Function.update m ind ((m ind).setWord (4 * (k - inodeNumDirect)) 4 b))
      else some (indirectAddr m' ind (k - inodeNumDirect), false, e', m') := by
  rw [inodeMap, if_neg hd, if_pos ((sub_lt_iff hd).mpr hk), hmi, Option.bind_eq_bind,
    Option.bind_some]

/-- A block that is mapped is found, and nothing changes. -/
theorem inodeMap_of_mapped (h : blockAddr m e k ≠ 0) :
    inodeMap c m e k = some (blockAddr m e k, false, e, m) := by
  have hk := lt_of_blockAddr_ne_zero h
  by_cases hd : k < inodeNumDirect
  · rw [blockAddr, if_pos hd] at h ⊢
    rw [inodeMap, if_pos hd, if_neg h]
  · have hi : e.indirect ≠ 0 := by
      intro hi
      rw [blockAddr, if_neg hd, if_pos hi] at h
      exact h rfl
    rw [blockAddr, if_neg hd, if_neg hi] at h ⊢
    rw [inodeMap_table hd hk (mapIndirect_of_ne hi), if_neg h]

theorem mapStep_of_mapped (hA : Apart V m e) (h : blockAddr m e k ≠ 0) :
    MapStep V m e k (blockAddr m e k) m e where
  lt := lt_of_blockAddr_ne_zero h
  addr := rfl
  ne_zero := h
  other := fun _ _ => rfl
  apart := hA
  others := fun _ _ => rfl
  bytes := fun _ => rfl
  same := SameMeta.refl e
  keeps := id

theorem mapStep_after_indirect {e₁ : InodeEntry} {m₁ : Disk} {b₁ : ℕ}
    (h₁ : Filled V m e inodeMaxBlocks b₁ m₁ e₁) (h : MapStep V m₁ e₁ k b m' e') :
    MapStep V m e k b m' e' where
  lt := h.lt
  addr := h.addr
  ne_zero := h.ne_zero
  other := by
    intro t ht
    rw [h.other t ht]
    rcases Nat.lt_or_ge t inodeMaxBlocks with htl | htl
    · exact h₁.blockAddr t (Nat.ne_of_lt htl)
    · rw [blockAddr_of_le htl, blockAddr_of_le htl]
  apart := h.apart
  others := fun a ha => (h.others a ha).trans (h₁.others a ha)
  bytes := fun i => (h.bytes i).trans (h₁.byteAt i)
  same := h₁.same.trans h.same
  keeps := fun hi => h.keeps (h₁.keeps hi)

/-- The last part of `inode_map`: the entry of the indirect block. -/
private theorem mapTable_spec {ind : ℕ} {md : Bool} (hL : c.Lawful Good) (hA : Apart V m e)
    (hG : Good N (V ∪ blocks m e) m) (hd : ¬ k < inodeNumDirect) (hk : k < inodeMaxBlocks)
    (hi : e.indirect ≠ 0) (hind : ind = e.indirect.toNat) (h0 : blockAddr m e k = 0)
    (hr : (do
      let (b, m) ← c.alloc m
      some (b, true, e, Function.update m ind ((m ind).setWord (4 * (k - inodeNumDirect)) 4 b))) =
        some (b, md, e', m')) :
    MapStep V m e k b m' e' ∧ Good (N - 1) (V ∪ blocks m' e') m' := by
  subst hind
  rcases hal : c.alloc m with - | ⟨b₁, m₁⟩
  · rw [hal] at hr
    cases hr
  · rw [hal] at hr
    cases hr
    have hF := (hL.alloc hG hal).fill_table hA (Nat.le_of_not_lt hd) hk hi h0
    obtain ⟨-, -, -, -, -, hG'⟩ := hL.fresh hG hal
    refine ⟨hF.mapStep hA hk, hF.good (hL.sync hG' ?_)⟩
    apply Set.mem_insert_of_mem
    exact Or.inr (indirect_mem_blocks hi)

/-- **`inode_map`** -/
theorem inodeMap_spec {md : Bool} (hL : c.Lawful Good) (hA : Apart V m e)
    (hG : Good N (V ∪ blocks m e) m) (hr : inodeMap c m e k = some (b, md, e', m')) :
    MapStep V m e k b m' e' ∧ Good (N - mapCost m e k) (V ∪ blocks m' e') m' := by
  by_cases h0 : blockAddr m e k ≠ 0
  · rw [inodeMap_of_mapped h0] at hr
    cases hr
    refine ⟨mapStep_of_mapped hA h0, ?_⟩
    rw [mapCost, if_pos h0]
    exact hG
  rw [not_not] at h0
  rw [mapCost, if_neg (not_not.mpr h0)]
  by_cases hd : k < inodeNumDirect
  · have hk := lt_of_direct hd
    have ha0 : e.addr k = 0 := by rwa [blockAddr, if_pos hd] at h0
    rw [inodeMap, if_pos hd, if_pos ha0] at hr
    rw [if_pos (Or.inl hd)]
    rcases hal : c.alloc m with - | ⟨b₁, m₁⟩
    · rw [hal] at hr
      cases hr
    · rw [hal] at hr
      cases hr
      have hF := (hL.alloc hG hal).fill_direct hd ha0
      obtain ⟨-, -, -, -, -, hG'⟩ := hL.fresh hG hal
      exact ⟨hF.mapStep hA hk, hF.good hG'⟩
  have hk : k < inodeMaxBlocks := by
    by_contra hk
    rw [inodeMap, if_neg hd, if_neg (mt (sub_lt_iff hd).mp hk)] at hr
    cases hr
  by_cases hi : e.indirect = 0
  · rw [if_neg (not_or.mpr ⟨hd, not_not.mpr hi⟩)]
    rcases hal : c.alloc m with - | ⟨b₁, m₁⟩
    · rw [inodeMap, if_neg hd, if_pos ((sub_lt_iff hd).mpr hk), mapIndirect, if_pos hi, hal] at hr
      cases hr
    · rw [inodeMap_table hd hk (mapIndirect_of_alloc hi hal)] at hr
      have hfresh := hL.alloc hG hal
      have hF := hfresh.fill_indirect hi
      obtain ⟨-, -, -, -, -, hG'⟩ := hL.fresh hG hal
      -- the new indirect block is empty
      have ht0 : indirectAddr m₁ b₁ (k - inodeNumDirect) = 0 := by
        rw [indirectAddr, hfresh.zero, Bytes.word_zero]
      rw [if_pos ht0] at hr
      have h0' : blockAddr m₁ { e with indirect := UInt32.ofNat b₁ } k = 0 := by
        rw [hF.blockAddr k (Nat.ne_of_lt hk)]
        exact h0
      obtain ⟨hstep, hG''⟩ := mapTable_spec hL (hF.apart hA) (hF.good hG') hd hk
        hfresh.ofNat_ne_zero hfresh.toNat_ofNat.symm h0' hr
      exact ⟨mapStep_after_indirect hF hstep, hG''⟩
  · rw [if_pos (Or.inr hi)]
    have ht0 : indirectAddr m e.indirect.toNat (k - inodeNumDirect) = 0 := by
      rwa [blockAddr, if_neg hd, if_neg hi] at h0
    rw [inodeMap_table hd hk (mapIndirect_of_ne hi), if_pos ht0] at hr
    exact mapTable_spec hL hA hG hd hk hi rfl h0 hr

/-- `inode_map` returns where enough blocks are free. -/
theorem inodeMap_isSome (hL : c.Lawful Good) (hk : k < inodeMaxBlocks)
    (hG : Good N (V ∪ blocks m e) m) (hN : mapCost m e k ≤ N) : (inodeMap c m e k).isSome := by
  by_cases h0 : blockAddr m e k ≠ 0
  · rw [inodeMap_of_mapped h0]
    rfl
  rw [mapCost, if_neg h0] at hN
  rw [not_not] at h0
  -- there is a block left whenever the cost is positive
  have hpos : 1 ≤ N := by split at hN <;> omega
  obtain ⟨N, rfl⟩ := Nat.exists_eq_add_of_le' hpos
  obtain ⟨⟨b₁, m₁⟩, hal⟩ := Option.isSome_iff_exists.mp (hL.returns hG)
  by_cases hd : k < inodeNumDirect
  · rw [blockAddr, if_pos hd] at h0
    rw [inodeMap, if_pos hd, if_pos h0, hal]
    rfl
  by_cases hi : e.indirect = 0
  · rw [if_neg (not_or.mpr ⟨hd, not_not.mpr hi⟩)] at hN
    obtain ⟨N, rfl⟩ : ∃ N', N = N' + 1 := ⟨N - 1, by omega⟩
    obtain ⟨-, -, -, hz, -, hG'⟩ := hL.fresh hG hal
    obtain ⟨⟨b₂, m₂⟩, hal₂⟩ := Option.isSome_iff_exists.mp (hL.returns hG')
    have ht0 : indirectAddr m₁ b₁ (k - inodeNumDirect) = 0 := by
      rw [indirectAddr, hz, Bytes.word_zero]
    rw [inodeMap_table hd hk (mapIndirect_of_alloc hi hal), if_pos ht0, hal₂]
    rfl
  · rw [blockAddr, if_neg hd, if_neg hi] at h0
    rw [inodeMap_table hd hk (mapIndirect_of_ne hi), if_pos h0, hal]
    rfl

/-! ## `inode_read` -/

private theorem add_div_blockSize {j : ℕ} (h : j < blockSize - i % blockSize) :
    (i + j) / blockSize = i / blockSize ∧ (i + j) % blockSize = i % blockSize + j := by
  simp only [blockSize_eq] at h ⊢
  omega

/-- One round copies the bytes of the file that lie in one block. -/
private theorem slice_eq_map_byteAt {count : ℕ} (h0 : blockAddr m e (i / blockSize) ≠ 0)
    (hc : count ≤ blockSize - i % blockSize) :
    (m (blockAddr m e (i / blockSize))).slice (i % blockSize) count =
      (List.range' i count).map (byteAt m e) := by
  rw [List.range'_eq_map_range, List.map_map, Bytes.slice]
  apply List.map_congr_left
  intro j hj
  obtain ⟨hdiv, hmod⟩ := add_div_blockSize (Nat.lt_of_lt_of_le (List.mem_range.mp hj) hc)
  rw [Function.comp_apply, byteAt, hdiv, hmod, if_neg h0]

/-- **The loop of `inode_read`** where the blocks of the window are mapped. -/
theorem readLoop_spec {fuel : ℕ} (offset count : ℕ) (hf : count ≤ fuel)
    (hmap : ∀ i, offset ≤ i → i < offset + count → blockAddr m e (i / blockSize) ≠ 0) :
    readLoop c fuel m e offset count =
      some ((List.range' offset count).map (byteAt m e), e, m) := by
  induction fuel generalizing offset count with
  | zero =>
      have h0 : count = 0 := Nat.le_zero.mp hf
      rw [readLoop, if_pos h0, h0]
      rfl
  | succ fuel ih =>
      rw [readLoop]
      split
      · rename_i h0
        rw [h0]
        rfl
      · rename_i h0
        have hb := hmap offset (le_refl _) (by omega)
        have hmod : offset % blockSize < blockSize := Nat.mod_lt _ (by decide)
        generalize hn : min count (blockSize - offset % blockSize) = n
        have hrest := ih (offset + n) (count - n) (by omega)
          fun i h₁ h₂ => hmap i (by omega) (by omega)
        rw [inodeMap_of_mapped hb]
        simp only [Option.bind_eq_bind, Option.bind_some, hrest]
        rw [slice_eq_map_byteAt hb (by omega), ← List.map_append, List.range'_append_1,
          Nat.add_sub_cancel' (by omega)]

/-! ## Storing a data block -/

section Store

variable (hA : Apart V m e) (h0 : blockAddr m e k ≠ 0)

include hA h0

private theorem blockAddr_ne_indirect : e.indirect.toNat ≠ blockAddr m e k := by
  intro h
  have hk := lt_of_blockAddr_ne_zero h0
  rw [← slot_of_lt hk] at h h0
  rw [← slot_indirect m e] at h
  have := hA.inj k inodeMaxBlocks hk.le (le_refl _) h.symm h0
  omega

theorem slot_store (d : Sector) (s : ℕ) :
    slot (Function.update m (blockAddr m e k) d) e s = slot m e s := by
  apply slot_congr
  intro _
  exact Function.update_of_ne (blockAddr_ne_indirect hA h0) _ _

theorem blocks_store (d : Sector) :
    blocks (Function.update m (blockAddr m e k) d) e = blocks m e := by
  ext b
  simp only [blocks, slot_store hA h0]

theorem Apart.store (d : Sector) : Apart V (Function.update m (blockAddr m e k) d) e := by
  apply hA.congr
  intro _
  exact Function.update_of_ne (blockAddr_ne_indirect hA h0) _ _

omit hA in
theorem blockAddr_mem_blocks : blockAddr m e k ∈ blocks m e := by
  have hk := lt_of_blockAddr_ne_zero h0
  rw [← slot_of_lt hk] at h0 ⊢
  exact mem_blocks_of_slot hk.le h0

theorem blockAddr_store (d : Sector) (t : ℕ) :
    blockAddr (Function.update m (blockAddr m e k) d) e t = blockAddr m e t := by
  rcases Nat.lt_or_ge t inodeMaxBlocks with ht | ht
  · rw [← slot_of_lt ht, slot_store hA h0, slot_of_lt ht]
  · rw [blockAddr_of_le ht, blockAddr_of_le ht]

/-- **Storing a block of the file** changes the bytes of that block only. -/
theorem byteAt_store (d : Sector) (i : ℕ) :
    byteAt (Function.update m (blockAddr m e k) d) e i =
      if i / blockSize = k then d.get (i % blockSize) else byteAt m e i := by
  rw [byteAt, blockAddr_store hA h0]
  split
  · rename_i hi
    rw [if_neg, byteAt, if_pos hi]
    rintro rfl
    exact h0 hi
  · rename_i hi
    by_cases hik : i / blockSize = k
    · rw [if_pos hik, hik, Function.update_self]
    · rw [if_neg hik, byteAt, if_neg hi, Function.update_of_ne]
      intro h
      have hk := lt_of_blockAddr_ne_zero h0
      have ht := lt_of_blockAddr_ne_zero hi
      rw [← slot_of_lt ht] at h hi
      rw [← slot_of_lt hk] at h
      exact hik (hA.inj _ _ ht.le hk.le h hi)

end Store

/-! ## `inode_write` -/

/-- The bytes `src` have been stored at `offset`, and exactly the first `n` blocks of the file are
mapped. -/
structure Written (V : Set ℕ) (m : Disk) (e : InodeEntry) (offset : ℕ) (src : List UInt8) (n : ℕ)
    (m' : Disk) (e' : InodeEntry) : Prop where
  mapped : Mapped m' e' n
  apart : Apart V m' e'
  others : ∀ a ∈ V, m' a = m a
  bytes : ∀ i, byteAt m' e' i =
    if offset ≤ i ∧ i < offset + src.length then src.getD (i - offset) 0 else byteAt m e i
  same : SameMeta e e'
  keeps : e.indirect ≠ 0 → e'.indirect ≠ 0

/-- The number of blocks that are mapped after a write up to `stop`. -/
def mappedAfter (n stop : ℕ) : ℕ := max n (blocksFor stop)

theorem mappedAfter_of_le {stop : ℕ} (h : stop ≤ n * blockSize) : mappedAfter n stop = n := by
  simp only [mappedAfter, blocksFor, blockSize_eq] at h ⊢
  omega

theorem Written.nil (hM : Mapped m e n) (hA : Apart V m e) (offset : ℕ) :
    Written V m e offset [] n m e where
  mapped := hM
  apart := hA
  others := fun _ _ => rfl
  bytes := by
    intro i
    rw [if_neg]
    simp
  same := SameMeta.refl e
  keeps := id

theorem Written.append {offset n₁ n₂ i : ℕ} {src₁ src₂ : List UInt8}
    (h₁ : Written V m e offset src₁ n₁ m' e') (hi : offset + src₁.length = i)
    (h₂ : Written V m' e' i src₂ n₂ m'' e'') :
    Written V m e offset (src₁ ++ src₂) n₂ m'' e'' where
  mapped := h₂.mapped
  apart := h₂.apart
  others := fun a ha => (h₂.others a ha).trans (h₁.others a ha)
  bytes := by
    subst hi
    intro i
    rw [h₂.bytes i, h₁.bytes i, List.length_append]
    by_cases hlt : i < offset + src₁.length
    · rw [if_neg (by omega)]
      by_cases hle : offset ≤ i
      · rw [if_pos ⟨hle, hlt⟩, if_pos (by omega), List.getD_append _ _ _ _ (by omega)]
      · rw [if_neg (by omega), if_neg (by omega)]
    · by_cases hend : i < offset + src₁.length + src₂.length
      · rw [if_pos (by omega), if_pos (by omega), List.getD_append_right _ _ _ _ (by omega),
          Nat.sub_sub]
      · rw [if_neg (by omega), if_neg (by omega), if_neg (by omega)]
  same := h₁.same.trans h₂.same
  keeps := fun hi => h₂.keeps (h₁.keeps hi)

/-- **One round of a write**, at the end of the mapped blocks or before. -/
theorem MapStep.written {offset : ℕ} {src : List UInt8}
    (hstep : MapStep V m e (offset / blockSize) b m' e') (hM : Mapped m e n)
    (hoff : offset ≤ n * blockSize) (hsrc : src ≠ [])
    (hlen : src.length ≤ blockSize - offset % blockSize) :
    Written V m e offset src (mappedAfter n (offset + src.length))
      (Function.update m' b ((m' b).splice (offset % blockSize) src)) e' := by
  have hpos : 0 < src.length := List.length_pos_of_ne_nil hsrc
  have h0 : blockAddr m' e' (offset / blockSize) ≠ 0 := by
    rw [hstep.addr]
    exact hstep.ne_zero
  obtain rfl := hstep.addr
  constructor
  case apart => exact hstep.apart.store h0 _
  case same => exact hstep.same
  case keeps => exact hstep.keeps
  case others =>
    intro a ha
    rw [← hstep.others a ha]
    apply Function.update_of_ne
    rintro rfl
    exact hstep.apart.off _ (blockAddr_mem_blocks h0) ha
  case mapped =>
    intro t ht
    rw [blockAddr_store hstep.apart h0]
    by_cases htk : t = offset / blockSize
    · subst htk
      refine iff_of_true h0 ?_
      simp only [mappedAfter, blocksFor, blockSize_eq] at hlen ⊢
      omega
    · rw [hstep.other t htk, hM t ht]
      simp only [mappedAfter, blocksFor, blockSize_eq] at hlen hoff htk ⊢
      omega
  case bytes =>
    intro i
    rw [byteAt_store hstep.apart h0, hstep.bytes i]
    by_cases hi : offset ≤ i ∧ i < offset + src.length
    · -- inside the piece that is stored
      obtain ⟨hdiv, hmod⟩ := add_div_blockSize (i := offset) (j := i - offset) (by omega)
      rw [Nat.add_sub_cancel' hi.1] at hdiv hmod
      rw [if_pos hi, if_pos hdiv, hmod, Bytes.get_splice_of_mem _ (by omega) (by omega),
        Nat.add_sub_cancel_left]
      rw [← hmod]
      exact Nat.mod_lt _ (by decide)
    · rw [if_neg hi]
      split
      · -- the rest of the block keeps its bytes
        rename_i hdiv
        rw [Bytes.get_splice_of_notMem, ← hstep.bytes i, byteAt, hdiv, if_neg h0]
        simp only [blockSize_eq] at hi hdiv ⊢
        omega
      · rfl

private theorem writeRound_spec {md : Bool} {offset : ℕ} {src : List UInt8} (hL : c.Lawful Good)
    (hA : Apart V m e) (hM : Mapped m e n) (hG : Good N (V ∪ blocks m e) m)
    (hoff : offset ≤ n * blockSize) (hsrc : src ≠ [])
    (hlen : src.length ≤ blockSize - offset % blockSize)
    (hr : inodeMap c m e (offset / blockSize) = some (b, md, e', m')) :
    let m'' := Function.update m' b ((m' b).splice (offset % blockSize) src)
    Written V m e offset src (mappedAfter n (offset + src.length)) m'' e' ∧
      Good (N - mapCost m e (offset / blockSize)) (V ∪ blocks m'' e') m'' := by
  intro m''
  obtain ⟨hstep, hG'⟩ := inodeMap_spec hL hA hG hr
  refine ⟨hstep.written hM hoff hsrc hlen, ?_⟩
  have h0 : blockAddr m' e' (offset / blockSize) ≠ 0 := by
    rw [hstep.addr]
    exact hstep.ne_zero
  obtain rfl := hstep.addr
  rw [blocks_store hstep.apart h0]
  exact hL.sync hG' (Or.inr (blockAddr_mem_blocks h0))

theorem writeLoop_succ {fuel offset : ℕ} {src : List UInt8} {md : Bool}
    (hsrc : src ≠ []) (hr : inodeMap c m e (offset / blockSize) = some (b, md, e', m')) :
    let len := min src.length (blockSize - offset % blockSize)
    writeLoop c (fuel + 1) m e offset src = writeLoop c fuel
      (Function.update m' b ((m' b).splice (offset % blockSize) (src.take len))) e' (offset + len)
      (src.drop len) := by
  intro len
  rw [writeLoop, if_neg hsrc, hr]
  rfl

/-- The number of blocks a write up to `stop` may allocate. -/
def writeCost (e : InodeEntry) (n stop : ℕ) : ℕ :=
  blocksFor stop - n + if e.indirect = 0 then 1 else 0

/-- The cost of one round. -/
private theorem mapCost_add_writeCost {offset : ℕ} (stop : ℕ) {md : Bool} (hL : c.Lawful Good)
    (hA : Apart V m e) (hM : Mapped m e n) (hG : Good N (V ∪ blocks m e) m)
    (hoff : offset ≤ n * blockSize) (hstop : offset < stop)
    (hr : inodeMap c m e (offset / blockSize) = some (b, md, e', m')) (len : ℕ) (hlen : 0 < len) :
    mapCost m e (offset / blockSize) + writeCost e' (mappedAfter n (offset + len)) stop ≤
      writeCost e n stop := by
  obtain ⟨hstep, -⟩ := inodeMap_spec hL hA hG hr
  have hk := hM _ hstep.lt
  have hind : (if e'.indirect = 0 then 1 else 0) ≤ if e.indirect = 0 then 1 else 0 := by
    by_cases hi : e.indirect = 0
    · rw [if_pos hi]
      split <;> omega
    · rw [if_neg hi, if_neg (hstep.keeps hi)]
  simp only [mapCost, writeCost]
  by_cases h0 : blockAddr m e (offset / blockSize) ≠ 0
  · rw [if_pos h0]
    simp only [mappedAfter, blocksFor, blockSize_eq]
    omega
  · rw [if_neg h0]
    have hn : offset / blockSize = n := by
      have := mt hk.mpr h0
      simp only [blockSize_eq] at hoff this ⊢
      omega
    by_cases hc : offset / blockSize < inodeNumDirect ∨ e.indirect ≠ 0
    · rw [if_pos hc]
      simp only [mappedAfter, blocksFor, blockSize_eq] at hn ⊢
      omega
    · rw [if_neg hc]
      rw [not_or, not_not] at hc
      have hi : e'.indirect ≠ 0 := by
        intro hi
        have := hstep.addr
        rw [blockAddr, if_neg hc.1, if_pos hi] at this
        exact hstep.ne_zero this.symm
      rw [if_neg hi, if_pos hc.2]
      simp only [mappedAfter, blocksFor, blockSize_eq] at hn ⊢
      omega

/-- **The loop of `inode_write`.** -/
theorem writeLoop_spec (hL : c.Lawful Good) {fuel : ℕ} (offset : ℕ) (src : List UInt8) (m : Disk)
    (e : InodeEntry) (n N : ℕ) (hA : Apart V m e) (hM : Mapped m e n)
    (hG : Good N (V ∪ blocks m e) m) (hoff : offset ≤ n * blockSize)
    (hr : writeLoop c fuel m e offset src = some (e', m')) :
    Written V m e offset src (mappedAfter n (offset + src.length)) m' e' ∧
      Good (N - writeCost e n (offset + src.length)) (V ∪ blocks m' e') m' := by
  induction fuel generalizing offset src m e n N with
  | zero =>
      rw [writeLoop] at hr
      split at hr
      · rename_i hsrc
        cases hr
        rw [hsrc, mappedAfter_of_le (by simpa using hoff)]
        exact ⟨Written.nil hM hA offset, hL.mono hG (Nat.sub_le _ _)⟩
      · cases hr
  | succ fuel ih =>
      by_cases hsrc : src = []
      · rw [writeLoop, if_pos hsrc] at hr
        cases hr
        rw [hsrc, mappedAfter_of_le (by simpa using hoff)]
        exact ⟨Written.nil hM hA offset, hL.mono hG (Nat.sub_le _ _)⟩
      · rcases hmap : inodeMap c m e (offset / blockSize) with - | ⟨b, md, e₁, m₁⟩
        · rw [writeLoop, if_neg hsrc, hmap] at hr
          cases hr
        · rw [writeLoop_succ hsrc hmap] at hr
          have hpos : 0 < src.length := List.length_pos_of_ne_nil hsrc
          have hmod : offset % blockSize < blockSize := Nat.mod_lt _ (by decide)
          generalize hlen : min src.length (blockSize - offset % blockSize) = len at hr
          have htake : (src.take len).length = len := by
            rw [List.length_take]
            omega
          have hne : src.take len ≠ [] := by
            apply List.ne_nil_of_length_pos
            omega
          obtain ⟨hW, hG'⟩ := writeRound_spec hL hA hM hG hoff hne (by omega) hmap
          rw [htake] at hW
          obtain ⟨hrest, hG''⟩ := ih (offset + len) (src.drop len) _ e₁ _ _ hW.apart hW.mapped hG'
            (by simp only [mappedAfter, blocksFor, blockSize_eq]; omega) hr
          have hrestLen : offset + len + (src.drop len).length = offset + src.length := by
            rw [List.length_drop]
            omega
          have hcost := mapCost_add_writeCost (offset + src.length) hL hA hM hG hoff (by omega) hmap
            len (by omega)
          rw [hrestLen] at hG''
          refine ⟨?_, hL.mono hG'' (by omega)⟩
          have happ := hW.append (by rw [htake]) hrest
          have hstop : mappedAfter (mappedAfter n (offset + len)) (offset + src.length) =
              mappedAfter n (offset + src.length) := by
            simp only [mappedAfter, blocksFor, blockSize_eq]
            omega
          rw [List.take_append_drop, hrestLen, hstop] at happ
          exact happ

/-- **The loop of `inode_write` returns** where enough blocks are free. -/
theorem writeLoop_isSome (hL : c.Lawful Good) (fuel offset : ℕ) (src : List UInt8) (m : Disk)
    (e : InodeEntry) (n N : ℕ) (hA : Apart V m e) (hM : Mapped m e n)
    (hG : Good N (V ∪ blocks m e) m) (hoff : offset ≤ n * blockSize) (hf : src.length ≤ fuel)
    (hmax : offset + src.length ≤ inodeMaxBytes)
    (hN : writeCost e n (offset + src.length) ≤ N) :
    (writeLoop c fuel m e offset src).isSome := by
  induction fuel generalizing offset src m e n N with
  | zero =>
      rw [writeLoop, if_pos (List.length_eq_zero_iff.mp (Nat.le_zero.mp hf))]
      rfl
  | succ fuel ih =>
      by_cases hsrc : src = []
      · rw [writeLoop, if_pos hsrc]
        rfl
      · have hpos : 0 < src.length := List.length_pos_of_ne_nil hsrc
        have hk : offset / blockSize < inodeMaxBlocks := by
          simp only [inodeMaxBytes_eq, inodeMaxBlocks_eq, blockSize_eq] at hmax ⊢
          omega
        have hmod : offset % blockSize < blockSize := Nat.mod_lt _ (by decide)
        have hcost : mapCost m e (offset / blockSize) ≤ N := by
          refine le_trans ?_ hN
          have hkn := hM _ hk
          simp only [mapCost, writeCost]
          by_cases h0 : blockAddr m e (offset / blockSize) ≠ 0
          · rw [if_pos h0]
            exact Nat.zero_le _
          · have hn := mt hkn.mpr h0
            rw [if_neg h0]
            by_cases hc : offset / blockSize < inodeNumDirect ∨ e.indirect ≠ 0
            · rw [if_pos hc]
              simp only [blocksFor, blockSize_eq] at hoff hn ⊢
              omega
            · rw [if_neg hc]
              rw [not_or, not_not] at hc
              rw [if_pos hc.2]
              simp only [blocksFor, blockSize_eq] at hoff hn ⊢
              omega
        obtain ⟨⟨b, md, e₁, m₁⟩, hmap⟩ :=
          Option.isSome_iff_exists.mp (inodeMap_isSome hL hk hG hcost)
        rw [writeLoop_succ hsrc hmap]
        generalize hlen : min src.length (blockSize - offset % blockSize) = len
        have htake : (src.take len).length = len := by
          rw [List.length_take]
          omega
        have hne : src.take len ≠ [] := by
          apply List.ne_nil_of_length_pos
          omega
        obtain ⟨hW, hG'⟩ := writeRound_spec hL hA hM hG hoff hne (by omega) hmap
        rw [htake] at hW
        have hcost' := mapCost_add_writeCost (offset + src.length) hL hA hM hG hoff
          (by omega) hmap len (by omega)
        refine ih (offset + len) (src.drop len) _ e₁ _ _ hW.apart hW.mapped hG' ?_ ?_ ?_ ?_
        · simp only [mappedAfter, blocksFor, blockSize_eq]
          omega
        · rw [List.length_drop]
          omega
        · rw [List.length_drop]
          omega
        · rw [List.length_drop, show offset + len + (src.length - len) = offset + src.length by omega]
          omega

end OsLab
