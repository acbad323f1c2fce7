import OsLab.Lib.Bytes
import Mathlib.Data.List.Nodup

/-!
# On-disk representations

The constants and structures of `fs/defines.h` and `fs/cache.h` that the block
cache and its log use, and the layout of the log header on its disk block: 64
little-endian words of 8 bytes, the number of entries and then the entries.
-/

namespace OsLab

/-- `BLOCK_SIZE` -/
def blockSize : ℕ := 512

/-- The content of one disk block. -/
abbrev Sector := Bytes 512

/-- `OP_MAX_NUM_BLOCKS`: the distinct blocks one atomic operation may sync. -/
def opMaxNumBlocks : ℕ := 10

/-- `EVICTION_THRESHOLD` -/
def evictionThreshold : ℕ := 20

/-- `LOG_MAX_SIZE`: the block numbers the log header has room for. -/
def logMaxSize : ℕ := (blockSize - 8) / 8

@[simp] theorem logMaxSize_eq : logMaxSize = 63 := rfl
@[simp] theorem opMaxNumBlocks_eq : opMaxNumBlocks = 10 := rfl

/-- `SuperBlock`; every field is a `u32`. -/
structure SuperBlock where
  numBlocks : ℕ
  numDataBlocks : ℕ
  numInodes : ℕ
  /-- number of blocks for logging, including the log header -/
  numLogBlocks : ℕ
  logStart : ℕ
  inodeStart : ℕ
  bitmapStart : ℕ
  isU32 : ∀ x ∈ [numBlocks, numDataBlocks, numInodes, numLogBlocks, logStart, inodeStart,
    bitmapStart], x < 2 ^ 32

namespace SuperBlock

theorem logStart_lt (sb : SuperBlock) : sb.logStart < 2 ^ 32 := sb.isU32 _ (by simp)

/-- The block of the log that holds the copy of header entry `tail`. -/
def logBlock (sb : SuperBlock) (tail : ℕ) : ℕ := sb.logStart + tail + 1

/-- The log area as the super block declares it. -/
def InLog (sb : SuperBlock) (b : ℕ) : Prop :=
  sb.logStart ≤ b ∧ b < sb.logStart + sb.numLogBlocks

instance (sb : SuperBlock) (b : ℕ) : Decidable (sb.InLog b) :=
  inferInstanceAs (Decidable (_ ∧ _))

end SuperBlock

/-- `LogHeader`: `block_no` has `LOG_MAX_SIZE` entries, of which the first
`num_blocks` are in use. -/
structure LogHeader where
  numBlocks : ℕ
  blockNo : ℕ → ℕ

namespace LogHeader

/-- The recorded block numbers, `block_no[0..num_blocks)`. -/
def entries (h : LogHeader) : List ℕ := (List.range h.numBlocks).map h.blockNo

@[simp] theorem length_entries (h : LogHeader) : h.entries.length = h.numBlocks := by
  simp [entries]

theorem mem_entries {h : LogHeader} {b : ℕ} :
    b ∈ h.entries ↔ ∃ i, i < h.numBlocks ∧ h.blockNo i = b := by
  simp [entries]

theorem blockNo_mem {h : LogHeader} {i : ℕ} (hi : i < h.numBlocks) : h.blockNo i ∈ h.entries :=
  mem_entries.mpr ⟨i, hi, rfl⟩

/-- The header as the bytes `device->write` is given. -/
def encode (h : LogHeader) : Sector :=
  Bytes.ofFn fun i =>
    Bytes.leByte (if i / 8 = 0 then h.numBlocks else h.blockNo (i / 8 - 1)) (i % 8)

/-- The header as `device->read` loads it. -/
def decode (s : Sector) : LogHeader where
  numBlocks := s.word 0 8
  blockNo i := s.word (8 * (i + 1)) 8

private theorem word_encode (h : LogHeader) {k : ℕ} (hk : k < 64) :
    h.encode.word (8 * k) 8 =
      (if k = 0 then h.numBlocks else h.blockNo (k - 1)) % 256 ^ 8 := by
  rw [← Bytes.leNat_leByte]
  refine Bytes.leNat_congr fun i hi => ?_
  have hlt : 8 * k + i < 512 := by omega
  have hdiv : (8 * k + i) / 8 = k := by omega
  have hmod : (8 * k + i) % 8 = i := by omega
  rw [encode, Bytes.get_ofFn _ hlt, hdiv, hmod]

theorem numBlocks_decode_encode (h : LogHeader) (hn : h.numBlocks < 2 ^ 64) :
    (decode h.encode).numBlocks = h.numBlocks := by
  have := word_encode h (k := 0) (by omega)
  rw [if_pos rfl, Nat.mod_eq_of_lt (by omega)] at this
  exact this

theorem blockNo_decode_encode (h : LogHeader) {i : ℕ} (hi : i < logMaxSize)
    (hb : h.blockNo i < 2 ^ 64) : (decode h.encode).blockNo i = h.blockNo i := by
  rw [logMaxSize_eq] at hi
  have := word_encode h (k := i + 1) (by omega)
  rw [if_neg (by omega), Nat.add_sub_cancel, Nat.mod_eq_of_lt (by omega)] at this
  exact this

/-- **The header round trip**: the entries in use come back from the disk. -/
theorem entries_decode_encode (h : LogHeader) (hn : h.numBlocks ≤ logMaxSize)
    (hb : ∀ b ∈ h.entries, b < 2 ^ 64) : (decode h.encode).entries = h.entries := by
  rw [logMaxSize_eq] at hn
  rw [entries, numBlocks_decode_encode h (by omega), entries]
  refine List.map_congr_left fun i hi => ?_
  have hi' : i < h.numBlocks := List.mem_range.mp hi
  exact blockNo_decode_encode h (by rw [logMaxSize_eq]; omega) (hb _ (blockNo_mem hi'))

end LogHeader

end OsLab
