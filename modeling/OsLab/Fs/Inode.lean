import OsLab.Fs.Defines

/-!
# Inodes

The code of `fs/inode.c` that reads and writes one inode, over a disk whose blocks
are acquired, changed and synced one at a time: `cache->acquire` gives the content
of a block and `cache->sync` stores it.  `fs/cache.c` behaves so for serialised
callers (`OsLab.Fs.Refinement`).  `cache->alloc` and `cache->free` are the fields of
a `BlockAlloc`; those of `fs/cache.c` are in `OsLab.Fs.Bitmap`.

A function returns `none` where the C function panics or fails an `ASSERT`.

## Main definitions

* `InodeEntry`, `InodeEntry.byte`, `Bytes.entry` — the on-disk inode and its 64 bytes.
* `inodeMap`, `inodeRead`, `inodeWrite`, `inodeSync`, `inodeClear` — the operations.
* `blockAddr`, `byteAt`, `content` — the file an entry stands for.
* `Dense` — the blocks of the file are mapped, and no others.
-/

namespace OsLab

/-- The content of every block. -/
abbrev Disk := ℕ → Sector

/-- `INODE_NUM_DIRECT` -/
def inodeNumDirect : ℕ := 12

/-- `INODE_NUM_INDIRECT` -/
def inodeNumIndirect : ℕ := blockSize / 4

/-- `INODE_PER_BLOCK` -/
def inodePerBlock : ℕ := blockSize / 64

/-- `INODE_MAX_BLOCKS` -/
def inodeMaxBlocks : ℕ := inodeNumDirect + inodeNumIndirect

/-- `INODE_MAX_BYTES` -/
def inodeMaxBytes : ℕ := inodeMaxBlocks * blockSize

@[simp] theorem blockSize_eq : blockSize = 512 := rfl
@[simp] theorem inodeNumDirect_eq : inodeNumDirect = 12 := rfl
@[simp] theorem inodeNumIndirect_eq : inodeNumIndirect = 128 := rfl
@[simp] theorem inodePerBlock_eq : inodePerBlock = 8 := rfl
@[simp] theorem inodeMaxBlocks_eq : inodeMaxBlocks = 140 := rfl
@[simp] theorem inodeMaxBytes_eq : inodeMaxBytes = 71680 := rfl

/-! ## The on-disk inode -/

/-- `InodeEntry` -/
@[ext] structure InodeEntry where
  type : UInt16
  major : UInt16
  minor : UInt16
  numLinks : UInt16
  numBytes : UInt32
  addrs : Fin 12 → UInt32
  indirect : UInt32

/-- `INODE_INVALID`, `INODE_DIRECTORY`, `INODE_REGULAR` -/
def inodeInvalid : UInt16 := 0
def inodeDirectory : UInt16 := 1
def inodeRegular : UInt16 := 2

namespace InodeEntry

/-- The entry after `memset(dip, 0, sizeof(InodeEntry))`. -/
def zero : InodeEntry := ⟨0, 0, 0, 0, 0, fun _ => 0, 0⟩

/-- `addrs[k]` -/
def addr (e : InodeEntry) (k : ℕ) : ℕ := if h : k < 12 then (e.addrs ⟨k, h⟩).toNat else 0

/-- `addrs[k] = b` -/
def setAddr (e : InodeEntry) (k b : ℕ) : InodeEntry :=
  { e with addrs := fun i => if i = k then UInt32.ofNat b else e.addrs i }

/-- Byte `j` of the entry in memory; there is no padding. -/
def byte (e : InodeEntry) (j : ℕ) : UInt8 :=
  if j < 2 then Bytes.leByte e.type.toNat j
  else if j < 4 then Bytes.leByte e.major.toNat (j - 2)
  else if j < 6 then Bytes.leByte e.minor.toNat (j - 4)
  else if j < 8 then Bytes.leByte e.numLinks.toNat (j - 6)
  else if j < 12 then Bytes.leByte e.numBytes.toNat (j - 8)
  else if j < 60 then Bytes.leByte (e.addr ((j - 12) / 4)) ((j - 12) % 4)
  else Bytes.leByte e.indirect.toNat (j - 60)

/-- The 64 bytes of the entry. -/
def bytes (e : InodeEntry) : List UInt8 := (List.range 64).map e.byte

@[simp] theorem length_bytes (e : InodeEntry) : e.bytes.length = 64 := by simp [bytes]

end InodeEntry

namespace Bytes

variable {d : Sector} {k k' : ℕ}

/-- The `k`-th inode of an inode block. -/
def entry (d : Sector) (k : ℕ) : InodeEntry where
  type := UInt16.ofNat (d.word (64 * k) 2)
  major := UInt16.ofNat (d.word (64 * k + 2) 2)
  minor := UInt16.ofNat (d.word (64 * k + 4) 2)
  numLinks := UInt16.ofNat (d.word (64 * k + 6) 2)
  numBytes := UInt32.ofNat (d.word (64 * k + 8) 4)
  addrs := fun i => UInt32.ofNat (d.word (64 * k + 12 + 4 * i) 4)
  indirect := UInt32.ofNat (d.word (64 * k + 60) 4)

/-- `*dip = entry` -/
def putEntry (d : Sector) (k : ℕ) (e : InodeEntry) : Sector := d.splice (64 * k) e.bytes

theorem get_putEntry (d : Sector) (e : InodeEntry) {j : ℕ} (hk : k < 8) (hj : j < 64) :
    (d.putEntry k e).get (64 * k + j) = e.byte j := by
  rw [putEntry, get_splice_of_mem _ (by omega) (by simp; omega) (by omega), Nat.add_sub_cancel_left]
  simp [InodeEntry.bytes, hj]

/-- A field of the stored entry. -/
private theorem word_putEntry (d : Sector) (e : InodeEntry) (hk : k < 8) (off w x : ℕ)
    (hw : off + w ≤ 64) (hb : ∀ j, j < w → e.byte (off + j) = leByte x j) :
    (d.putEntry k e).word (64 * k + off) w = x % 256 ^ w := by
  rw [← leNat_leByte]
  refine leNat_congr fun j hj => ?_
  rw [Nat.add_assoc, get_putEntry d e hk (by omega), hb j hj]

/-- **The entry round trip.** -/
theorem entry_putEntry_self (d : Sector) (e : InodeEntry) (hk : k < 8) :
    (d.putEntry k e).entry k = e := by
  have h16 : ∀ x : UInt16, x.toNat % 256 ^ 2 = x.toNat := fun x =>
    Nat.mod_eq_of_lt x.toNat_lt
  have h32 : ∀ x : UInt32, x.toNat % 256 ^ 4 = x.toNat := fun x =>
    Nat.mod_eq_of_lt x.toNat_lt
  have hw := fun off w x hw hb => word_putEntry d e hk off w x hw hb
  have htype := hw 0 2 e.type.toNat (by omega) (by
    intro j hj
    rw [InodeEntry.byte, if_pos (by omega), Nat.zero_add])
  have hmajor := hw 2 2 e.major.toNat (by omega) (by
    intro j hj
    rw [InodeEntry.byte, if_neg (by omega), if_pos (by omega), Nat.add_sub_cancel_left])
  have hminor := hw 4 2 e.minor.toNat (by omega) (by
    intro j hj
    rw [InodeEntry.byte, if_neg (by omega), if_neg (by omega), if_pos (by omega),
      Nat.add_sub_cancel_left])
  have hlinks := hw 6 2 e.numLinks.toNat (by omega) (by
    intro j hj
    rw [InodeEntry.byte, if_neg (by omega), if_neg (by omega), if_neg (by omega),
      if_pos (by omega), Nat.add_sub_cancel_left])
  have hbytes := hw 8 4 e.numBytes.toNat (by omega) (by
    intro j hj
    rw [InodeEntry.byte, if_neg (by omega), if_neg (by omega), if_neg (by omega),
      if_neg (by omega), if_pos (by omega), Nat.add_sub_cancel_left])
  have haddrs : ∀ i, i < 12 → (d.putEntry k e).word (64 * k + (12 + 4 * i)) 4 =
      e.addr i % 256 ^ 4 := by
    intro i hi
    refine hw (12 + 4 * i) 4 _ (by omega) ?_
    intro j hj
    rw [InodeEntry.byte, if_neg (by omega), if_neg (by omega), if_neg (by omega),
      if_neg (by omega), if_neg (by omega), if_pos (by omega)]
    congr 2 <;> omega
  have hind := hw 60 4 e.indirect.toNat (by omega) (by
    intro j hj
    rw [InodeEntry.byte, if_neg (by omega), if_neg (by omega), if_neg (by omega),
      if_neg (by omega), if_neg (by omega), if_neg (by omega), Nat.add_sub_cancel_left])
  rw [Nat.add_zero] at htype
  ext1
  case type => simp only [entry, htype, h16, UInt16.ofNat_toNat]
  case major => simp only [entry, hmajor, h16, UInt16.ofNat_toNat]
  case minor => simp only [entry, hminor, h16, UInt16.ofNat_toNat]
  case numLinks => simp only [entry, hlinks, h16, UInt16.ofNat_toNat]
  case numBytes => simp only [entry, hbytes, h32, UInt32.ofNat_toNat]
  case addrs =>
    ext1 i
    have hi := haddrs i i.isLt
    rw [← Nat.add_assoc] at hi
    simp only [entry, hi, InodeEntry.addr, dif_pos i.isLt, h32, UInt32.ofNat_toNat]
  case indirect => simp only [entry, hind, h32, UInt32.ofNat_toNat]

/-- An entry reads its own 64 bytes only. -/
theorem entry_congr {d d' : Sector} (h : ∀ i, 64 * k ≤ i → i < 64 * k + 64 → d.get i = d'.get i) :
    d.entry k = d'.entry k := by
  have hw : ∀ off w, off + w ≤ 64 → d.word (64 * k + off) w = d'.word (64 * k + off) w := by
    intro off w hw
    exact word_congr fun i h₁ h₂ => h i (by omega) (by omega)
  have h0 := hw 0 2 (by omega)
  rw [Nat.add_zero] at h0
  ext1
  case addrs =>
    ext1 i
    have hi := i.isLt
    have := hw (12 + 4 * i) 4 (by omega)
    rw [← Nat.add_assoc] at this
    simp only [entry, this]
  all_goals simp only [entry, h0, hw 2 2 (by omega), hw 4 2 (by omega), hw 6 2 (by omega),
    hw 8 4 (by omega), hw 60 4 (by omega)]

/-- Storing an entry leaves the others of the block alone. -/
theorem entry_putEntry_of_ne (d : Sector) (e : InodeEntry) (h : k' ≠ k) :
    (d.putEntry k e).entry k' = d.entry k' := by
  apply entry_congr
  intro i h₁ h₂
  apply get_splice_of_notMem
  rw [InodeEntry.length_bytes]
  omega

end Bytes

namespace SuperBlock

/-- `to_block_no` -/
def toBlockNo (sb : SuperBlock) (no : ℕ) : ℕ := sb.inodeStart + no / inodePerBlock

/-- The inode `no` as `get_entry` finds it in its block. -/
def diskEntry (sb : SuperBlock) (m : Disk) (no : ℕ) : InodeEntry :=
  (m (sb.toBlockNo no)).entry (no % inodePerBlock)

/-- The disk after the inode `no` was stored in its block and the block synced. -/
def putDiskEntry (sb : SuperBlock) (m : Disk) (no : ℕ) (e : InodeEntry) : Disk :=
  Function.update m (sb.toBlockNo no) ((m (sb.toBlockNo no)).putEntry (no % inodePerBlock) e)

variable {sb : SuperBlock} {m m' : Disk} {no no' b : ℕ} {e : InodeEntry}

@[simp] theorem diskEntry_putDiskEntry_self (sb : SuperBlock) (m : Disk) (no : ℕ)
    (e : InodeEntry) : sb.diskEntry (sb.putDiskEntry m no e) no = e := by
  rw [diskEntry, putDiskEntry, Function.update_self]
  exact Bytes.entry_putEntry_self _ _ (Nat.mod_lt _ (by simp))

theorem diskEntry_putDiskEntry_of_ne (h : no' ≠ no) :
    sb.diskEntry (sb.putDiskEntry m no e) no' = sb.diskEntry m no' := by
  rw [diskEntry, putDiskEntry]
  by_cases hb : sb.toBlockNo no' = sb.toBlockNo no
  · rw [hb, Function.update_self]
    rw [Bytes.entry_putEntry_of_ne, diskEntry, hb]
    simp only [toBlockNo, inodePerBlock_eq] at hb ⊢
    omega
  · rw [Function.update_of_ne hb, diskEntry]

/-- Of two entries stored one after the other the second stays. -/
theorem putDiskEntry_putDiskEntry (sb : SuperBlock) (m : Disk) (no : ℕ) (e₁ e₂ : InodeEntry) :
    sb.putDiskEntry (sb.putDiskEntry m no e₁) no e₂ = sb.putDiskEntry m no e₂ := by
  simp only [putDiskEntry, Function.update_self, Function.update_idem, Bytes.putEntry]
  rw [Bytes.splice_splice _ _ (by simp)]

theorem putDiskEntry_of_ne (h : b ≠ sb.toBlockNo no) : sb.putDiskEntry m no e b = m b :=
  Function.update_of_ne h _ _

theorem diskEntry_congr (h : m' (sb.toBlockNo no) = m (sb.toBlockNo no)) :
    sb.diskEntry m' no = sb.diskEntry m no := by
  rw [diskEntry, h, diskEntry]

end SuperBlock

/-! ## The operations on one inode -/

/-- `cache->alloc` and `cache->free` of the block cache the inodes use. -/
structure BlockAlloc where
  alloc : Disk → Option (ℕ × Disk)
  free : Disk → ℕ → Option Disk

/-- `a[i]` of an indirect block. -/
def indirectAddr (m : Disk) (b i : ℕ) : ℕ := (m b).word (4 * i) 4

/-- The part of `inode_map` that finds or allocates the indirect block. -/
def mapIndirect (c : BlockAlloc) (m : Disk) (e : InodeEntry) : Option (ℕ × InodeEntry × Disk) :=
  if e.indirect = 0 then do
    let (b, m) ← c.alloc m
    some (b, { e with indirect := UInt32.ofNat b }, m)
  else some (e.indirect.toNat, e, m)

/-- `inode_map`, with `*modified`. -/
def inodeMap (c : BlockAlloc) (m : Disk) (e : InodeEntry) (k : ℕ) :
    Option (ℕ × Bool × InodeEntry × Disk) :=
  if k < inodeNumDirect then
    if e.addr k = 0 then do
      let (b, m) ← c.alloc m
      some (b, true, e.setAddr k b, m)
    else some (e.addr k, false, e, m)
  else if k - inodeNumDirect < inodeNumIndirect then do
    let i := k - inodeNumDirect
    let (ind, e, m) ← mapIndirect c m e
    if indirectAddr m ind i = 0 then do
      let (b, m) ← c.alloc m
      some (b, true, e, Function.update m ind ((m ind).setWord (4 * i) 4 b))
    else some (indirectAddr m ind i, false, e, m)
  else none

/-- The loop of `inode_read`; `fuel` bounds the number of rounds. -/
def readLoop (c : BlockAlloc) : ℕ → Disk → InodeEntry → ℕ → ℕ →
    Option (List UInt8 × InodeEntry × Disk)
  | 0, m, e, _, count => if count = 0 then some ([], e, m) else none
  | fuel + 1, m, e, offset, count =>
      if count = 0 then some ([], e, m)
      else do
        let (b, _, e, m) ← inodeMap c m e (offset / blockSize)
        let n := min count (blockSize - offset % blockSize)
        let dest := (m b).slice (offset % blockSize) n
        let (rest, e, m) ← readLoop c fuel m e (offset + n) (count - n)
        some (dest ++ rest, e, m)

/-- `inode_read`: the value it returns and the bytes it stores at `dest`.  The sums
are those of `usize`. -/
def inodeRead (c : BlockAlloc) (m : Disk) (e : InodeEntry) (offset count : ℕ) :
    Option (ℕ × List UInt8 × InodeEntry × Disk) :=
  let size := e.numBytes.toNat
  let count := if (count + offset) % 2 ^ 64 > size then (size + 2 ^ 64 - offset) % 2 ^ 64 else count
  let stop := (offset + count) % 2 ^ 64
  if offset ≤ size ∧ stop ≤ size ∧ offset ≤ stop then do
    let (dest, e, m) ← readLoop c count m e offset count
    some (0, dest, e, m)
  else none

/-- The loop of `inode_write`. -/
def writeLoop (c : BlockAlloc) : ℕ → Disk → InodeEntry → ℕ → List UInt8 →
    Option (InodeEntry × Disk)
  | 0, m, e, _, src => if src = [] then some (e, m) else none
  | fuel + 1, m, e, offset, src =>
      if src = [] then some (e, m)
      else do
        let (b, _, e, m) ← inodeMap c m e (offset / blockSize)
        let n := min src.length (blockSize - offset % blockSize)
        let m := Function.update m b ((m b).splice (offset % blockSize) (src.take n))
        writeLoop c fuel m e (offset + n) (src.drop n)

/-- `inode_write` of `src` on the valid inode `no` with entry `e`, with the value it
returns.  `inode_sync` is called only where the file grows. -/
def inodeWrite (c : BlockAlloc) (sb : SuperBlock) (m : Disk) (no : ℕ) (e : InodeEntry)
    (offset : ℕ) (src : List UInt8) : Option (ℕ × InodeEntry × Disk) :=
  let stop := (offset + src.length) % 2 ^ 64
  if offset ≤ e.numBytes.toNat ∧ stop ≤ inodeMaxBytes ∧ offset ≤ stop then do
    let (e, m) ← writeLoop c src.length m e offset src
    let offset := offset + src.length
    if src.length > 0 ∧ offset > e.numBytes.toNat then
      let e := { e with numBytes := UInt32.ofNat offset }
      some (src.length, e, sb.putDiskEntry m no e)
    else some (src.length, e, m)
  else none

/-- `inode_sync` -/
def inodeSync (sb : SuperBlock) (m : Disk) (no : ℕ) (valid : Bool) (e : InodeEntry)
    (doWrite : Bool) : Bool × InodeEntry × Disk :=
  if valid && doWrite then (valid, e, sb.putDiskEntry m no e)
  else if !valid then (true, sb.diskEntry m no, m)
  else (valid, e, m)

/-- Free the addresses that are not zero, in order. -/
def freeAll (c : BlockAlloc) (m : Disk) : List ℕ → Option Disk
  | [] => some m
  | b :: bs => if b = 0 then freeAll c m bs else (c.free m b).bind fun m => freeAll c m bs

/-- `inode_clear` on the valid inode `no` with entry `e`.  The indirect block is held
while the blocks it lists are freed. -/
def inodeClear (c : BlockAlloc) (sb : SuperBlock) (m : Disk) (no : ℕ) (e : InodeEntry) :
    Option (InodeEntry × Disk) := do
  let m ← freeAll c m ((List.range inodeNumDirect).map e.addr)
  let m ←
    if e.indirect = 0 then some m
    else do
      let m ← freeAll c m ((List.range inodeNumIndirect).map (indirectAddr m e.indirect.toNat))
      c.free m e.indirect.toNat
  let e := { e with addrs := fun _ => 0, indirect := 0, numBytes := 0 }
  some (e, sb.putDiskEntry m no e)

/-! ## The file of an entry -/

/-- The address of block `k` of the file, direct or through the indirect block; zero if
it is not mapped. -/
def blockAddr (m : Disk) (e : InodeEntry) (k : ℕ) : ℕ :=
  if k < inodeNumDirect then e.addr k
  else if e.indirect = 0 then 0
  else indirectAddr m e.indirect.toNat (k - inodeNumDirect)

/-- Byte `i` of the file; a block that is not mapped reads as zero. -/
def byteAt (m : Disk) (e : InodeEntry) (i : ℕ) : UInt8 :=
  if blockAddr m e (i / blockSize) = 0 then 0
  else (m (blockAddr m e (i / blockSize))).get (i % blockSize)

/-- The file as a byte array. -/
def content (m : Disk) (e : InodeEntry) : List UInt8 :=
  (List.range e.numBytes.toNat).map (byteAt m e)

/-- The number of blocks that hold `n` bytes. -/
def blocksFor (n : ℕ) : ℕ := (n + (blockSize - 1)) / blockSize

/-- Exactly the first `n` blocks are mapped. -/
def Mapped (m : Disk) (e : InodeEntry) (n : ℕ) : Prop :=
  ∀ k, k < inodeMaxBlocks → (blockAddr m e k ≠ 0 ↔ k < n)

/-- **A dense inode**: block `k` is mapped exactly for `k < ceil(num_bytes / BLOCK_SIZE)`. -/
def Dense (m : Disk) (e : InodeEntry) : Prop :=
  e.numBytes.toNat ≤ inodeMaxBytes ∧ Mapped m e (blocksFor e.numBytes.toNat)

end OsLab
