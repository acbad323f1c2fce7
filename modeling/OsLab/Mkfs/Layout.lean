import OsLab.Fs.Defines

/-!
# The disk layout of mkfs

The constants of `user/mkfs/main.c` and the super block it writes.  The layout is
`[ boot block | sb block | log | inode blocks | free bit map | data blocks ]`.
-/

namespace OsLab.Mkfs

/-- `FSSIZE` -/
def fsSize : ℕ := 1000

/-- `NINODES` -/
def nInodes : ℕ := 200

/-- `IPB`: an `InodeEntry` has 64 bytes. -/
def ipb : ℕ := blockSize / 64

def nbitmap : ℕ := fsSize / (blockSize * 8) + 1

def ninodeblocks : ℕ := nInodes / ipb + 1

/-- `num_log_blocks = LOGSIZE` -/
def numLogBlocks : ℕ := logMaxSize

/-- The boot block, the super block, the log, the inodes and the bitmap. -/
def nmeta : ℕ := 2 + numLogBlocks + ninodeblocks + nbitmap

def numDataBlocks : ℕ := fsSize - nmeta

/-- The super block mkfs writes to block 1. -/
def sb : SuperBlock where
  numBlocks := fsSize
  numDataBlocks := numDataBlocks
  numInodes := nInodes
  numLogBlocks := numLogBlocks
  logStart := 2
  inodeStart := 2 + numLogBlocks
  bitmapStart := 2 + numLogBlocks + ninodeblocks
  isU32 := by decide

end OsLab.Mkfs
