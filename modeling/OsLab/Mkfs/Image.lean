import OsLab.Fs.InodeTree

/-!
# mkfs

The image file that `user/mkfs/main.c` writes.  A state is the image with the two
counters; a function returns `none` where mkfs fails an `assert` or exits with 1.

`lseek` is given the `uint` product `sec * BSIZE`.  `read` at or past the end of the
image delivers nothing, so `rsect` fails there, while `wsect` would make the image
longer.

## Main definitions

* `State`, `wsect`, `rsect`, `winode`, `rinode`, `ialloc`, `iappend`, `balloc` — as in the source.
* `InputFile` — a file given on the command line, as `read` delivers it.
* `main` — the image for a list of input files.
-/

namespace OsLab.Mkfs

/-- The image file and the counters. -/
structure State where
  img : Disk
  /-- the length of the image in blocks -/
  size : ℕ
  freeinode : ℕ
  freeblock : ℕ

/-- The block at which `lseek(fsfd, sec * BSIZE, 0)` leaves the image. -/
def seek (sec : ℕ) : ℕ := sec * blockSize % 2 ^ 32 / blockSize

def wsect (s : State) (sec : ℕ) (buf : Sector) : State :=
  { s with img := Function.update s.img (seek sec) buf, size := max s.size (seek sec + 1) }

def rsect (s : State) (sec : ℕ) : Option Sector :=
  if seek sec < s.size then some (s.img (seek sec)) else none

def winode (s : State) (inum : ℕ) (ip : InodeEntry) : Option State := do
  let buf ← rsect s (sb.toBlockNo inum)
  some (wsect s (sb.toBlockNo inum) (buf.putEntry (inum % ipb) ip))

def rinode (s : State) (inum : ℕ) : Option InodeEntry := do
  let buf ← rsect s (sb.toBlockNo inum)
  some (buf.entry (inum % ipb))

def ialloc (s : State) (type : UInt16) : Option (ℕ × State) := do
  let inum := s.freeinode
  let din := { InodeEntry.zero with type := type, numLinks := 1 }
  let s ← winode { s with freeinode := s.freeinode + 1 } inum din
  some (inum, s)

def balloc (s : State) (used : ℕ) : Option State :=
  if used < blockSize * 8 then
    some (wsect s sb.bitmapStart ((List.range used).foldl Bytes.setBit Bytes.zero))
  else none

/-- The block `x` of `iappend` for block `fbn` of the file. -/
def appendBlock (s : State) (din : InodeEntry) (fbn : ℕ) : Option (ℕ × InodeEntry × State) :=
  if fbn < inodeNumDirect then
    if din.addr fbn = 0 then
      let din := din.setAddr fbn s.freeblock
      some (din.addr fbn, din, { s with freeblock := s.freeblock + 1 })
    else some (din.addr fbn, din, s)
  else do
    let (din, s) :=
      if din.indirect = 0 then
        ({ din with indirect := UInt32.ofNat s.freeblock }, { s with freeblock := s.freeblock + 1 })
      else (din, s)
    let indirect ← rsect s din.indirect.toNat
    let i := 4 * (fbn - inodeNumDirect)
    if indirect.word i 4 = 0 then
      let indirect := indirect.setWord i 4 s.freeblock
      let s := wsect { s with freeblock := s.freeblock + 1 } din.indirect.toNat indirect
      some (indirect.word i 4, din, s)
    else some (indirect.word i 4, din, s)

/-- The loop of `iappend`; `fuel` bounds the number of rounds. -/
def appendLoop : ℕ → State → InodeEntry → ℕ → List UInt8 → Option (InodeEntry × ℕ × State)
  | 0, s, din, off, p => if p = [] then some (din, off, s) else none
  | fuel + 1, s, din, off, p =>
      if p = [] then some (din, off, s)
      else
        let fbn := off / blockSize
        if fbn < inodeMaxBlocks then do
          let (x, din, s) ← appendBlock s din fbn
          let n1 := min p.length ((fbn + 1) * blockSize - off)
          let buf ← rsect s x
          let s := wsect s x (buf.splice (off - fbn * blockSize) (p.take n1))
          appendLoop fuel s din (off + n1) (p.drop n1)
        else none

def iappend (s : State) (inum : ℕ) (p : List UInt8) : Option State := do
  let din ← rinode s inum
  let (din, off, s) ← appendLoop p.length s din din.numBytes.toNat p
  winode s inum { din with numBytes := UInt32.ofNat off }

/-! ## The input files -/

/-- A file on the command line: its path, and what each `read(fd, buf, sizeof(buf))` delivers. -/
structure InputFile where
  path : List UInt8
  chunks : List (List UInt8)
  isPath : ∀ c ∈ path, c ≠ 0
  isChunk : ∀ c ∈ chunks, c ≠ [] ∧ c.length ≤ blockSize

namespace InputFile

def bytes (f : InputFile) : List UInt8 := f.chunks.flatten

/-- The counter `j` of `main`: the characters after the last `'/'`. -/
def afterSlash (path : List UInt8) : ℕ := path.foldl (fun j c => if c = 47 then 0 else j + 1) 0

/-- `argv[i]` after `argv[i] -= j`. -/
def basename (f : InputFile) : List UInt8 := f.path.drop (f.path.length - afterSlash f.path)

/-- The name in the root directory, without a leading `'_'`. -/
def name (f : InputFile) : List UInt8 :=
  if f.basename.headD 0 = 95 then f.basename.tail else f.basename

end InputFile

/-! ## `main` -/

/-- `"."` and `".."` -/
def dot : List UInt8 := [46]
def dotDot : List UInt8 := [46, 46]

/-- `ROOT_INODE_NO` -/
def rootInodeNo : ℕ := 1

/-- The super block as bytes. -/
def sbSector : Sector :=
  Bytes.ofFn fun j => Bytes.leByte ([sb.numBlocks, sb.numDataBlocks, sb.numInodes, sb.numLogBlocks,
    sb.logStart, sb.inodeStart, sb.bitmapStart].getD (j / 4) 0) (j % 4)

/-- The image after all its blocks were zeroed and the super block written. -/
def start : State where
  img := Function.update (fun _ => Bytes.zero) 1 sbSector
  size := fsSize
  freeinode := 1
  freeblock := nmeta

/-- Append the chunks of a file. -/
def appendAll (s : State) (inum : ℕ) : List (List UInt8) → Option State
  | [] => some s
  | p :: ps => (iappend s inum p).bind fun s => appendAll s inum ps

/-- The body of the loop over the files. -/
def addFile (s : State) (f : InputFile) : Option State := do
  let (inum, s) ← ialloc s inodeRegular
  let s ← iappend s rootInodeNo (DirEntry.make f.name inum).bytes
  appendAll s inum f.chunks

def addFiles (s : State) : List InputFile → Option State
  | [] => some s
  | f :: fs => (addFile s f).bind fun s => addFiles s fs

/-- The root directory with its first two entries. -/
def makeRoot : Option State := do
  let (rootino, s) ← ialloc start inodeDirectory
  if rootino = rootInodeNo then do
    let s ← iappend s rootino (DirEntry.make dot rootino).bytes
    iappend s rootino (DirEntry.make dotDot rootino).bytes
  else none

/-- Fix the size of the root inode and write the bitmap. -/
def finish (s : State) : Option State := do
  let din ← rinode s rootInodeNo
  let off := (din.numBytes.toNat / blockSize + 1) * blockSize
  let s ← winode s rootInodeNo { din with numBytes := UInt32.ofNat off }
  balloc s s.freeblock

/-- The image at `exit(0)`. -/
def main (files : List InputFile) : Option State := do
  let s ← makeRoot
  let s ← addFiles s files
  finish s

end OsLab.Mkfs
