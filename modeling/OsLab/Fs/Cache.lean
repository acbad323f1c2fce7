import OsLab.Common.Sem
import OsLab.Fs.Defines
import OsLab.Lib.Run

/-!
# The block cache and its log

The code of `fs/cache.c`, function by function.  A `Bcache` is everything the
file keeps: the `Block` structures by address, the circular list `head` as the
list of addresses from `head.next` on, the log state, and the device with the
writes it has been given so far.

The critical sections of the log lock (`Log.beginOp`, `Log.sync`, `Log.endOp`)
and of the cache lock (`Bcache.acquireLocked`) are functions of their own, so
that the calls below and the interleavings of several threads are built from the
same pieces.

A call is a function into `Option`.  It returns `none` where the C function does
not return to its caller: it panics, or it would sleep on a semaphore that
nobody else can post while the call runs alone.

## Main definitions

* `Log`, `Log.beginOp`, `Log.sync`, `Log.endOp` — the log reservation.
* `Bcache`, `Bcache.cacheAcquire`, `Bcache.cacheRelease` — the cached blocks.
* `Bcache.writeLog`, `Bcache.installTrans`, `Bcache.commit`,
  `Bcache.recoverFromLog`, `Bcache.initBcache` — committing and replaying.
* `Bcache.cacheBeginOp`, `Bcache.cacheSync`, `Bcache.cacheEndOp` — the calls an
  atomic operation makes.
-/

namespace OsLab

/-! ## The log reservation -/

/-- `struct LOG` without its spinlock, and the in-memory copy of the log header. -/
structure Log where
  header : LogHeader
  committing : Bool
  outstanding : ℕ
  opReserved : ℤ

/-- `header.block_no[header.num_blocks++] = b` -/
def LogHeader.push (h : LogHeader) (b : ℕ) : LogHeader where
  numBlocks := h.numBlocks + 1
  blockNo := Function.update h.blockNo h.numBlocks b

/-- `header.num_blocks = 0` -/
def LogHeader.clear (h : LogHeader) : LogHeader := { h with numBlocks := 0 }

/-- The branch one pass of the loop of `cache_begin_op` takes. -/
inductive Admission
  /-- A commit is running: wait on `s3`. -/
  | committing
  /-- The log may not have room for another operation: wait on `s1`. -/
  | full
  /-- Admitted, with the new `ctx->rm`. -/
  | admitted (rm : ℕ) (l : Log)

namespace Log

/-- One pass of the loop of `cache_begin_op` under the log lock. -/
def beginOp (l : Log) : Admission :=
  if l.committing then .committing
  else if (l.header.numBlocks : ℤ) + l.opReserved + opMaxNumBlocks > logMaxSize then .full
  else .admitted opMaxNumBlocks
    { l with outstanding := l.outstanding + 1, opReserved := l.opReserved + opMaxNumBlocks }

/-- The critical section of `cache_sync(ctx, block)` for block number `b`, where
`rm` is `ctx->rm`: whether the number was recorded (so that the block is to be
pinned), and the new `ctx->rm`.  `none` is the panic. -/
def sync (l : Log) (rm b : ℕ) : Option (Bool × ℕ × Log) :=
  if b ∈ l.header.entries then some (false, rm, l)
  else
    let l := { l with header := l.header.push b }
    if rm > 0 then some (true, rm - 1, { l with opReserved := l.opReserved - 1 }) else none

/-- The critical section of `cache_end_op`: whether the caller has to commit. -/
def endOp (l : Log) (rm : ℕ) : Bool × Log :=
  let l := { l with outstanding := l.outstanding - 1, opReserved := l.opReserved - rm }
  if l.outstanding = 0 then (true, { l with committing := true }) else (false, l)

end Log

@[simp] theorem LogHeader.entries_push (h : LogHeader) (b : ℕ) :
    (h.push b).entries = h.entries ++ [b] := by
  simp only [LogHeader.entries, LogHeader.push, List.range_succ, List.map_append, List.map_cons,
    List.map_nil, Function.update_self]
  congr 1
  refine List.map_congr_left ?_
  intro i hi
  have : i ≠ h.numBlocks := by have := List.mem_range.mp hi; omega
  rw [Function.update_of_ne this]

@[simp] theorem LogHeader.numBlocks_push (h : LogHeader) (b : ℕ) :
    (h.push b).numBlocks = h.numBlocks + 1 := rfl

@[simp] theorem LogHeader.numBlocks_clear (h : LogHeader) : h.clear.numBlocks = 0 := rfl

@[simp] theorem LogHeader.entries_clear (h : LogHeader) : h.clear.entries = [] := rfl

/-! ## The cached blocks -/

/-- `Block` -/
structure Block where
  blockNo : ℕ
  acquired : Bool
  pinned : Bool
  valid : Bool
  lock : Semaphore
  data : Sector

/-- `init_block` -/
def initBlock : Block := ⟨0, false, false, false, Semaphore.initSem 1, Bytes.zero⟩

/-- The state of `fs/cache.c`. -/
structure Bcache where
  /-- the `Block` structures, by address -/
  mem : ℕ → Block
  /-- the addresses on the list, from `head.next` on -/
  head : List ℕ
  /-- the address `kalloc` returns next; blocks are never given back -/
  brk : ℕ
  log : Log
  disk : ℕ → Sector
  /-- what `device->write` has been called with, oldest first -/
  writes : List (ℕ × Sector)

/-- Where `cache_acquire` finds the block it returns. -/
inductive Found
  /-- Cached already. -/
  | hit (p : ℕ)
  /-- Taken from another block number; its content is not loaded yet. -/
  | evict (p : ℕ)
  /-- Newly allocated, loaded and locked. -/
  | fresh (p : ℕ)
  deriving DecidableEq, Repr

/-- The block `cache_acquire` returns. -/
def Found.ptr : Found → ℕ
  | .hit p | .evict p | .fresh p => p

namespace Bcache

/-- Store a `Block` structure. -/
def set (s : Bcache) (p : ℕ) (blk : Block) : Bcache :=
  { s with mem := Function.update s.mem p blk }

/-- `get_num_cached_blocks` -/
def getNumCachedBlocks (s : Bcache) : ℕ := s.head.length

/-- `device->write` -/
def devWrite (s : Bcache) (b : ℕ) (d : Sector) : Bcache :=
  { s with disk := Function.update s.disk b d, writes := s.writes ++ [(b, d)] }

/-- `device_read` -/
def deviceRead (s : Bcache) (p : ℕ) : Bcache :=
  s.set p { s.mem p with data := s.disk (s.mem p).blockNo }

/-- `device_write` -/
def deviceWrite (s : Bcache) (p : ℕ) : Bcache := s.devWrite (s.mem p).blockNo (s.mem p).data

/-- `read_header` -/
def readHeader (sb : SuperBlock) (s : Bcache) : Bcache :=
  { s with log := { s.log with header := LogHeader.decode (s.disk sb.logStart) } }

/-- `write_header` -/
def writeHeader (sb : SuperBlock) (s : Bcache) : Bcache :=
  s.devWrite sb.logStart s.log.header.encode

/-- `header.num_blocks = 0` under the log lock. -/
def clearHeader (s : Bcache) : Bcache :=
  { s with log := { s.log with header := s.log.header.clear } }

/-- The first scan of `cache_acquire`: the cached block with this number. -/
def lookup (s : Bcache) (b : ℕ) : Option ℕ := s.head.find? fun p => (s.mem p).blockNo = b

/-- The second scan: from the end of the list, a block neither pinned nor acquired. -/
def victim (s : Bcache) : Option ℕ :=
  s.head.reverse.find? fun p => !(s.mem p).pinned && !(s.mem p).acquired

/-- A new block after `init_block`, locked and loaded with the content `d`. -/
def freshBlock (b : ℕ) (d : Sector) : Block :=
  { initBlock with
    blockNo := b
    acquired := true
    valid := true
    lock := (initBlock.lock.waitSem 0).2
    data := d }

/-- The part of `cache_acquire` run under the cache lock.  A new block is locked
and loaded before the cache lock is dropped. -/
def acquireLocked (s : Bcache) (b : ℕ) : Found × Bcache :=
  match s.lookup b with
  | some p => (.hit p, s.set p { s.mem p with acquired := true })
  | none =>
    match if s.getNumCachedBlocks ≥ evictionThreshold then s.victim else none with
    | some p => (.evict p, s.set p { s.mem p with blockNo := b, acquired := true })
    | none =>
      (.fresh s.brk, { s.set s.brk (freshBlock b (s.disk b)) with
        head := s.brk :: s.head
        brk := s.brk + 1 })

/-- `unalertable_wait_sem(&bp->lock)` with nobody to post it meanwhile. -/
def waitLock (s : Bcache) (p : ℕ) : Option Bcache :=
  match (s.mem p).lock.waitSem 0 with
  | (true, l) => some (s.set p { s.mem p with lock := l })
  | (false, _) => none

/-- `post_sem(&block->lock)` with nobody asleep on it. -/
def postLock (s : Bcache) (p : ℕ) : Option Bcache :=
  (s.mem p).lock.postSem.map fun r => s.set p { s.mem p with lock := r.2 }

/-- `cache_acquire` -/
def cacheAcquire (s : Bcache) (b : ℕ) : Option (ℕ × Bcache) :=
  match s.acquireLocked b with
  | (.hit p, s) => (s.waitLock p).map fun s => (p, s)
  | (.evict p, s) => (s.waitLock p).map fun s => (p, s.deviceRead p)
  | (.fresh p, s) => some (p, s)

/-- The part of `cache_release` run under the cache lock: the block moves to the
front of the list. -/
def releaseLocked (s : Bcache) (p : ℕ) : Bcache :=
  { s.set p { s.mem p with acquired := false } with head := p :: s.head.erase p }

/-- `cache_release` -/
def cacheRelease (s : Bcache) (p : ℕ) : Option Bcache := (s.releaseLocked p).postLock p

/-- `memmove(bp->data, d, BLOCK_SIZE)` -/
def setData (s : Bcache) (p : ℕ) (d : Sector) : Bcache := s.set p { s.mem p with data := d }

/-- `bp->pinned = v` -/
def setPinned (s : Bcache) (p : ℕ) (v : Bool) : Bcache := s.set p { s.mem p with pinned := v }

/-! ## Committing and replaying -/

/-- One round of the loop of `install_trans`. -/
def installStep (sb : SuperBlock) (tail : ℕ) (s : Bcache) : Option Bcache := do
  let (src, s) ← s.cacheAcquire (sb.logBlock tail)
  let (dst, s) ← s.cacheAcquire (s.log.header.blockNo tail)
  let s := s.setData dst (s.mem src).data
  let s := s.deviceWrite dst
  let s := s.setPinned dst false
  let s ← s.cacheRelease src
  s.cacheRelease dst

/-- `install_trans` -/
def installTrans (sb : SuperBlock) (s : Bcache) : Option Bcache :=
  iterM (installStep sb) s.log.header.numBlocks s

/-- One round of the loop of `write_log`. -/
def writeLogStep (sb : SuperBlock) (tail : ℕ) (s : Bcache) : Option Bcache := do
  let (dst, s) ← s.cacheAcquire (sb.logBlock tail)
  let (src, s) ← s.cacheAcquire (s.log.header.blockNo tail)
  let s := s.setData dst (s.mem src).data
  let s := s.deviceWrite dst
  let s ← s.cacheRelease src
  s.cacheRelease dst

/-- `write_log` -/
def writeLog (sb : SuperBlock) (s : Bcache) : Option Bcache :=
  iterM (writeLogStep sb) s.log.header.numBlocks s

/-- `commit` -/
def commit (sb : SuperBlock) (s : Bcache) : Option Bcache :=
  if s.log.header.numBlocks > 0 then do
    let s ← s.writeLog sb
    let s := s.writeHeader sb
    let s ← s.installTrans sb
    some (s.clearHeader.writeHeader sb)
  else some s

/-- `recover_from_log` -/
def recoverFromLog (sb : SuperBlock) (s : Bcache) : Option Bcache := do
  let s ← (s.readHeader sb).installTrans sb
  some (s.clearHeader.writeHeader sb)

/-- The state before `init_bcache` runs `recover_from_log`: nothing is cached, and
the static variables are zero. -/
def boot (disk : ℕ → Sector) : Bcache where
  mem := fun _ => initBlock
  head := []
  brk := 0
  log := ⟨⟨0, fun _ => 0⟩, false, 0, 0⟩
  disk := disk
  writes := []

/-- `init_bcache` on a device with the given content. -/
def initBcache (sb : SuperBlock) (disk : ℕ → Sector) : Option Bcache :=
  (boot disk).recoverFromLog sb

/-! ## The calls of an atomic operation -/

/-- `cache_begin_op`, with the `ctx->rm` it sets. -/
def cacheBeginOp (s : Bcache) : Option (ℕ × Bcache) :=
  match s.log.beginOp with
  | .admitted rm l => some (rm, { s with log := l })
  | _ => none

/-- `cache_sync(ctx, block)` with `ctx->rm = rm`, returning the new `ctx->rm`. -/
def cacheSync (s : Bcache) (rm p : ℕ) : Option (ℕ × Bcache) := do
  let (recorded, rm, l) ← s.log.sync rm (s.mem p).blockNo
  let s := { s with log := l }
  some (rm, if recorded then s.setPinned p true else s)

/-- `cache_sync(NULL, block)` -/
def cacheSyncNull (s : Bcache) (p : ℕ) : Bcache := s.deviceWrite p

/-- `cache_end_op` with `ctx->rm = rm`.  Where other operations are outstanding
the caller goes to sleep on `s2`; that changes nothing here. -/
def cacheEndOp (sb : SuperBlock) (s : Bcache) (rm : ℕ) : Option Bcache :=
  match s.log.endOp rm with
  | (true, l) => do
      let s ← commit sb { s with log := l }
      some { s with log := { s.log with committing := false } }
  | (false, l) => some { s with log := l }

end Bcache

end OsLab
