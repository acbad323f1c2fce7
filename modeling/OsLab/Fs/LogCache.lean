import OsLab.Fs.AcquireSys
import OsLab.Fs.Defines

/-!
# Threads that share the log and the cached blocks

`cache_begin_op`, `cache_acquire`, `cache_sync`, `cache_release` and `cache_end_op`
run by any number of threads in any order.  A step is the code between two lock or
semaphore operations: a critical section of the log lock or of the cache lock, a
wait, a post, or a device access.  Blocks are the `Block` structures of the cache:
a thread keeps the pointers that `cache_acquire` returned, and so does the thread
that commits.  The steps inside `cache_acquire` and `cache_release` are those of
`AcqSys`.

A thread changes and syncs a block it holds between `cache_begin_op` and
`cache_end_op` only, keeps out of the log area, and syncs a block it changed before
it releases it.

The last fields are never read by a step.  They record when operations and commits
started, what each operation has synced, and the contents each block has had.

## Main definitions

* `Pass` — the two loops of a commit, `write_log` and `install_trans`.
* `CommitPc`, `CachePc` — where a thread is.
* `LogCache`, `LogCache.step` — the system.
* `LogCache.Installed`, `LogCache.Timely`, `LogCache.InOrder` — what a sync is promised, and the
  condition on a step.
-/

namespace OsLab

/-- The two loops of a commit, which copy between the log blocks and the recorded blocks. -/
inductive Pass
  /-- `write_log`: a recorded block is copied to its log block -/
  | writeLog
  /-- `install_trans`: a log block is copied to the recorded block -/
  | installTrans
  deriving DecidableEq, Repr

/-- Where the committing thread is in `commit`.  `lp` is its log block, `rp` its recorded block. -/
inductive CommitPc
  /-- at the test of `header.num_blocks` -/
  | check
  /-- at the head of the loop, about to acquire the log block -/
  | first (k : Pass) (tail : ℕ)
  /-- in that call, or back from it and about to acquire the recorded block -/
  | second (k : Pass) (tail : ℕ)
  /-- in that call, or back from it and about to copy and write -/
  | copy (k : Pass) (tail lp : ℕ)
  /-- `install_trans`, about to set `to->pinned` to false -/
  | unpin (tail lp rp : ℕ)
  /-- about to call `cache_release(from)` -/
  | freeFrom (k : Pass) (tail lp rp : ℕ)
  /-- in that call, or back from it and about to call `cache_release(to)` -/
  | freeTo (k : Pass) (tail lp rp : ℕ)
  | writeHeader
  /-- about to set `header.num_blocks` to zero -/
  | clear
  /-- about to write the empty header -/
  | clearHeader
  /-- about to set `log.committing` to false -/
  | finish
  deriving DecidableEq, Repr

/-- Where a thread is, outside `cache_acquire` and `cache_release`. -/
inductive CachePc
  /-- not in an operation -/
  | out
  /-- at the head of the loop of `cache_begin_op` -/
  | entering
  | waitS3
  | asleepS3
  | waitS1
  | asleepS1
  /-- between `cache_begin_op` and `cache_end_op` -/
  | inOp
  /-- `cache_end_op` of an operation that was not the last one, before `post_all_sem(&s1)` -/
  | leaving
  | waitS2
  | asleepS2
  /-- `cache_end_op` of the last operation, in `commit` or right after it -/
  | commit (q : CommitPc)
  | postS1
  | postS2
  | postS3
  /-- `cache_end_op` has returned -/
  | returned
  deriving DecidableEq, Repr

/-- What a thread does next.  A held block is named by its pointer. -/
inductive LogCacheAct
  /-- call `cache_begin_op` -/
  | beginOp
  /-- the critical section of `cache_acquire` -/
  | acquire (b : ℕ)
  /-- change the data of a block it holds -/
  | modify (p : ℕ) (d : Sector)
  /-- `cache_sync(ctx, block)` -/
  | sync (p : ℕ)
  /-- the critical section of `cache_release` -/
  | release (p : ℕ)
  /-- the critical section of `cache_end_op` -/
  | endOp
  /-- the next step of the call it is in -/
  | run

/-- `memmove(to->data, from->data, BLOCK_SIZE)` into this block. -/
def Pass.to (lp rp : ℕ) : Pass → ℕ
  | .writeLog => lp
  | .installTrans => rp

/-- The block it copies from. -/
def Pass.src (lp rp : ℕ) : Pass → ℕ
  | .writeLog => rp
  | .installTrans => lp

/-- The number of the block a round writes. -/
def Pass.target (sb : SuperBlock) (h : LogHeader) (tail : ℕ) : Pass → ℕ
  | .writeLog => sb.logBlock tail
  | .installTrans => h.blockNo tail

/-- What follows the loop in `commit`. -/
def Pass.after : Pass → CommitPc
  | .writeLog => .writeHeader
  | .installTrans => .clear

/-- What follows the device write of a round. -/
def Pass.written (tail lp rp : ℕ) : Pass → CommitPc
  | .writeLog => .freeFrom .writeLog tail lp rp
  | .installTrans => .unpin tail lp rp

namespace AcqSys

def setLog (s : AcqSys) (l : Log) : AcqSys := { s with cache := { s.cache with log := l } }

/-- Thread `t` changes the block `p` it holds, in place. -/
def change (s : AcqSys) (t p b : ℕ) (d : Sector) : AcqSys :=
  { s.setHold t p (some (b, d)) with
    cache := s.cache.setData p d
    cur := Function.update s.cur b d }

/-- `bp->pinned = v` -/
def pin (s : AcqSys) (p : ℕ) (v : Bool) : AcqSys := { s with cache := s.cache.setPinned p v }

/-- `write_header` -/
def writeHeader (sb : SuperBlock) (s : AcqSys) : AcqSys :=
  { s with cache := s.cache.writeHeader sb }

end AcqSys

/-- The cached blocks, the log, the semaphores and the threads. -/
structure LogCache where
  /-- the cache with its log, and where each thread is in `cache_acquire` or `cache_release` -/
  blocks : AcqSys
  s1 : Semaphore
  s2 : Semaphore
  s3 : Semaphore
  /-- the contexts of the outstanding operations, by thread, with `ctx->rm` -/
  ctxs : List (ℕ × ℕ)
  pc : ℕ → CachePc
  /-- the block that the thread's last `cache_acquire` returns -/
  bp : ℕ → ℕ
  /-- the block was changed after its last sync -/
  dirty : ℕ → Bool
  /-- commits started, and commits that have cleared `log.committing` -/
  started : ℕ
  finished : ℕ
  /-- the commits started before the thread's operation was admitted -/
  began : ℕ → ℕ
  /-- the number of the thread's commit, counted from one -/
  commitNo : ℕ → ℕ
  /-- for each `cache_sync` of the thread's operation: the block, the index of its content
  in `hist`, and the commits started before -/
  synced : ℕ → List (ℕ × ℕ × ℕ)
  /-- the contents a block has had, oldest first -/
  hist : ℕ → List Sector
  /-- the number of the last commit that installed the block -/
  inst : ℕ → ℕ

namespace LogCache

/-- `header` and `log` -/
def log (s : LogCache) : Log := s.blocks.cache.log

/-- What the device holds. -/
def disk (s : LogCache) : ℕ → Sector := s.blocks.cache.disk

/-- `ctx->rm` of the thread's operation. -/
def rm (s : LogCache) (t : ℕ) : Option ℕ := (s.ctxs.find? fun x => x.1 = t).map Prod.snd

/-- Thread `t` goes on at `q`. -/
def goto (s : LogCache) (t : ℕ) (q : CachePc) : LogCache :=
  { s with pc := Function.update s.pc t q }

/-- The threads `ts` go on at `q`. -/
def wake (s : LogCache) (ts : List ℕ) (q : CachePc) : LogCache :=
  { s with pc := fun u => if u ∈ ts then q else s.pc u }

/-- The thread is in no call. -/
def Idle (s : LogCache) (t : ℕ) : Prop :=
  s.blocks.pc t = .idle ∧ (s.pc t = .out ∨ s.pc t = .inOp ∨ s.pc t = .returned)

instance (s : LogCache) (t : ℕ) : Decidable (s.Idle t) := inferInstanceAs (Decidable (_ ∧ _))

/-- The thread enters `cache_acquire(b)` and goes on at `q` when it returns. -/
def acquire (s : LogCache) (t b : ℕ) (q : CachePc) : Option LogCache :=
  (s.blocks.step (t, .acquire b)).map fun blocks =>
    { s.goto t q with
      blocks := blocks
      bp := Function.update s.bp t (s.blocks.cache.acquireLocked b).1.ptr }

/-- The thread enters `cache_release(p)` and goes on at `q` when it returns. -/
def release (s : LogCache) (t p : ℕ) (q : CachePc) : Option LogCache :=
  (s.blocks.step (t, .release p)).map fun blocks => { s.goto t q with blocks := blocks }

/-- One pass of the loop of `cache_begin_op`. -/
def enter (s : LogCache) (t : ℕ) : LogCache :=
  match s.log.beginOp with
  | .committing => s.goto t .waitS3
  | .full => s.goto t .waitS1
  | .admitted rm l =>
      { s.goto t .inOp with
        blocks := s.blocks.setLog l
        ctxs := (t, rm) :: s.ctxs
        began := Function.update s.began t s.started
        synced := Function.update s.synced t [] }

/-- Thread `t` changes the block `p`, which it acquired as `b`. -/
def modify (s : LogCache) (t p b : ℕ) (d : Sector) : LogCache :=
  { s with
    blocks := s.blocks.change t p b d
    dirty := Function.update s.dirty b true
    hist := Function.update s.hist b (s.hist b ++ [d]) }

/-- `cache_sync(ctx, block)` of the block `p`, which the thread acquired as `b`. -/
def sync (s : LogCache) (t p b : ℕ) : Option LogCache := do
  let rm ← s.rm t
  let (new, rm', l) ← s.log.sync rm (s.blocks.cache.mem p).blockNo
  some { s with
    blocks := if new then (s.blocks.setLog l).pin p true else s.blocks.setLog l
    ctxs := (t, rm') :: s.ctxs.erase (t, rm)
    dirty := Function.update s.dirty b false
    synced := Function.update s.synced t (s.synced t ++ [(b, (s.hist b).length - 1, s.started)]) }

/-- The critical section of `cache_end_op`. -/
def leave (s : LogCache) (t : ℕ) : Option LogCache := do
  let rm ← s.rm t
  match s.log.endOp rm with
  | (true, l) =>
      some { s.goto t (.commit .check) with
        blocks := s.blocks.setLog l
        ctxs := s.ctxs.erase (t, rm)
        started := s.started + 1
        commitNo := Function.update s.commitNo t (s.started + 1) }
  | (false, l) =>
      some { s.goto t .leaving with
        blocks := s.blocks.setLog l
        ctxs := s.ctxs.erase (t, rm) }

/-- `memmove` and `device_write` of a round. -/
def write (sb : SuperBlock) (s : LogCache) (t tail lp rp : ℕ) (k : Pass) : LogCache :=
  { s.goto t (.commit (k.written tail lp rp)) with
    blocks := s.blocks.put t (k.to lp rp) (k.target sb s.log.header tail)
      (s.blocks.cache.mem (k.src lp rp)).data .null
    inst := match k with
      | .writeLog => s.inst
      | .installTrans =>
          Function.update s.inst (s.blocks.cache.mem rp).blockNo (s.commitNo t) }

/-- One step of `commit` and of the code after it up to `post_all_sem`. -/
def commitStep (sb : SuperBlock) (s : LogCache) (t : ℕ) : CommitPc → Option LogCache
  | .check =>
      if s.log.header.numBlocks > 0 then some (s.goto t (.commit (.first .writeLog 0)))
      else some (s.goto t (.commit .finish))
  | .first k tail =>
      if tail < s.log.header.numBlocks then
        s.acquire t (sb.logBlock tail) (.commit (.second k tail))
      else some (s.goto t (.commit k.after))
  | .second k tail =>
      s.acquire t (s.log.header.blockNo tail) (.commit (.copy k tail (s.bp t)))
  | .copy k tail lp => some (s.write sb t tail lp (s.bp t) k)
  | .unpin tail lp rp =>
      some { s.goto t (.commit (.freeFrom .installTrans tail lp rp)) with
        blocks := s.blocks.pin rp false }
  | .freeFrom k tail lp rp => s.release t (k.src lp rp) (.commit (.freeTo k tail lp rp))
  | .freeTo k tail lp rp => s.release t (k.to lp rp) (.commit (.first k (tail + 1)))
  | .writeHeader =>
      some { s.goto t (.commit (.first .installTrans 0)) with
        blocks := s.blocks.writeHeader sb }
  | .clear =>
      some { s.goto t (.commit .clearHeader) with
        blocks := s.blocks.setLog { s.log with header := s.log.header.clear } }
  | .clearHeader =>
      some { s.goto t (.commit .finish) with
        blocks := s.blocks.writeHeader sb }
  | .finish =>
      some { s.goto t .postS1 with
        blocks := s.blocks.setLog { s.log with committing := false }
        finished := s.finished + 1 }

/-- `unalertable_wait_sem` on one of the three semaphores. -/
def wait (s : LogCache) (t : ℕ) (sem : Semaphore) (put : LogCache → Semaphore → LogCache)
    (asleep awake : CachePc) : LogCache :=
  match sem.waitSem t with
  | (true, sem) => (put s sem).goto t awake
  | (false, sem) => (put s sem).goto t asleep

/-- `post_all_sem` on one of the three semaphores. -/
def post (s : LogCache) (t : ℕ) (sem : Semaphore) (put : LogCache → Semaphore → LogCache)
    (awake next : CachePc) : Option LogCache :=
  sem.postAllSem.map fun r => ((put s r.2).wake r.1 awake).goto t next

def setS1 (s : LogCache) (sem : Semaphore) : LogCache := { s with s1 := sem }
def setS2 (s : LogCache) (sem : Semaphore) : LogCache := { s with s2 := sem }
def setS3 (s : LogCache) (sem : Semaphore) : LogCache := { s with s3 := sem }

/-- The next step of the call of the log that thread `t` is in. -/
def runStep (sb : SuperBlock) (s : LogCache) (t : ℕ) : Option LogCache :=
  match s.pc t with
  | .entering => some (s.enter t)
  | .waitS3 => some (s.wait t s.s3 setS3 .asleepS3 .entering)
  | .waitS1 => some (s.wait t s.s1 setS1 .asleepS1 .entering)
  | .leaving => s.post t s.s1 setS1 .entering .waitS2
  | .waitS2 => some (s.wait t s.s2 setS2 .asleepS2 .returned)
  | .commit q => s.commitStep sb t q
  | .postS1 => s.post t s.s1 setS1 .entering .postS2
  | .postS2 => s.post t s.s2 setS2 .returned .postS3
  | .postS3 => s.post t s.s3 setS3 .entering .returned
  | .out | .asleepS3 | .asleepS1 | .inOp | .asleepS2 | .returned => none

/-- One step of thread `t`.  A thread in `cache_acquire` or `cache_release` goes on there. -/
def step (sb : SuperBlock) (s : LogCache) : ℕ × LogCacheAct → Option LogCache
  | (t, .beginOp) =>
      if s.Idle t ∧ s.pc t ≠ .inOp then some (s.goto t .entering) else none
  | (t, .acquire b) =>
      if s.Idle t ∧ ¬ sb.InLog b ∧ b < 2 ^ 64 then s.acquire t b (s.pc t) else none
  | (t, .modify p d) =>
      match s.blocks.hold t p with
      | some (b, _) =>
          if s.Idle t ∧ s.pc t = .inOp ∧ ¬ sb.InLog b ∧ b < 2 ^ 64 then some (s.modify t p b d)
          else none
      | none => none
  | (t, .sync p) =>
      match s.blocks.hold t p with
      | some (b, _) =>
          if s.Idle t ∧ s.pc t = .inOp ∧ ¬ sb.InLog b ∧ b < 2 ^ 64 then s.sync t p b else none
      | none => none
  | (t, .release p) =>
      match s.blocks.hold t p with
      | some (b, _) => if s.Idle t ∧ s.dirty b = false then s.release t p (s.pc t) else none
      | none => none
  | (t, .endOp) => if s.Idle t ∧ s.pc t = .inOp then s.leave t else none
  | (t, .run) =>
      if s.blocks.pc t = .idle then s.runStep sb t
      else (s.blocks.step (t, .run)).map fun blocks => { s with blocks := blocks }

/-- After `init_bcache` has left this cache. -/
def start (c : Bcache) : LogCache where
  blocks := AcqSys.start c
  s1 := .initSem 0
  s2 := .initSem 0
  s3 := .initSem 0
  ctxs := []
  pc := fun _ => .out
  bp := fun _ => 0
  dirty := fun _ => false
  started := 0
  finished := 0
  began := fun _ => 0
  commitNo := fun _ => 0
  synced := fun _ => []
  hist := fun b => [c.disk b]
  inst := fun _ => 0

/-! ## What is promised, and when -/

/-- The block of a sync was installed by a commit that started after it, and the disk holds
the content of that sync or a later one. -/
def Installed (s : LogCache) (x : ℕ × ℕ × ℕ) : Prop :=
  x.2.2 < s.inst x.1 ∧ ∃ j, x.2.1 ≤ j ∧ (s.hist x.1)[j]? = some (s.disk x.1)

/-- The thread has cleared `log.committing` and has not posted `s2` yet. -/
def Posting (s : LogCache) (t : ℕ) : Prop := s.pc t = .postS1 ∨ s.pc t = .postS2

/-- A thread goes to sleep on `s2` only while every commit that is about to post `s2` started
after the thread's operation was admitted, and a commit starts only with room for the group in
the log area. -/
def Timely (sb : SuperBlock) (s : LogCache) : ℕ × LogCacheAct → Prop
  | (t, .run) => s.pc t = .waitS2 → ∀ u, s.Posting u → s.began t < s.commitNo u
  | (_, .endOp) => s.log.outstanding = 1 → s.log.header.numBlocks < sb.numLogBlocks
  | _ => True

/-- The step inside `cache_acquire` or `cache_release` that the action takes. -/
def cacheAct (sb : SuperBlock) (s : LogCache) : ℕ × LogCacheAct → Option AcqAct
  | (_, .acquire b) => some (.acquire b)
  | (t, .run) =>
      if s.blocks.pc t = .idle then
        match s.pc t with
        | .commit (.first _ tail) =>
            if tail < s.log.header.numBlocks then some (.acquire (sb.logBlock tail)) else none
        | .commit (.second _ tail) => some (.acquire (s.log.header.blockNo tail))
        | _ => none
      else some .run
  | _ => none

/-- The step does not disturb a holder of a block: it is `Orderly` in the cache. -/
def InOrder (sb : SuperBlock) (s : LogCache) (i : ℕ × LogCacheAct) : Prop :=
  ∀ a, s.cacheAct sb i = some a → Orderly s.blocks (i.1, a)

end LogCache

end OsLab
