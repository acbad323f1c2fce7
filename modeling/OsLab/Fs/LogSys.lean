import OsLab.Fs.Commit
import OsLab.Fs.PlainMap

/-!
# Threads that share the log

`cache_begin_op`, `cache_sync` and `cache_end_op` run by any number of threads in
any order.  A step is the code between two lock or semaphore operations: a
critical section of the log lock, a wait, a post, or one copy of a commit between
the acquisition of its two blocks and their release.  The critical sections are
those of `OsLab.Fs.Cache`.

The blocks are taken by their contents: `view` is what `cache_acquire` returns
(`Bcache.view`), `held` says who has acquired a block, and one round of the loops
of `write_log` and `install_trans` is the device write the code's round is
(`writeRound_view`, `installRound_view`).
`OsLab.Fs.LogCache` is the same system over the cached blocks themselves, and each of
its steps is a step of this one or none (`LogCache.step_matched`).

A thread that is not in a call may acquire and release blocks outside the log
area; it changes and syncs a block it holds between `cache_begin_op` and
`cache_end_op` only, and a block it changed is synced before it is released.

The last fields are never read by a step.  They record when operations and
commits started, what each operation has synced, and the contents each block has
had.

## Main definitions

* `Pc`, `Phase` — where a thread is.
* `LogSys`, `LogSys.step` — the system.
* `LogSys.start` — its state after `init_bcache`.
-/

namespace OsLab

/-- Where the committing thread is in `commit`. -/
inductive Phase
  /-- at the test of `header.num_blocks` -/
  | check
  /-- `write_log`, about to acquire the log block -/
  | logTo (tail : ℕ)
  /-- `write_log`, about to acquire the recorded block -/
  | logFrom (tail : ℕ)
  /-- `write_log`, about to copy, write and release -/
  | logCopy (tail : ℕ)
  /-- about to write the header -/
  | writeHeader
  /-- `install_trans`, about to acquire the log block -/
  | installFrom (tail : ℕ)
  /-- `install_trans`, about to acquire the recorded block -/
  | installTo (tail : ℕ)
  /-- `install_trans`, about to copy, write and release -/
  | installCopy (tail : ℕ)
  /-- about to set `header.num_blocks` to zero -/
  | clear
  /-- about to write the empty header -/
  | clearHeader
  /-- about to set `log.committing` to false -/
  | finish
  deriving DecidableEq, Repr

/-- Where a thread is. -/
inductive Pc
  /-- not in a call and not in an operation -/
  | out
  /-- at the head of the loop of `cache_begin_op` -/
  | entering
  | waitS3
  | asleepS3
  | waitS1
  | asleepS1
  /-- between `cache_begin_op` and `cache_end_op` -/
  | inOp
  /-- `cache_end_op` of an operation that was not the last one, before `post_all_sem(&s1)` -/
  | leaving
  | waitS2
  | asleepS2
  /-- `cache_end_op` of the last operation, in `commit` or right after it -/
  | commit (ph : Phase)
  | postS1
  | postS2
  | postS3
  /-- `cache_end_op` has returned -/
  | returned
  deriving DecidableEq, Repr

/-- What a thread does next. -/
inductive Act
  /-- call `cache_begin_op` -/
  | beginOp
  | acquire (b : ℕ)
  /-- change the data of a block it holds -/
  | modify (b : ℕ) (d : Sector)
  /-- `cache_sync(ctx, block)` -/
  | sync (b : ℕ)
  | release (b : ℕ)
  /-- the critical section of `cache_end_op` -/
  | endOp
  /-- the next step of the call it is in -/
  | run

/-- The log, the semaphores, the blocks and the threads. -/
structure LogSys where
  log : Log
  s1 : Semaphore
  s2 : Semaphore
  s3 : Semaphore
  /-- the contexts of the outstanding operations, by thread, with `ctx->rm` -/
  ctxs : List (ℕ × ℕ)
  pc : ℕ → Pc
  /-- who has acquired a block -/
  held : ℕ → Option ℕ
  /-- the block was changed after its last sync -/
  dirty : ℕ → Bool
  view : ℕ → Sector
  disk : ℕ → Sector
  /-- commits started, and commits that have cleared `log.committing` -/
  started : ℕ
  finished : ℕ
  /-- the commits started before the thread's operation was admitted -/
  began : ℕ → ℕ
  /-- the number of the thread's commit, counted from one -/
  commitNo : ℕ → ℕ
  /-- for each `cache_sync` of the thread's operation: the block, the index of its content
  in `hist`, and the commits started before -/
  synced : ℕ → List (ℕ × ℕ × ℕ)
  /-- how many numbers the thread's operation has added to the header -/
  recorded : ℕ → ℕ
  /-- the contents a block has had, oldest first -/
  hist : ℕ → List Sector
  /-- the number of the last commit that installed the block -/
  inst : ℕ → ℕ

namespace LogSys

/-- `ctx->rm` of the thread's operation. -/
def rm (s : LogSys) (t : ℕ) : Option ℕ := (s.ctxs.find? fun x => x.1 = t).map Prod.snd

/-- Thread `t` goes on at `p`. -/
def goto (s : LogSys) (t : ℕ) (p : Pc) : LogSys := { s with pc := Function.update s.pc t p }

@[simp] theorem goto_pc_self (s : LogSys) (t : ℕ) (p : Pc) : (s.goto t p).pc t = p := by
  simp [goto]

theorem goto_pc_of_ne (s : LogSys) (p : Pc) {t u : ℕ} (h : u ≠ t) :
    (s.goto t p).pc u = s.pc u := by
  simp [goto, h]

/-- The threads `ts` go on at `p`. -/
def wake (s : LogSys) (ts : List ℕ) (p : Pc) : LogSys :=
  { s with pc := fun u => if u ∈ ts then p else s.pc u }

/-- `cache_acquire` of a block that nobody holds. -/
def take (s : LogSys) (t b : ℕ) : Option LogSys :=
  if s.held b = none then some { s with held := Function.update s.held b (some t) } else none

/-- One pass of the loop of `cache_begin_op`. -/
def enter (s : LogSys) (t : ℕ) : LogSys :=
  match s.log.beginOp with
  | .committing => s.goto t .waitS3
  | .full => s.goto t .waitS1
  | .admitted rm l =>
      { s.goto t .inOp with
        log := l
        ctxs := (t, rm) :: s.ctxs
        began := Function.update s.began t s.started
        synced := Function.update s.synced t []
        recorded := Function.update s.recorded t 0 }

/-- `cache_sync(ctx, block)` -/
def sync (s : LogSys) (t b : ℕ) : Option LogSys := do
  let rm ← s.rm t
  let (new, rm', l) ← s.log.sync rm b
  some { s with
    log := l
    ctxs := (t, rm') :: s.ctxs.erase (t, rm)
    dirty := Function.update s.dirty b false
    synced := Function.update s.synced t (s.synced t ++ [(b, (s.hist b).length - 1, s.started)])
    recorded := Function.update s.recorded t (s.recorded t + if new then 1 else 0) }

/-- The critical section of `cache_end_op`. -/
def leave (s : LogSys) (t : ℕ) : Option LogSys := do
  let rm ← s.rm t
  match s.log.endOp rm with
  | (true, l) =>
      some { s.goto t (.commit .check) with
        log := l
        ctxs := s.ctxs.erase (t, rm)
        started := s.started + 1
        commitNo := Function.update s.commitNo t (s.started + 1) }
  | (false, l) => some { s.goto t .leaving with log := l, ctxs := s.ctxs.erase (t, rm) }

/-- The committer copies into the block `b` it holds, writes it to the device, and releases
`b` and `c`. -/
def copyTo (s : LogSys) (b c : ℕ) (d : Sector) : LogSys :=
  { s with
    view := Function.update s.view b d
    disk := Function.update s.disk b d
    held := Function.update (Function.update s.held b none) c none }

/-- One step of `commit` and of the code after it up to `post_all_sem`. -/
def commitStep (sb : SuperBlock) (s : LogSys) (t : ℕ) : Phase → Option LogSys
  | .check =>
      if s.log.header.numBlocks > 0 then some (s.goto t (.commit (.logTo 0)))
      else some (s.goto t (.commit .finish))
  | .logTo i =>
      if i < s.log.header.numBlocks then
        (s.take t (sb.logBlock i)).map fun s => s.goto t (.commit (.logFrom i))
      else some (s.goto t (.commit .writeHeader))
  | .logFrom i =>
      (s.take t (s.log.header.blockNo i)).map fun s => s.goto t (.commit (.logCopy i))
  | .logCopy i =>
      some ((s.copyTo (sb.logBlock i) (s.log.header.blockNo i)
        (s.view (s.log.header.blockNo i))).goto t (.commit (.logTo (i + 1))))
  | .writeHeader =>
      some { s.goto t (.commit (.installFrom 0)) with
        disk := Function.update s.disk sb.logStart s.log.header.encode }
  | .installFrom i =>
      if i < s.log.header.numBlocks then
        (s.take t (sb.logBlock i)).map fun s => s.goto t (.commit (.installTo i))
      else some (s.goto t (.commit .clear))
  | .installTo i =>
      (s.take t (s.log.header.blockNo i)).map fun s => s.goto t (.commit (.installCopy i))
  | .installCopy i =>
      some { (s.copyTo (s.log.header.blockNo i) (sb.logBlock i)
          (s.view (sb.logBlock i))).goto t (.commit (.installFrom (i + 1))) with
        inst := Function.update s.inst (s.log.header.blockNo i) (s.commitNo t) }
  | .clear =>
      some { s.goto t (.commit .clearHeader) with
        log := { s.log with header := s.log.header.clear } }
  | .clearHeader =>
      some { s.goto t (.commit .finish) with
        disk := Function.update s.disk sb.logStart s.log.header.encode }
  | .finish =>
      some { s.goto t .postS1 with
        log := { s.log with committing := false }
        finished := s.finished + 1 }

/-- `unalertable_wait_sem` on one of the three semaphores. -/
def wait (s : LogSys) (t : ℕ) (sem : Semaphore) (put : LogSys → Semaphore → LogSys)
    (asleep awake : Pc) : LogSys :=
  match sem.waitSem t with
  | (true, sem) => (put s sem).goto t awake
  | (false, sem) => (put s sem).goto t asleep

/-- `post_all_sem` on one of the three semaphores. -/
def post (s : LogSys) (t : ℕ) (sem : Semaphore) (put : LogSys → Semaphore → LogSys)
    (awake next : Pc) : Option LogSys :=
  sem.postAllSem.map fun r => ((put s r.2).wake r.1 awake).goto t next

def setS1 (s : LogSys) (sem : Semaphore) : LogSys := { s with s1 := sem }
def setS2 (s : LogSys) (sem : Semaphore) : LogSys := { s with s2 := sem }
def setS3 (s : LogSys) (sem : Semaphore) : LogSys := { s with s3 := sem }

/-- The next step of the call thread `t` is in. -/
def runStep (sb : SuperBlock) (s : LogSys) (t : ℕ) : Option LogSys :=
  match s.pc t with
  | .entering => some (s.enter t)
  | .waitS3 => some (s.wait t s.s3 setS3 .asleepS3 .entering)
  | .waitS1 => some (s.wait t s.s1 setS1 .asleepS1 .entering)
  | .leaving => s.post t s.s1 setS1 .entering .waitS2
  | .waitS2 => some (s.wait t s.s2 setS2 .asleepS2 .returned)
  | .commit ph => s.commitStep sb t ph
  | .postS1 => s.post t s.s1 setS1 .entering .postS2
  | .postS2 => s.post t s.s2 setS2 .returned .postS3
  | .postS3 => s.post t s.s3 setS3 .entering .returned
  | .out | .asleepS3 | .asleepS1 | .inOp | .asleepS2 | .returned => none

/-- One step of thread `t`. -/
def step (sb : SuperBlock) (s : LogSys) : ℕ × Act → Option LogSys
  | (t, .beginOp) =>
      if s.pc t = .out ∨ s.pc t = .returned then some (s.goto t .entering) else none
  | (t, .acquire b) =>
      if (s.pc t = .out ∨ s.pc t = .inOp ∨ s.pc t = .returned) ∧ ¬ sb.InLog b ∧ b < 2 ^ 64 then
        s.take t b
      else none
  | (t, .modify b d) =>
      if s.pc t = .inOp ∧ s.held b = some t ∧ ¬ sb.InLog b ∧ b < 2 ^ 64 then
        some { s with
          view := Function.update s.view b d
          dirty := Function.update s.dirty b true
          hist := Function.update s.hist b (s.hist b ++ [d]) }
      else none
  | (t, .sync b) =>
      if s.pc t = .inOp ∧ s.held b = some t ∧ ¬ sb.InLog b ∧ b < 2 ^ 64 then s.sync t b else none
  | (t, .release b) =>
      if (s.pc t = .out ∨ s.pc t = .inOp ∨ s.pc t = .returned) ∧ s.held b = some t ∧
          s.dirty b = false then
        some { s with held := Function.update s.held b none }
      else none
  | (t, .endOp) => if s.pc t = .inOp then s.leave t else none
  | (t, .run) => s.runStep sb t

/-- After `init_bcache` on a device with these contents. -/
def start (disk : ℕ → Sector) : LogSys where
  log := ⟨⟨0, fun _ => 0⟩, false, 0, 0⟩
  s1 := .initSem 0
  s2 := .initSem 0
  s3 := .initSem 0
  ctxs := []
  pc := fun _ => .out
  held := fun _ => none
  dirty := fun _ => false
  view := disk
  disk := disk
  started := 0
  finished := 0
  began := fun _ => 0
  commitNo := fun _ => 0
  synced := fun _ => []
  recorded := fun _ => 0
  hist := fun b => [disk b]
  inst := fun _ => 0

end LogSys

/-! ## The rounds of a commit -/

section Round

variable {sb : SuperBlock} {s : Bcache} {S : LogSys} {t i : ℕ}
  (hview : s.view = S.view) (hdisk : s.disk = S.disk) (hlog : s.log = S.log)
  (hc : s.Coherent sb.logStart) (hB : s.log.header.blockNo i ≠ sb.logStart)
  (hne : s.log.header.blockNo i ≠ sb.logBlock i) (hi : i < S.log.header.numBlocks)
  (hL : ¬ s.abs.held (sb.logBlock i)) (hb : ¬ s.abs.held (s.log.header.blockNo i))
  (hL' : S.held (sb.logBlock i) = none) (hb' : S.held (S.log.header.blockNo i) = none)
include hview hdisk hlog hc hB hne hi hL hb hL' hb'

/-- **A round of `write_log`** by a thread of the system does to the contents what the
round of the code does. -/
theorem writeRound_view (hpc : S.pc t = .commit (.logTo i)) :
    ∃ s' S', s.writeLogStep sb i = some s' ∧
      runs (LogSys.step sb) S [(t, .run), (t, .run), (t, .run)] = some S' ∧
      s'.view = S'.view ∧ s'.disk = S'.disk ∧ s'.log = S'.log := by
  obtain ⟨s', hs', -, habs, -⟩ := Bcache.writeLogStep_spec hc hB hne hL hb
  have hne' : S.log.header.blockNo i ≠ sb.logBlock i := hlog ▸ hne
  refine ⟨s', _, hs', by
    simp only [runs, LogSys.step, LogSys.runStep, hpc, LogSys.commitStep, if_pos hi, LogSys.take,
      hL', if_true, Option.map_some, Option.bind_some, LogSys.goto, Function.update_self,
      Function.update_of_ne hne', hb']
    rfl, ?_⟩
  refine ⟨?_, ?_, ?_⟩
  · rw [← Bcache.abs_view, habs]
    simp [LogSys.copyTo, hview, hlog]
  · rw [← Bcache.abs_disk, habs]
    simp [LogSys.copyTo, hview, hlog, hdisk]
  · rw [← Bcache.abs_log, habs]
    exact hlog

/-- **A round of `install_trans`** likewise. -/
theorem installRound_view (hpc : S.pc t = .commit (.installFrom i)) :
    ∃ s' S', s.installStep sb i = some s' ∧
      runs (LogSys.step sb) S [(t, .run), (t, .run), (t, .run)] = some S' ∧
      s'.view = S'.view ∧ s'.disk = S'.disk ∧ s'.log = S'.log := by
  obtain ⟨s', hs', -, habs, -⟩ := Bcache.installStep_spec hc hB hne hL hb
  have hne' : S.log.header.blockNo i ≠ sb.logBlock i := hlog ▸ hne
  refine ⟨s', _, hs', by
    simp only [runs, LogSys.step, LogSys.runStep, hpc, LogSys.commitStep, if_pos hi, LogSys.take,
      hL', if_true, Option.map_some, Option.bind_some, LogSys.goto, Function.update_self,
      Function.update_of_ne hne', hb']
    rfl, ?_⟩
  refine ⟨?_, ?_, ?_⟩
  · rw [← Bcache.abs_view, habs]
    simp [LogSys.copyTo, hview, hlog]
  · rw [← Bcache.abs_disk, habs]
    simp [LogSys.copyTo, hview, hlog, hdisk]
  · rw [← Bcache.abs_log, habs]
    exact hlog

end Round

end OsLab
