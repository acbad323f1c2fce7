import OsLab.Fs.InodeTree

/-!
# Threads that share the in-memory inodes

`inode_alloc`, `inode_get`, `inode_share` and `inode_put` of `fs/inode.c`, run by any
number of threads in any order.  A step is a critical section of the spinlock of the
list, a wait or a post on the sleep lock of an inode, or an operation on one block: a
probe of `inode_alloc`, an `inode_sync`, a `cache->free`.

The last `inode_put` of an inode without links gives up the spinlock before it frees the
blocks, writes the entry twice and sets `valid` to false; only then it takes the spinlock
again and unlinks the inode, and last it drops the reference and frees the memory.

A lock that is taken disables the step that wants it.  `refs` is never read by a step
except to see that a caller has the reference it passes: these are the references handed
out and not yet put, with the thread that has them.

## Main definitions

* `SharedInode`, `InodePc`, `InodeSys`, `InodeSys.step` — the system.
* `InodeSys.Sound`, `InodeSys.Returned` — references are sound; what `inode_get` returns.
* `Undying` — the steps that find no inode which is being freed.
-/

namespace OsLab

/-- `Inode`, with the thread that has its sleep lock -/
structure SharedInode where
  holder : Option ℕ
  rc : ℤ
  inodeNo : ℕ
  valid : Bool
  entry : InodeEntry

/-- Where a thread is. -/
inductive InodePc
  /-- in no call -/
  | idle
  /-- in `inode_alloc`, about to look at inode `no` -/
  | probe (type : UInt16) (no : ℕ)
  /-- in `inode_get`, about to wait on the lock of `ip` -/
  | getLock (ip no : ℕ)
  /-- in `inode_get`, about to load the entry of `ip` -/
  | load (ip no : ℕ)
  /-- in `inode_get`, about to release the locks and return `ip` -/
  | loaded (ip no : ℕ)
  /-- in `inode_put`, about to acquire the spinlock -/
  | put (ip : ℕ)
  /-- at the last reference, about to wait on the lock of `ip` -/
  | putLock (ip : ℕ)
  /-- in `inode_clear`, at direct address `k` -/
  | clear (ip k : ℕ)
  /-- in `inode_clear`, at address `k` of the indirect block -/
  | table (ip k : ℕ)
  /-- in `inode_clear`, about to write the entry -/
  | cleared (ip : ℕ)
  /-- about to write the entry with type `INODE_INVALID` -/
  | invalid (ip : ℕ)
  /-- about to set `valid` to false and to release the lock of `ip` -/
  | unlock (ip : ℕ)
  /-- about to unlink `ip` -/
  | detach (ip : ℕ)
  /-- about to drop the reference and to free `ip` -/
  | drop (ip : ℕ)
  deriving DecidableEq, Repr

/-- The inode that a thread has taken in `inode_get` and not returned. -/
def InodePc.taking : InodePc → Option ℕ
  | .getLock ip _ | .load ip _ | .loaded ip _ => some ip
  | _ => none

/-- What a thread does next. -/
inductive InodeAct
  | alloc (type : UInt16)
  /-- the critical section of `inode_get(no)` up to `inode_lock`; `a` is what `kalloc` returns -/
  | get (no a : ℕ)
  | share (ip : ℕ)
  | put (ip : ℕ)
  /-- a reference is passed on to thread `u` -/
  | give (u ip : ℕ)
  /-- the next step of the call it is in -/
  | run

/-- The disk, the in-memory inodes and the threads. -/
structure InodeSys where
  disk : Disk
  /-- the list of in-memory inodes, first node first -/
  head : List ℕ
  /-- the addresses that `kalloc` has returned and nobody has freed -/
  heap : List ℕ
  mem : ℕ → SharedInode
  /-- the thread that has the spinlock -/
  lock : Option ℕ
  pc : ℕ → InodePc
  refs : List (ℕ × ℕ)

namespace InodeSys

/-- Thread `t` goes on at `q`. -/
def goto (s : InodeSys) (t : ℕ) (q : InodePc) : InodeSys := { s with pc := Function.update s.pc t q }

def setMem (s : InodeSys) (ip : ℕ) (x : SharedInode) : InodeSys :=
  { s with mem := Function.update s.mem ip x }

def setLock (s : InodeSys) (l : Option ℕ) : InodeSys := { s with lock := l }

def setRefs (s : InodeSys) (l : List (ℕ × ℕ)) : InodeSys := { s with refs := l }

section Updates

variable (s : InodeSys) (t u ip jp : ℕ) (q : InodePc) (x : SharedInode) (o : Option ℕ)
  (l : List (ℕ × ℕ))

@[simp] theorem goto_pc_self : (s.goto t q).pc t = q := Function.update_self ..

@[simp] theorem goto_pc_of_ne (h : u ≠ t) : (s.goto t q).pc u = s.pc u := Function.update_of_ne h ..

@[simp] theorem goto_mem : (s.goto t q).mem = s.mem := rfl

@[simp] theorem setMem_mem_self : (s.setMem ip x).mem ip = x := Function.update_self ..

@[simp] theorem setMem_mem_of_ne (h : jp ≠ ip) : (s.setMem ip x).mem jp = s.mem jp :=
  Function.update_of_ne h ..

theorem setMem_self : s.setMem ip (s.mem ip) = s := by rw [setMem, Function.update_eq_self]

@[simp] theorem setLock_mem : (s.setLock o).mem = s.mem := rfl

@[simp] theorem setRefs_mem : (s.setRefs l).mem = s.mem := rfl

end Updates

/-- `init_inode` on new memory -/
def initInode (x : SharedInode) : SharedInode :=
  { x with holder := none, rc := 0, inodeNo := 0, valid := false }

/-- `inode_get` takes the inode `ip`, new or unused, for `no`, and goes on to `inode_lock`. -/
def take (s : InodeSys) (t ip no : ℕ) : InodeSys :=
  ((s.setMem ip { s.mem ip with inodeNo := no, rc := (s.mem ip).rc + 1, valid := false }).setLock
    (some t)).goto t (.getLock ip no)

/-- `inode_sync(ctx, ip, do_write)` -/
def sync (sb : SuperBlock) (s : InodeSys) (ip : ℕ) (doWrite : Bool) : InodeSys :=
  let x := s.mem ip
  let (valid, e, m) := inodeSync sb s.disk x.inodeNo x.valid x.entry doWrite
  { s.setMem ip { x with valid := valid, entry := e } with disk := m }

/-- `cache->free(ctx, b)` -/
def free (sb : SuperBlock) (s : InodeSys) (b : ℕ) : Option InodeSys :=
  (cacheFree sb s.disk b).map fun m => { s with disk := m }

def setEntry (s : InodeSys) (ip : ℕ) (e : InodeEntry) : InodeSys :=
  s.setMem ip { s.mem ip with entry := e }

/-- A round of the first loop of `inode_clear`, or the test after it. -/
def clearStep (sb : SuperBlock) (s : InodeSys) (t ip k : ℕ) : Option InodeSys :=
  let e := (s.mem ip).entry
  if k < inodeNumDirect then
    if e.addr k = 0 then some (s.goto t (.clear ip (k + 1)))
    else (s.free sb (e.addr k)).map fun s =>
      (s.setEntry ip (e.setAddr k 0)).goto t (.clear ip (k + 1))
  else if e.indirect = 0 then some (s.goto t (.cleared ip))
  else some (s.goto t (.table ip 0))

/-- A round of the second loop of `inode_clear`, or the free of the indirect block after it. -/
def tableStep (sb : SuperBlock) (s : InodeSys) (t ip k : ℕ) : Option InodeSys :=
  let e := (s.mem ip).entry
  if k < inodeNumIndirect then
    if indirectAddr s.disk e.indirect.toNat k = 0 then some (s.goto t (.table ip (k + 1)))
    else (s.free sb (indirectAddr s.disk e.indirect.toNat k)).map fun s =>
      s.goto t (.table ip (k + 1))
  else (s.free sb e.indirect.toNat).map fun s =>
    (s.setEntry ip { e with indirect := 0 }).goto t (.cleared ip)

/-- The next step of the call thread `t` is in. -/
def runStep (sb : SuperBlock) (s : InodeSys) (t : ℕ) : Option InodeSys :=
  match s.pc t with
  | .idle => none
  | .probe type no =>
      if no ≤ sb.numInodes then
        if (sb.diskEntry s.disk no).type = inodeInvalid then
          some ({ s with
            disk := sb.putDiskEntry s.disk no { InodeEntry.zero with type := type } }.goto t .idle)
        else some (s.goto t (.probe type (no + 1)))
      else none
  | .getLock ip no =>
      if 0 < (s.mem ip).rc ∧ (s.mem ip).holder = none then
        some ((s.setMem ip { s.mem ip with holder := some t }).goto t (.load ip no))
      else none
  | .load ip no => some ((s.sync sb ip false).goto t (.loaded ip no))
  | .loaded ip _ =>
      some (((s.setMem ip { s.mem ip with holder := none }).setLock none).setRefs
        ((t, ip) :: s.refs) |>.goto t .idle)
  | .put ip =>
      if s.lock = none then
        if (s.mem ip).rc = 1 ∧ (s.mem ip).entry.numLinks = 0 then
          some ((s.setLock (some t)).goto t (.putLock ip))
        else
          some (((s.setMem ip { s.mem ip with rc := (s.mem ip).rc - 1 }).setRefs
            (s.refs.erase (t, ip))).goto t .idle)
      else none
  | .putLock ip =>
      if 0 < (s.mem ip).rc ∧ (s.mem ip).holder = none then
        some (((s.setMem ip { s.mem ip with holder := some t }).setLock none).goto t (.clear ip 0))
      else none
  | .clear ip k => s.clearStep sb t ip k
  | .table ip k => s.tableStep sb t ip k
  | .cleared ip =>
      some (((s.setEntry ip { (s.mem ip).entry with numBytes := 0 }).sync sb ip true).goto t
        (.invalid ip))
  | .invalid ip =>
      some (((s.setEntry ip { (s.mem ip).entry with type := inodeInvalid }).sync sb ip true).goto t
        (.unlock ip))
  | .unlock ip =>
      if 0 < (s.mem ip).rc then
        some ((s.setMem ip { s.mem ip with valid := false, holder := none }).goto t (.detach ip))
      else none
  | .detach ip =>
      if s.lock = none then some ({ s with head := s.head.erase ip }.goto t (.drop ip)) else none
  | .drop ip =>
      some ({ s.setMem ip { s.mem ip with rc := (s.mem ip).rc - 1 } with
        heap := s.heap.erase ip
        refs := s.refs.erase (t, ip) }.goto t .idle)

/-- The critical section of `inode_get` up to `inode_lock`. -/
def getStep (sb : SuperBlock) (s : InodeSys) (t no a : ℕ) : Option InodeSys :=
  if 0 < no ∧ no < sb.numInodes ∧ s.lock = none then
    match s.head.find? fun ip => (s.mem ip).inodeNo = no ∧ 0 < (s.mem ip).rc with
    | some ip =>
        some ((s.setMem ip { s.mem ip with rc := (s.mem ip).rc + 1 }).setRefs ((t, ip) :: s.refs))
    | none =>
        match s.head.find? fun ip => (s.mem ip).rc = 0 with
        | some ip => some (s.take t ip no)
        | none =>
            if a ∈ s.heap then none
            else some ({ s.setMem a (initInode (s.mem a)) with
              heap := a :: s.heap
              head := a :: s.head }.take t a no)
  else none

/-- One step of thread `t`. -/
def step (sb : SuperBlock) (s : InodeSys) : ℕ × InodeAct → Option InodeSys
  | (t, .alloc type) =>
      if s.pc t = .idle ∧ type ≠ inodeInvalid then some (s.goto t (.probe type 1)) else none
  | (t, .get no a) => if s.pc t = .idle then s.getStep sb t no a else none
  | (t, .share ip) =>
      if s.pc t = .idle ∧ s.refs.contains (t, ip) ∧ s.lock = none then
        some ((s.setMem ip { s.mem ip with rc := (s.mem ip).rc + 1 }).setRefs ((t, ip) :: s.refs))
      else none
  | (t, .put ip) =>
      if s.pc t = .idle ∧ s.refs.contains (t, ip) ∧ (s.mem ip).valid = true then some (s.goto t (.put ip))
      else none
  | (t, .give u ip) =>
      if s.pc t = .idle ∧ s.refs.contains (t, ip) then
        some (s.setRefs ((u, ip) :: s.refs.erase (t, ip)))
      else none
  | (t, .run) => s.runStep sb t

/-- What callers promise: `inode_get` is called for an inode that is allocated on the disk. -/
def Legal (sb : SuperBlock) (s : InodeSys) : ℕ × InodeAct → Prop
  | (_, .get no _) => (sb.diskEntry s.disk no).type ≠ inodeInvalid
  | _ => True

/-- No inode in memory, and no thread in a call. -/
def start (m : Disk) (mem : ℕ → SharedInode) : InodeSys :=
  ⟨m, [], [], mem, none, fun _ => .idle, []⟩

/-- The references to `ip`. -/
def refCount (s : InodeSys) (ip : ℕ) : ℕ := s.refs.countP fun r => r.2 = ip

/-- **References are sound.** -/
structure Sound (s : InodeSys) : Prop where
  /-- the count of an inode in memory is that of the references handed out and not yet put, -/
  counts : ∀ ip ∈ s.heap, (∀ t, (s.pc t).taking ≠ some ip) → (s.mem ip).rc = s.refCount ip
  /-- and the one that `inode_get` is about to hand out -/
  taken : ∀ ip ∈ s.heap, ∀ t, (s.pc t).taking = some ip → (s.mem ip).rc = s.refCount ip + 1
  /-- one inode in memory for each number -/
  unique : ∀ ip ∈ s.heap, ∀ jp ∈ s.heap, 0 < (s.mem ip).rc → 0 < (s.mem jp).rc →
    (s.mem ip).inodeNo = (s.mem jp).inodeNo → ip = jp
  /-- an inode that a thread has a reference to is linked, unless this thread is the one that
  frees it, and its memory is not freed -/
  kept : ∀ t ip, (t, ip) ∈ s.refs → (ip ∈ s.head ∨ s.pc t = .drop ip) ∧ ip ∈ s.heap

/-- The number and the inode that a step returns from `inode_get`. -/
def returns (s : InodeSys) : ℕ × InodeAct → Option (ℕ × ℕ)
  | (_, .get no _) =>
      (s.head.find? fun ip => (s.mem ip).inodeNo = no ∧ 0 < (s.mem ip).rc).map (no, ·)
  | (t, .run) =>
      match s.pc t with
      | .loaded ip no => some (no, ip)
      | _ => none
  | _ => none

/-- Inode `ip` has number `no` and is valid, with the entry that is on the disk. -/
def Returned (sb : SuperBlock) (s : InodeSys) (no ip : ℕ) : Prop :=
  (s.mem ip).inodeNo = no ∧ (s.mem ip).valid = true ∧ (s.mem ip).entry = sb.diskEntry s.disk no

end InodeSys

/-- The inode that a thread is freeing, from where it gives up the spinlock to where the inode is
unlinked. -/
def InodePc.freeing : InodePc → Option ℕ
  | .clear ip _ | .table ip _ | .cleared ip | .invalid ip | .unlock ip | .detach ip => some ip
  | _ => none

/-- The inode that a thread is freeing, from where it gives up the spinlock to where the memory is
freed. -/
def InodePc.dying : InodePc → Option ℕ
  | .drop ip => some ip
  | q => q.freeing

theorem InodePc.dying_of_freeing {q : InodePc} {ip : ℕ} (h : q.freeing = some ip) :
    q.dying = some ip := by
  cases q
  all_goals first | exact h | cases h

/-- The condition on a step: `inode_get` is not called for the number of an inode that a thread is
freeing. -/
def Undying (s : InodeSys) : ℕ × InodeAct → Prop
  | (_, .get no _) => ∀ u ip, (s.pc u).dying = some ip → (s.mem ip).inodeNo ≠ no
  | _ => True

end OsLab
