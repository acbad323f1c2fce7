import OsLab.Fs.CacheSpec

/-!
# Threads that share the cached blocks

`cache_acquire` and `cache_release` run by any number of threads in any order.  A
step is a critical section of the cache lock, a wait or a post on the lock of a
block, or the device read after an eviction.  The critical sections are those of
`OsLab.Fs.Cache`.

A holder may change its block in place and sync it (`AcqAct.put`): with a context,
which pins the block, without one, which writes it to the device, or as
`install_trans` does, which writes and unpins it.

Two fields are never read by a step.  `cur` is the content of each block, the
disk's or the last one synced, and `hold` remembers for each block a thread has
acquired the number it asked for and the content it should find.

## Main definitions

* `AcqPc`, `AcqSys`, `AcqSys.step` — the system.
* `AcqSys.Keeps`, `AcqSys.Current`, `AcqSys.Undisturbed` — held blocks have the number asked
  for and its content, and keep both.
* `Orderly` — the steps that do not disturb a holder.
-/

namespace OsLab

/-- Where a thread is in `cache_acquire` or `cache_release`. -/
inductive AcqPc
  /-- in neither -/
  | idle
  /-- found cached, about to wait on the lock of `p` -/
  | hitWait (p b : ℕ)
  | hitAsleep (p b : ℕ)
  /-- taken from another number, about to wait on the lock of `p` -/
  | evictWait (p b : ℕ)
  | evictAsleep (p b : ℕ)
  /-- taken from another number and locked, about to read the device -/
  | reading (p b : ℕ)
  /-- released, about to post the lock of `p` -/
  | releasing (p : ℕ)
  deriving DecidableEq, Repr

/-- How a changed block is synced. -/
inductive SyncKind
  /-- `cache_sync(ctx, block)` -/
  | ctx
  /-- `cache_sync(NULL, block)` -/
  | null
  /-- `device_write` and unpinning in `install_trans` -/
  | install
  deriving DecidableEq, Repr

/-- What a thread does next. -/
inductive AcqAct
  /-- the critical section of `cache_acquire` -/
  | acquire (b : ℕ)
  /-- change a held block in place and sync it -/
  | put (p : ℕ) (d : Sector) (kind : SyncKind)
  /-- the critical section of `cache_release` -/
  | release (p : ℕ)
  /-- the next step of the call it is in -/
  | run

/-- The cache and the threads. -/
structure AcqSys where
  cache : Bcache
  pc : ℕ → AcqPc
  /-- the blocks a thread has acquired: the number asked for and the expected content -/
  hold : ℕ → ℕ → Option (ℕ × Sector)
  cur : ℕ → Sector

namespace AcqSys

/-- Thread `t` goes on at `q`. -/
def goto (s : AcqSys) (t : ℕ) (q : AcqPc) : AcqSys := { s with pc := Function.update s.pc t q }

def setHold (s : AcqSys) (t p : ℕ) (x : Option (ℕ × Sector)) : AcqSys :=
  { s with hold := Function.update s.hold t (Function.update (s.hold t) p x) }

/-- The lock of a block. -/
def lock (s : AcqSys) (p : ℕ) : Semaphore := (s.cache.mem p).lock

def setLock (s : AcqSys) (p : ℕ) (l : Semaphore) : AcqSys :=
  { s with cache := s.cache.set p { s.cache.mem p with lock := l } }

/-- `cache_acquire(b)` returns the block `p` to thread `t`. -/
def ret (s : AcqSys) (t p b : ℕ) : AcqSys := (s.setHold t p (some (b, s.cur b))).goto t .idle

/-- The thread a post has woken goes on. -/
def wake (s : AcqSys) (u : ℕ) : AcqSys :=
  match s.pc u with
  | .hitAsleep p b => s.ret u p b
  | .evictAsleep p b => s.goto u (.reading p b)
  | _ => s

/-- A holder changes a block and syncs it. -/
def put (s : AcqSys) (t p b : ℕ) (d : Sector) (kind : SyncKind) : AcqSys :=
  let c := s.cache.setData p d
  let c := match kind with
    | .ctx => c.setPinned p true
    | .null => c.deviceWrite p
    | .install => (c.deviceWrite p).setPinned p false
  { s.setHold t p (some (b, d)) with cache := c, cur := Function.update s.cur b d }

/-- The next step of the call thread `t` is in. -/
def runStep (s : AcqSys) (t : ℕ) : Option AcqSys :=
  match s.pc t with
  | .hitWait p b =>
      match (s.lock p).waitSem t with
      | (true, l) => some ((s.setLock p l).ret t p b)
      | (false, l) => some ((s.setLock p l).goto t (.hitAsleep p b))
  | .evictWait p b =>
      match (s.lock p).waitSem t with
      | (true, l) => some ((s.setLock p l).goto t (.reading p b))
      | (false, l) => some ((s.setLock p l).goto t (.evictAsleep p b))
  | .reading p b => some (({ s with cache := s.cache.deviceRead p } : AcqSys).ret t p b)
  | .releasing p =>
      match (s.lock p).postSem with
      | none => none
      | some (none, l) => some ((s.setLock p l).goto t .idle)
      | some (some u, l) => some (((s.setLock p l).goto t .idle).wake u)
  | .idle | .hitAsleep _ _ | .evictAsleep _ _ => none

/-- One step of thread `t`. -/
def step (s : AcqSys) : ℕ × AcqAct → Option AcqSys
  | (t, .acquire b) =>
      if s.pc t = .idle then
        match s.cache.acquireLocked b with
        | (.hit p, c) => some (({ s with cache := c } : AcqSys).goto t (.hitWait p b))
        | (.evict p, c) => some (({ s with cache := c } : AcqSys).goto t (.evictWait p b))
        | (.fresh p, c) => some (({ s with cache := c } : AcqSys).ret t p b)
      else none
  | (t, .put p d kind) =>
      match s.pc t, s.hold t p with
      | .idle, some (b, _) => some (s.put t p b d kind)
      | _, _ => none
  | (t, .release p) =>
      match s.pc t, s.hold t p with
      | .idle, some _ =>
          some (({ s.setHold t p none with cache := s.cache.releaseLocked p } : AcqSys).goto t
            (.releasing p))
      | _, _ => none
  | (t, .run) => s.runStep t

/-- Between two calls, with nobody in the cache. -/
def start (c : Bcache) : AcqSys := ⟨c, fun _ => .idle, fun _ _ => none, c.view⟩

/-- **A held block keeps its identity and content.**  Every block a thread has acquired and
not released has the number the thread asked for, and holds the content the block had when
`cache_acquire` returned or what the thread itself has put there since. -/
def Keeps (s : AcqSys) : Prop :=
  ∀ t p b d, s.hold t p = some (b, d) →
    (s.cache.mem p).blockNo = b ∧ (s.cache.mem p).data = d

/-- A number whose block is not pinned has its content on disk. -/
def Current (s : AcqSys) : Prop :=
  ∀ b, (∀ p ∈ s.cache.head, (s.cache.mem p).blockNo = b → (s.cache.mem p).pinned = false) →
    s.cur b = s.cache.disk b

/-- The thread holds `p`, waits for it, or is about to load it. -/
def Uses (s : AcqSys) (u p : ℕ) : Prop :=
  s.hold u p ≠ none ∨ ∃ b, s.pc u = .hitWait p b ∨ s.pc u = .hitAsleep p b ∨
    s.pc u = .evictWait p b ∨ s.pc u = .evictAsleep p b ∨ s.pc u = .reading p b

end AcqSys

/-- The condition on a step: a block is evicted only while no thread uses it, and a thread
that found a block cached waits on its lock only while no thread that has just taken the
block from another number has yet to do so. -/
def Orderly (s : AcqSys) : ℕ × AcqAct → Prop
  | (_, .acquire b) => ∀ p c, s.cache.acquireLocked b = (.evict p, c) → ∀ u, ¬ s.Uses u p
  | (t, .run) => ∀ p b, s.pc t = .hitWait p b → ∀ u c, s.pc u ≠ .evictWait p c
  | _ => True

/-- No orderly step of another thread changes a held block. -/
def AcqSys.Undisturbed (s : AcqSys) : Prop :=
  ∀ i s', Orderly s i → s.step i = some s' → ∀ t p, t ≠ i.1 → s.hold t p ≠ none →
    (s'.cache.mem p).blockNo = (s.cache.mem p).blockNo ∧
      (s'.cache.mem p).data = (s.cache.mem p).data

end OsLab
