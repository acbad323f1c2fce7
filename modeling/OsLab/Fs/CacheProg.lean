import OsLab.Fs.Bitmap
import OsLab.Fs.Directory
import OsLab.Lib.Prog

/-!
# The calls that inodes make

The functions of `fs/inode.c` that write a file, and `cache_alloc` of `fs/cache.c` below them, as
programs over the block cache: every `cache->acquire`, `cache->sync` and `cache->release` is a
call, and so is a change of the data of a block that is held.  Between two calls other threads
run.  The in-memory inode is the program's own, since the caller holds its lock.

A `ctx` is `true` for the context of an operation and `false` for `NULL`.

Alone, such a program does to the contents of the blocks what the function of `OsLab.Fs.Inode`
does (`alone_inodeWrite`, `alone_inodeInsert`, `alone_inodeRemove`); a block that it acquires
twice without a release stops it.

## Main definitions

* `CacheCall`, `CacheProg` — the calls, and programs that make them.
* `CacheProg.cacheAlloc`, `CacheProg.inodeMap`, `CacheProg.inodeWrite`, … — the functions.
* `CacheCall.alone` — the answers where no other thread runs.
-/

namespace OsLab

/-- A call to the block cache. -/
inductive CacheCall
  | acquire (b : ℕ)
  /-- change the data of a block it holds -/
  | store (b : ℕ) (d : Sector)
  | sync (ctx : Bool) (b : ℕ)
  | release (b : ℕ)

namespace CacheCall

/-- `cache_acquire` answers with the data of the block. -/
abbrev Res : CacheCall → Type
  | acquire _ => Sector
  | store _ _ => Unit
  | sync _ _ => Unit
  | release _ => Unit

/-- The answers where no other thread runs, by the blocks that the program holds and the
contents of all. -/
def alone (s : List ℕ × Disk) : (c : CacheCall) → Option (c.Res × (List ℕ × Disk))
  | acquire b => if b ∈ s.1 then none else some (s.2 b, b :: s.1, s.2)
  | store b d => some ((), s.1, Function.update s.2 b d)
  | sync _ _ => some ((), s)
  | release b => some ((), s.1.erase b, s.2)

end CacheCall

/-- A function that calls the block cache. -/
abbrev CacheProg := Prog CacheCall CacheCall.Res

namespace CacheProg

def acquire (b : ℕ) : CacheProg Sector := Prog.send (CacheCall.acquire b)
def store (b : ℕ) (d : Sector) : CacheProg Unit := Prog.send (CacheCall.store b d)
def sync (ctx : Bool) (b : ℕ) : CacheProg Unit := Prog.send (CacheCall.sync ctx b)
def release (b : ℕ) : CacheProg Unit := Prog.send (CacheCall.release b)

/-! ## The functions -/

/-- `bzero` -/
def bzero (ctx : Bool) (b : ℕ) : CacheProg Unit := do
  let _ ← acquire b
  store b Bytes.zero
  sync ctx b
  release b

/-- The first clear bit of the bitmap block with data `d`, of those for the blocks from `b` on. -/
@[irreducible] def freeBit (sb : SuperBlock) (d : Sector) (b : ℕ) : Option ℕ :=
  (List.range bitPerBlock).find? fun bi => decide (b + bi < sb.numBlocks) && !d.bit bi

theorem freeBit_some {sb : SuperBlock} {d : Sector} {b bi : ℕ} (h : freeBit sb d b = some bi) :
    bi < bitPerBlock ∧ b + bi < sb.numBlocks ∧ d.bit bi = false := by
  unfold freeBit at h
  rw [List.find?_range_eq_some] at h
  simp only [Bool.and_eq_true, decide_eq_true_eq, Bool.not_eq_true', List.mem_range] at h
  exact ⟨h.2.1, h.1⟩

theorem freeBit_eq (sb : SuperBlock) (m : Disk) (b : ℕ) :
    freeBit sb (m (sb.bblock b)) b = sb.scanBlock m b := by
  unfold freeBit SuperBlock.scanBlock
  rfl

/-- The outer loop of `cache_alloc`. -/
def cacheAllocLoop (sb : SuperBlock) (ctx : Bool) : ℕ → ℕ → CacheProg ℕ
  | 0, _ => .fail
  | fuel + 1, b =>
      if b < sb.numBlocks then do
        let d ← acquire (sb.bblock b)
        match freeBit sb d b with
        | some bi => do
            store (sb.bblock b) (d.setBit bi)
            sync ctx (sb.bblock b)
            release (sb.bblock b)
            bzero ctx (b + bi)
            return b + bi
        | none => do
            release (sb.bblock b)
            cacheAllocLoop sb ctx fuel (b + bitPerBlock)
      else .fail

/-- `cache_alloc` -/
def cacheAlloc (sb : SuperBlock) (ctx : Bool) : CacheProg ℕ :=
  cacheAllocLoop sb ctx (sb.numBlocks / bitPerBlock + 1) 0

/-- The part of `inode_map` that finds or allocates the indirect block. -/
def mapIndirect (sb : SuperBlock) (ctx : Bool) (e : InodeEntry) : CacheProg (ℕ × InodeEntry) :=
  if e.indirect = 0 then do
    let b ← cacheAlloc sb ctx
    return (b, { e with indirect := UInt32.ofNat b })
  else return (e.indirect.toNat, e)

/-- The part of `inode_map` that finds or allocates the block of entry `i` of the indirect block
`ind`. -/
def mapTable (sb : SuperBlock) (ctx : Bool) (ind i : ℕ) : CacheProg (ℕ × Bool) := do
  let d ← acquire ind
  if d.word (4 * i) 4 = 0 then do
    let b ← cacheAlloc sb ctx
    store ind (d.setWord (4 * i) 4 b)
    sync ctx ind
    release ind
    return (b, true)
  else do
    release ind
    return (d.word (4 * i) 4, false)

/-- `inode_map`, with `*modified`. -/
def inodeMap (sb : SuperBlock) (ctx : Bool) (e : InodeEntry) (k : ℕ) :
    CacheProg (ℕ × Bool × InodeEntry) :=
  if k < inodeNumDirect then
    if e.addr k = 0 then do
      let b ← cacheAlloc sb ctx
      return (b, true, e.setAddr k b)
    else return (e.addr k, false, e)
  else if k - inodeNumDirect < inodeNumIndirect then do
    let (ind, e) ← mapIndirect sb ctx e
    let (b, modified) ← mapTable sb ctx ind (k - inodeNumDirect)
    return (b, modified, e)
  else .fail

/-- The loop of `inode_read`, which maps with `NULL`. -/
def readLoop (sb : SuperBlock) : ℕ → InodeEntry → ℕ → ℕ → CacheProg (List UInt8 × InodeEntry)
  | 0, e, _, count => if count = 0 then return ([], e) else .fail
  | fuel + 1, e, offset, count =>
      if count = 0 then return ([], e)
      else do
        let (b, _, e) ← inodeMap sb false e (offset / blockSize)
        let d ← acquire b
        let n := min count (blockSize - offset % blockSize)
        release b
        let (rest, e) ← readLoop sb fuel e (offset + n) (count - n)
        return (d.slice (offset % blockSize) n ++ rest, e)

/-- `inode_read` -/
def inodeRead (sb : SuperBlock) (e : InodeEntry) (offset count : ℕ) :
    CacheProg (ℕ × List UInt8 × InodeEntry) :=
  let size := e.numBytes.toNat
  let count := if (count + offset) % 2 ^ 64 > size then (size + 2 ^ 64 - offset) % 2 ^ 64 else count
  let stop := (offset + count) % 2 ^ 64
  if offset ≤ size ∧ stop ≤ size ∧ offset ≤ stop then do
    let (dest, e) ← readLoop sb count e offset count
    return (0, dest, e)
  else .fail

/-- `inode_sync` -/
def inodeSync (sb : SuperBlock) (ctx : Bool) (no : ℕ) (valid : Bool) (e : InodeEntry)
    (doWrite : Bool) : CacheProg (Bool × InodeEntry) := do
  let d ← acquire (sb.toBlockNo no)
  if valid && doWrite then do
    store (sb.toBlockNo no) (d.putEntry (no % inodePerBlock) e)
    sync ctx (sb.toBlockNo no)
    release (sb.toBlockNo no)
    return (valid, e)
  else if !valid then do
    release (sb.toBlockNo no)
    return (true, d.entry (no % inodePerBlock))
  else do
    release (sb.toBlockNo no)
    return (valid, e)

/-- The loop of `inode_write`. -/
def writeLoop (sb : SuperBlock) (ctx : Bool) : ℕ → InodeEntry → ℕ → List UInt8 →
    CacheProg InodeEntry
  | 0, e, _, src => if src = [] then return e else .fail
  | fuel + 1, e, offset, src =>
      if src = [] then return e
      else do
        let (b, _, e) ← inodeMap sb ctx e (offset / blockSize)
        let d ← acquire b
        let n := min src.length (blockSize - offset % blockSize)
        store b (d.splice (offset % blockSize) (src.take n))
        sync ctx b
        release b
        writeLoop sb ctx fuel e (offset + n) (src.drop n)

/-- `inode_write` of `src` on the valid inode `no` with entry `e`. -/
def inodeWrite (sb : SuperBlock) (ctx : Bool) (no : ℕ) (e : InodeEntry) (offset : ℕ)
    (src : List UInt8) : CacheProg (ℕ × InodeEntry) :=
  let stop := (offset + src.length) % 2 ^ 64
  if offset ≤ e.numBytes.toNat ∧ stop ≤ inodeMaxBytes ∧ offset ≤ stop then do
    let e ← writeLoop sb ctx src.length e offset src
    let offset := offset + src.length
    if src.length > 0 ∧ offset > e.numBytes.toNat then do
      let (_, e) ← inodeSync sb ctx no true { e with numBytes := UInt32.ofNat offset } true
      return (src.length, e)
    else return (src.length, e)
  else .fail

/-- The entry that `inode_read(inode, &de, off, sizeof(de))` loads. -/
def readEntry (sb : SuperBlock) (e : InodeEntry) (off : ℕ) : CacheProg (DirEntry × InodeEntry) := do
  let (r, dest, e) ← inodeRead sb e off 16
  if r ≠ 0 then .fail else return (DirEntry.ofBytes dest, e)

/-- The loop of `inode_lookup`. -/
def lookupLoop (sb : SuperBlock) (name : List UInt8) : ℕ → InodeEntry → ℕ →
    CacheProg (Option (ℕ × ℕ) × InodeEntry)
  | 0, _, _ => .fail
  | fuel + 1, e, off =>
      if off < e.numBytes.toNat then do
        let (de, e) ← readEntry sb e off
        if de.inodeNo = 0 then lookupLoop sb name fuel e (off + 16)
        else if strncmp fileNameMaxLength de.name name = 0 then
          return (some (de.inodeNo.toNat, off), e)
        else lookupLoop sb name fuel e (off + 16)
      else return (none, e)

/-- `inode_lookup` -/
def inodeLookup (sb : SuperBlock) (e : InodeEntry) (name : List UInt8) :
    CacheProg (ℕ × Option ℕ × InodeEntry) :=
  if e.type = inodeDirectory then do
    let (r, e) ← lookupLoop sb name (e.numBytes.toNat + 1) e 0
    match r with
    | some (inum, off) => return (inum, some off, e)
    | none => return (0, none, e)
  else .fail

/-- The loop of `inode_insert`. -/
def freeLoop (sb : SuperBlock) : ℕ → InodeEntry → ℕ → CacheProg (ℕ × InodeEntry)
  | 0, _, _ => .fail
  | fuel + 1, e, off =>
      if off < e.numBytes.toNat then do
        let (de, e) ← readEntry sb e off
        if de.inodeNo = 0 then return (off, e) else freeLoop sb fuel e (off + 16)
      else return (off, e)

/-- `inode_insert` -/
def inodeInsert (sb : SuperBlock) (ctx : Bool) (no : ℕ) (e : InodeEntry) (name : List UInt8)
    (inodeNo : ℕ) : CacheProg (ℕ × InodeEntry) :=
  if e.type = inodeDirectory then do
    let (inum, _, e) ← inodeLookup sb e name
    if inum ≠ 0 then return (minusOne, e)
    else do
      let (off, e) ← freeLoop sb (e.numBytes.toNat + 1) e 0
      let (_, e) ← inodeWrite sb ctx no e off (DirEntry.make name inodeNo).bytes
      return (off, e)
  else .fail

/-- `inode_remove` -/
def inodeRemove (sb : SuperBlock) (ctx : Bool) (no : ℕ) (e : InodeEntry) (index : ℕ) :
    CacheProg InodeEntry :=
  if e.type = inodeDirectory then do
    let (_, e) ← inodeWrite sb ctx no e index DirEntry.zero.bytes
    return e
  else .fail

/-! ## The functions alone -/

section Alone

variable {sb : SuperBlock} {ctx : Bool} {H : List ℕ} {m : Disk} {s' : List ℕ × Disk}
  {e : InodeEntry} {b k : ℕ} {α : Type}

theorem exec_acquire (f : Sector → CacheProg α) : ((acquire b).bind f).exec CacheCall.alone (H, m) =
    if b ∈ H then none else (f (m b)).exec CacheCall.alone (b :: H, m) := by
  simp only [acquire, Prog.send_bind, Prog.exec_call, CacheCall.alone]
  split_ifs
  · rfl
  · rfl

@[simp] theorem exec_store (d : Sector) (f : Unit → CacheProg α) :
    ((store b d).bind f).exec CacheCall.alone (H, m) =
      (f ()).exec CacheCall.alone (H, Function.update m b d) := rfl

@[simp] theorem exec_sync (f : Unit → CacheProg α) :
    ((sync ctx b).bind f).exec CacheCall.alone (H, m) = (f ()).exec CacheCall.alone (H, m) := rfl

@[simp] theorem exec_release (f : Unit → CacheProg α) :
    ((release b).bind f).exec CacheCall.alone (H, m) = (f ()).exec CacheCall.alone (H.erase b, m) :=
  rfl

/-- A program that acquires a block goes on only if it does not hold it. -/
theorem of_exec_acquire {f : Sector → CacheProg α} {r : α × (List ℕ × Disk)}
    (h : ((acquire b).bind f).exec CacheCall.alone (H, m) = some r) :
    b ∉ H ∧ (f (m b)).exec CacheCall.alone (b :: H, m) = some r := by
  rw [exec_acquire] at h
  split_ifs at h with hb
  exact ⟨hb, h⟩

theorem exec_bzero {r : Unit × (List ℕ × Disk)}
    (h : (bzero ctx b).exec CacheCall.alone (H, m) = some r) :
    b ∉ H ∧ r.2 = (H, Function.update m b Bytes.zero) := by
  simp only [bzero, Prog.monad_bind_eq] at h
  obtain ⟨hb, h⟩ := of_exec_acquire h
  rw [exec_store, exec_sync] at h
  cases h
  exact ⟨hb, by rw [List.erase_cons_head]⟩

/-- The loop of `cache_alloc` finds what `SuperBlock.scan` finds. -/
theorem exec_cacheAllocLoop (fuel i n : ℕ) (hn : sb.numBlocks ≤ n * bitPerBlock)
    (hi : i * bitPerBlock < sb.numBlocks → i < n)
    (h : (cacheAllocLoop sb ctx fuel (i * bitPerBlock)).exec CacheCall.alone (H, m) =
      some (b, s')) :
    (List.range' i (n - i)).findSome? (fun i =>
      (sb.scanBlock m (i * bitPerBlock)).map (i * bitPerBlock + ·)) = some b ∧
    sb.bblock b ∉ H ∧ b ∉ H ∧
    s' = (H, Function.update (Function.update m (sb.bblock b)
      ((m (sb.bblock b)).setBit (b % bitPerBlock))) b Bytes.zero) := by
  induction fuel generalizing i with
  | zero =>
      rw [cacheAllocLoop, Prog.exec_fail] at h
      cases h
  | succ fuel ih =>
      rw [cacheAllocLoop] at h
      split_ifs at h with hlt
      · have hin := hi hlt
        rw [show n - i = n - (i + 1) + 1 by omega, List.range'_succ, List.findSome?_cons]
        rw [Prog.monad_bind_eq] at h
        obtain ⟨hbit, h⟩ := of_exec_acquire h
        rcases hfree : freeBit sb (m (sb.bblock (i * bitPerBlock))) (i * bitPerBlock) with - | bi
        · rw [hfree] at h
          rw [freeBit_eq] at hfree
          rw [hfree]
          simp only [Prog.monad_bind_eq, exec_release, List.erase_cons_head] at h
          rw [← Nat.succ_mul] at h
          refine ih (i + 1) ?_ h
          intro hlt'
          by_contra hle
          have := Nat.mul_le_mul_right bitPerBlock (Nat.le_of_not_lt hle)
          omega
        · rw [hfree] at h
          obtain ⟨hbi, -, -⟩ := freeBit_some hfree
          rw [freeBit_eq] at hfree
          rw [hfree]
          simp only [Prog.monad_bind_eq, exec_store, exec_sync, exec_release,
            List.erase_cons_head] at h
          rw [Prog.exec_bind, Option.bind_eq_some_iff] at h
          obtain ⟨r, hz, h⟩ := h
          obtain ⟨hb, hr⟩ := exec_bzero hz
          cases h
          have hblock : sb.bblock (i * bitPerBlock + bi) = sb.bblock (i * bitPerBlock) := by
            rw [SuperBlock.bblock, SuperBlock.bblock, bitPerBlock_eq] at *
            omega
          have hmod : (i * bitPerBlock + bi) % bitPerBlock = bi := by
            rw [bitPerBlock_eq] at *
            omega
          rw [hblock, hmod]
          exact ⟨rfl, hbit, hb, hr⟩
      · cases h

theorem exec_cacheAlloc (h : (cacheAlloc sb ctx).exec CacheCall.alone (H, m) = some (b, s')) :
    s'.1 = H ∧ OsLab.cacheAlloc sb m = some (b, s'.2) ∧ ∀ x ∈ H, s'.2 x = m x := by
  rw [cacheAlloc, ← Nat.zero_mul bitPerBlock] at h
  obtain ⟨hscan, hbit, hb, rfl⟩ := exec_cacheAllocLoop _ 0
    ((sb.numBlocks + (bitPerBlock - 1)) / bitPerBlock) (by rw [bitPerBlock_eq]; omega)
    (by rw [bitPerBlock_eq]; omega) h
  rw [Nat.sub_zero, ← List.range_eq_range'] at hscan
  refine ⟨rfl, ?_, ?_⟩
  · have hscan' : sb.scan m = some b := hscan
    simp only [OsLab.cacheAlloc, hscan', Option.bind_eq_bind, Option.bind_some]
  · intro x hx
    have hxb : x ≠ b := fun hxb => hb (hxb ▸ hx)
    have hxbit : x ≠ sb.bblock b := fun hxb => hbit (hxb ▸ hx)
    simp only [Function.update_of_ne hxb, Function.update_of_ne hxbit]

theorem exec_mapIndirect {r : ℕ × InodeEntry}
    (h : (mapIndirect sb ctx e).exec CacheCall.alone (H, m) = some (r, s')) :
    s'.1 = H ∧ OsLab.mapIndirect (bcacheAlloc sb) m e = some (r.1, r.2, s'.2) := by
  rw [mapIndirect] at h
  rw [OsLab.mapIndirect]
  split_ifs at h ⊢ with h0
  · rw [Prog.monad_bind_eq, Prog.exec_bind, Option.bind_eq_some_iff] at h
    obtain ⟨⟨b, t⟩, halloc, h⟩ := h
    obtain ⟨hH, ha, -⟩ := exec_cacheAlloc halloc
    cases h
    exact ⟨hH, by simp only [bcacheAlloc, ha, Option.bind_eq_bind, Option.bind_some]⟩
  · cases h
    exact ⟨rfl, rfl⟩

/-- The indirect block is held while `cache_alloc` runs, and so it stays as it was read. -/
theorem exec_mapTable {ind i : ℕ} {r : ℕ × Bool}
    (h : (mapTable sb ctx ind i).exec CacheCall.alone (H, m) = some (r, s')) :
    s'.1 = H ∧
    (if indirectAddr m ind i = 0 then do
      let (b, m) ← (bcacheAlloc sb).alloc m
      some (b, true, e, Function.update m ind ((m ind).setWord (4 * i) 4 b))
    else some (indirectAddr m ind i, false, e, m)) = some (r.1, r.2, e, s'.2) := by
  rw [mapTable, Prog.monad_bind_eq] at h
  obtain ⟨-, h⟩ := of_exec_acquire h
  have hword : indirectAddr m ind i = (m ind).word (4 * i) 4 := by rw [indirectAddr]
  by_cases h0 : (m ind).word (4 * i) 4 = 0
  · rw [if_pos h0, Prog.monad_bind_eq, Prog.exec_bind, Option.bind_eq_some_iff] at h
    rw [if_pos (hword.trans h0)]
    obtain ⟨⟨b, t⟩, halloc, h⟩ := h
    obtain ⟨hH, ha, hkeep⟩ := exec_cacheAlloc halloc
    obtain ⟨H', m'⟩ := t
    obtain rfl : H' = ind :: H := hH
    have hind : m' ind = m ind := hkeep ind List.mem_cons_self
    simp only [Prog.monad_bind_eq, exec_store, exec_sync, exec_release, List.erase_cons_head] at h
    cases h
    refine ⟨rfl, ?_⟩
    simp only [bcacheAlloc, ha, Option.bind_eq_bind, Option.bind_some, hind]
  · rw [if_neg h0] at h
    rw [if_neg (hword ▸ h0), hword]
    simp only [Prog.monad_bind_eq, exec_release, List.erase_cons_head] at h
    cases h
    exact ⟨rfl, rfl⟩

theorem exec_inodeMap {r : ℕ × Bool × InodeEntry}
    (h : (inodeMap sb ctx e k).exec CacheCall.alone (H, m) = some (r, s')) :
    s'.1 = H ∧ OsLab.inodeMap (bcacheAlloc sb) m e k = some (r.1, r.2.1, r.2.2, s'.2) := by
  rw [inodeMap] at h
  rw [OsLab.inodeMap]
  split_ifs at h ⊢ with hk h0 hk'
  · rw [Prog.monad_bind_eq, Prog.exec_bind, Option.bind_eq_some_iff] at h
    obtain ⟨⟨b, t⟩, halloc, h⟩ := h
    obtain ⟨hH, ha, -⟩ := exec_cacheAlloc halloc
    cases h
    exact ⟨hH, by simp only [bcacheAlloc, ha, Option.bind_eq_bind, Option.bind_some]⟩
  · cases h
    exact ⟨rfl, rfl⟩
  · rw [Prog.monad_bind_eq, Prog.exec_bind, Option.bind_eq_some_iff] at h
    obtain ⟨⟨⟨ind, e₁⟩, H₁, m₁⟩, hind, h⟩ := h
    obtain ⟨hH₁, hfun⟩ := exec_mapIndirect hind
    dsimp only at h hfun hH₁
    rw [Prog.monad_bind_eq, Prog.exec_bind, Option.bind_eq_some_iff] at h
    obtain ⟨⟨⟨b, modified⟩, H₂, m₂⟩, htable, h⟩ := h
    obtain ⟨hH₂, htab⟩ := exec_mapTable (e := e₁) htable
    cases h
    exact ⟨hH₂.trans hH₁, Option.bind_eq_some_iff.mpr ⟨_, hfun, htab⟩⟩
  · cases h

/-! ### Files -/

theorem exec_readLoop {fuel offset count : ℕ} {r : List UInt8 × InodeEntry}
    (h : (readLoop sb fuel e offset count).exec CacheCall.alone (H, m) = some (r, s')) :
    s'.1 = H ∧ OsLab.readLoop (bcacheAlloc sb) fuel m e offset count = some (r.1, r.2, s'.2) := by
  induction fuel generalizing e H m offset count r s' with
  | zero =>
      rw [readLoop] at h
      rw [OsLab.readLoop]
      split_ifs at h ⊢
      · cases h
        exact ⟨rfl, rfl⟩
      · cases h
  | succ fuel ih =>
      rw [readLoop] at h
      rw [OsLab.readLoop]
      split_ifs at h ⊢
      · cases h
        exact ⟨rfl, rfl⟩
      · rw [Prog.monad_bind_eq, Prog.exec_bind, Option.bind_eq_some_iff] at h
        obtain ⟨⟨⟨b, modified, e₁⟩, H₁, m₁⟩, hmap, h⟩ := h
        obtain ⟨hH₁, hfun⟩ := exec_inodeMap hmap
        obtain ⟨-, h⟩ := of_exec_acquire h
        simp only [Prog.monad_bind_eq, exec_release, List.erase_cons_head] at h
        rw [Prog.exec_bind, Option.bind_eq_some_iff] at h
        obtain ⟨⟨⟨rest, e₂⟩, H₂, m₂⟩, hrest, h⟩ := h
        obtain ⟨hH₂, hloop⟩ := ih hrest
        cases h
        refine ⟨hH₂.trans hH₁, ?_⟩
        simp only [hfun, hloop, Option.bind_eq_bind, Option.bind_some]

theorem exec_inodeRead {offset count : ℕ} {r : ℕ × List UInt8 × InodeEntry}
    (h : (inodeRead sb e offset count).exec CacheCall.alone (H, m) = some (r, s')) :
    s'.1 = H ∧
      OsLab.inodeRead (bcacheAlloc sb) m e offset count = some (r.1, r.2.1, r.2.2, s'.2) := by
  simp only [inodeRead] at h
  simp only [OsLab.inodeRead]
  split_ifs at h ⊢
  all_goals try cases h
  all_goals
    rw [Prog.monad_bind_eq, Prog.exec_bind, Option.bind_eq_some_iff] at h
    obtain ⟨⟨⟨dest, e₁⟩, H₁, m₁⟩, hloop, h⟩ := h
    obtain ⟨hH₁, hfun⟩ := exec_readLoop hloop
    cases h
    refine ⟨hH₁, ?_⟩
    simp only [hfun, Option.bind_eq_bind, Option.bind_some]

theorem exec_inodeSync {no : ℕ} {valid doWrite : Bool} {r : Bool × InodeEntry}
    (h : (inodeSync sb ctx no valid e doWrite).exec CacheCall.alone (H, m) = some (r, s')) :
    s'.1 = H ∧ OsLab.inodeSync sb m no valid e doWrite = (r.1, r.2, s'.2) := by
  rw [inodeSync, Prog.monad_bind_eq] at h
  obtain ⟨-, h⟩ := of_exec_acquire h
  rw [OsLab.inodeSync]
  split_ifs at h ⊢
  all_goals
    simp only [Prog.monad_bind_eq, exec_store, exec_sync, exec_release, List.erase_cons_head] at h
    cases h
    exact ⟨rfl, rfl⟩

theorem exec_writeLoop {fuel offset : ℕ} {src : List UInt8} {e' : InodeEntry}
    (h : (writeLoop sb ctx fuel e offset src).exec CacheCall.alone (H, m) = some (e', s')) :
    s'.1 = H ∧ OsLab.writeLoop (bcacheAlloc sb) fuel m e offset src = some (e', s'.2) := by
  induction fuel generalizing e H m offset src s' with
  | zero =>
      rw [writeLoop] at h
      rw [OsLab.writeLoop]
      split_ifs at h ⊢
      · cases h
        exact ⟨rfl, rfl⟩
      · cases h
  | succ fuel ih =>
      rw [writeLoop] at h
      rw [OsLab.writeLoop]
      split_ifs at h ⊢
      · cases h
        exact ⟨rfl, rfl⟩
      · rw [Prog.monad_bind_eq, Prog.exec_bind, Option.bind_eq_some_iff] at h
        obtain ⟨⟨⟨b, modified, e₁⟩, H₁, m₁⟩, hmap, h⟩ := h
        obtain ⟨hH₁, hfun⟩ := exec_inodeMap hmap
        obtain ⟨-, h⟩ := of_exec_acquire h
        simp only [Prog.monad_bind_eq, exec_store, exec_sync, exec_release,
          List.erase_cons_head] at h
        obtain ⟨hH₂, hloop⟩ := ih h
        refine ⟨hH₂.trans hH₁, ?_⟩
        simp only [hfun, Option.bind_eq_bind, Option.bind_some]
        exact hloop

/-- **`inode_write` alone** writes what the function of `OsLab.Fs.Inode` writes. -/
theorem alone_inodeWrite {no offset : ℕ} {src : List UInt8} {r : ℕ × InodeEntry}
    (h : (inodeWrite sb ctx no e offset src).exec CacheCall.alone (H, m) = some (r, s')) :
    s'.1 = H ∧
      OsLab.inodeWrite (bcacheAlloc sb) sb m no e offset src = some (r.1, r.2, s'.2) := by
  simp only [inodeWrite] at h
  simp only [OsLab.inodeWrite]
  split_ifs at h ⊢ with hok
  · rw [Prog.monad_bind_eq, Prog.exec_bind, Option.bind_eq_some_iff] at h
    obtain ⟨⟨e₁, H₁, m₁⟩, hloop, h⟩ := h
    obtain ⟨hH₁, hfun⟩ := exec_writeLoop hloop
    simp only [hfun, Option.bind_eq_bind, Option.bind_some]
    split_ifs at h ⊢ with hgrow
    · rw [Prog.monad_bind_eq, Prog.exec_bind, Option.bind_eq_some_iff] at h
      obtain ⟨⟨⟨valid, e₂⟩, H₂, m₂⟩, hsync, h⟩ := h
      obtain ⟨hH₂, hput⟩ := exec_inodeSync hsync
      cases h
      cases hput
      exact ⟨hH₂.trans hH₁, rfl⟩
    · cases h
      exact ⟨hH₁, rfl⟩
  · cases h

/-! ### Directories -/

theorem exec_readEntry {off : ℕ} {r : DirEntry × InodeEntry}
    (h : (readEntry sb e off).exec CacheCall.alone (H, m) = some (r, s')) :
    s'.1 = H ∧ OsLab.readEntry (bcacheAlloc sb) m e off = some (r.1, r.2, s'.2) := by
  rw [readEntry, Prog.monad_bind_eq, Prog.exec_bind, Option.bind_eq_some_iff] at h
  obtain ⟨⟨⟨n, dest, e₁⟩, H₁, m₁⟩, hread, h⟩ := h
  obtain ⟨hH₁, hfun⟩ := exec_inodeRead hread
  simp only [OsLab.readEntry, hfun, Option.bind_eq_bind, Option.bind_some]
  dsimp only at h
  split_ifs at h ⊢
  · cases h
  · cases h
    exact ⟨hH₁, rfl⟩

theorem exec_lookupLoop {name : List UInt8} {fuel off : ℕ} {r : Option (ℕ × ℕ) × InodeEntry}
    (h : (lookupLoop sb name fuel e off).exec CacheCall.alone (H, m) = some (r, s')) :
    s'.1 = H ∧ OsLab.lookupLoop (bcacheAlloc sb) name fuel m e off = some (r.1, r.2, s'.2) := by
  induction fuel generalizing e H m off s' with
  | zero => cases h
  | succ fuel ih =>
      rw [lookupLoop] at h
      rw [OsLab.lookupLoop]
      split_ifs at h ⊢ with hoff
      · rw [Prog.monad_bind_eq, Prog.exec_bind, Option.bind_eq_some_iff] at h
        obtain ⟨⟨⟨de, e₁⟩, H₁, m₁⟩, hread, h⟩ := h
        obtain ⟨hH₁, hfun⟩ := exec_readEntry hread
        simp only [hfun, Option.bind_eq_bind, Option.bind_some]
        dsimp only at h
        split_ifs at h ⊢
        · obtain ⟨hH₂, hloop⟩ := ih h
          exact ⟨hH₂.trans hH₁, hloop⟩
        · cases h
          exact ⟨hH₁, rfl⟩
        · obtain ⟨hH₂, hloop⟩ := ih h
          exact ⟨hH₂.trans hH₁, hloop⟩
      · cases h
        exact ⟨rfl, rfl⟩

theorem exec_inodeLookup {name : List UInt8} {r : ℕ × Option ℕ × InodeEntry}
    (h : (inodeLookup sb e name).exec CacheCall.alone (H, m) = some (r, s')) :
    s'.1 = H ∧ OsLab.inodeLookup (bcacheAlloc sb) m e name = some (r.1, r.2.1, r.2.2, s'.2) := by
  rw [inodeLookup] at h
  rw [OsLab.inodeLookup]
  split_ifs at h ⊢
  · rw [Prog.monad_bind_eq, Prog.exec_bind, Option.bind_eq_some_iff] at h
    obtain ⟨⟨⟨found, e₁⟩, H₁, m₁⟩, hloop, h⟩ := h
    obtain ⟨hH₁, hfun⟩ := exec_lookupLoop hloop
    simp only [hfun, Option.bind_eq_bind, Option.bind_some]
    cases found with
    | none =>
        cases h
        exact ⟨hH₁, rfl⟩
    | some found =>
        cases h
        exact ⟨hH₁, rfl⟩
  · cases h

theorem exec_freeLoop {fuel off : ℕ} {r : ℕ × InodeEntry}
    (h : (freeLoop sb fuel e off).exec CacheCall.alone (H, m) = some (r, s')) :
    s'.1 = H ∧ OsLab.freeLoop (bcacheAlloc sb) fuel m e off = some (r.1, r.2, s'.2) := by
  induction fuel generalizing e H m off s' with
  | zero => cases h
  | succ fuel ih =>
      rw [freeLoop] at h
      rw [OsLab.freeLoop]
      split_ifs at h ⊢ with hoff
      · rw [Prog.monad_bind_eq, Prog.exec_bind, Option.bind_eq_some_iff] at h
        obtain ⟨⟨⟨de, e₁⟩, H₁, m₁⟩, hread, h⟩ := h
        obtain ⟨hH₁, hfun⟩ := exec_readEntry hread
        simp only [hfun, Option.bind_eq_bind, Option.bind_some]
        dsimp only at h
        split_ifs at h ⊢
        · cases h
          exact ⟨hH₁, rfl⟩
        · obtain ⟨hH₂, hloop⟩ := ih h
          exact ⟨hH₂.trans hH₁, hloop⟩
      · cases h
        exact ⟨rfl, rfl⟩

/-- **`inode_insert` alone.** -/
theorem alone_inodeInsert {no inodeNo : ℕ} {name : List UInt8} {r : ℕ × InodeEntry}
    (h : (inodeInsert sb ctx no e name inodeNo).exec CacheCall.alone (H, m) = some (r, s')) :
    s'.1 = H ∧
      OsLab.inodeInsert (bcacheAlloc sb) sb m no e name inodeNo = some (r.1, r.2, s'.2) := by
  rw [inodeInsert] at h
  rw [OsLab.inodeInsert]
  split_ifs at h ⊢
  · rw [Prog.monad_bind_eq, Prog.exec_bind, Option.bind_eq_some_iff] at h
    obtain ⟨⟨⟨inum, index, e₁⟩, H₁, m₁⟩, hlook, h⟩ := h
    obtain ⟨hH₁, hfun⟩ := exec_inodeLookup hlook
    simp only [hfun, Option.bind_eq_bind, Option.bind_some]
    dsimp only at h
    split_ifs at h ⊢
    · cases h
      exact ⟨hH₁, rfl⟩
    · simp only [Prog.monad_bind_eq, Prog.exec_bind, Option.bind_eq_some_iff] at h
      obtain ⟨⟨⟨off, e₂⟩, H₂, m₂⟩, hfree, ⟨⟨n, e₃⟩, H₃, m₃⟩, hwrite, h⟩ := h
      obtain ⟨hH₂, hloop⟩ := exec_freeLoop hfree
      obtain ⟨hH₃, hput⟩ := alone_inodeWrite hwrite
      cases h
      refine ⟨hH₃.trans (hH₂.trans hH₁), ?_⟩
      simp only [hloop, hput, Option.bind_some]
  · cases h

/-- **`inode_remove` alone.** -/
theorem alone_inodeRemove {no index : ℕ} {e' : InodeEntry}
    (h : (inodeRemove sb ctx no e index).exec CacheCall.alone (H, m) = some (e', s')) :
    s'.1 = H ∧ OsLab.inodeRemove (bcacheAlloc sb) sb m no e index = some (e', s'.2) := by
  rw [inodeRemove] at h
  rw [OsLab.inodeRemove]
  split_ifs at h ⊢
  · rw [Prog.monad_bind_eq, Prog.exec_bind, Option.bind_eq_some_iff] at h
    obtain ⟨⟨⟨n, e₁⟩, H₁, m₁⟩, hwrite, h⟩ := h
    obtain ⟨hH₁, hput⟩ := alone_inodeWrite hwrite
    cases h
    exact ⟨hH₁, by simp only [hput, Option.bind_eq_bind, Option.bind_some]⟩
  · cases h

end Alone

end CacheProg

end OsLab
