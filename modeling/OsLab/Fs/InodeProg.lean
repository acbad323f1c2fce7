import OsLab.Fs.CacheProg
import OsLab.Fs.InodeAlloc

/-!
# The calls of the inode tree as programs

The functions of `InodeTree` in `fs/inode.c` that `OsLab.Fs.CacheProg` leaves out, and
`cache_free` below them, as programs over the block cache.  A call of the tree is then one
program: it reads and writes the in-memory inodes, which are the caller's own, and returns
what the C function returns.

Alone, such a program does what `InodeTree.step` does (`alone_inodeCall`).

## Main definitions

* `CacheProg.cacheFree`, `CacheProg.inodeClear`, `CacheProg.inodeAlloc`, … — the functions.
* `Inodes`, `InodeRes`, `InodeTree.result` — the in-memory inodes, and what a call returns.
* `CacheProg.inodeCall` — one call.
-/

namespace OsLab

/-- The in-memory inodes of an `InodeTree`. -/
structure Inodes where
  head : List Inode
  next : ℕ

/-- What a call returns. -/
inductive InodeRes
  | done
  | value (n : ℕ)
  /-- the value of `inode_read` and what it stores at `dest` -/
  | bytes (n : ℕ) (dest : List UInt8)
  /-- the value of `inode_lookup` and what it stores in `*index` -/
  | found (no : ℕ) (index : Option ℕ)
  deriving DecidableEq

namespace Inodes

/-- The tree with these inodes over a disk. -/
def tree (s : Inodes) (m : Disk) : InodeTree := ⟨m, s.head, s.next⟩

def find (s : Inodes) (id : ℕ) : Option Inode := s.head.find? fun ip => ip.id = id ∧ 0 < ip.rc

def modify (s : Inodes) (id : ℕ) (f : Inode → Inode) : Inodes :=
  { s with head := s.head.map fun ip => if ip.id = id then f ip else ip }

def setEntry (s : Inodes) (id : ℕ) (e : InodeEntry) : Inodes :=
  s.modify id fun ip => { ip with entry := e }

end Inodes

namespace InodeTree

/-- The address that `inode_get(no)` returns. -/
def addrOf (s : InodeTree) (no : ℕ) : ℕ :=
  match s.head.find? fun ip => ip.inodeNo = no ∧ 0 < ip.rc with
  | some ip => ip.id
  | none =>
      match s.head.find? fun ip => ip.rc = 0 with
      | some ip => ip.id
      | none => s.next

/-- What a call returns on a tree over a plain disk. -/
def result (c : BlockAlloc) (sb : SuperBlock) (s : InodeTree) : InodeCall → Option InodeRes
  | .alloc type => (inodeAlloc sb s.disk type).map fun r => .value r.1
  | .get no => some (.value (s.addrOf no))
  | .read id offset count => do
      let ip ← s.find id
      let (r, dest, _) ← inodeRead c s.disk ip.entry offset count
      some (.bytes r dest)
  | .write id offset src => do
      let ip ← s.find id
      let (r, _) ← inodeWrite c sb s.disk ip.inodeNo ip.entry offset src
      some (.value r)
  | .lookup id name => do
      let ip ← s.find id
      let (no, index, _) ← inodeLookup c s.disk ip.entry name
      some (.found no index)
  | .insert id name inodeNo => do
      let ip ← s.find id
      let (r, _) ← inodeInsert c sb s.disk ip.inodeNo ip.entry name inodeNo
      some (.value r)
  | _ => some .done

end InodeTree

namespace CacheProg

/-! ## The functions -/

/-- `cache_free` -/
def cacheFree (sb : SuperBlock) (ctx : Bool) (b : ℕ) : CacheProg Unit := do
  let d ← acquire (sb.bblock b)
  if d.bit (b % bitPerBlock) then do
    store (sb.bblock b) (d.clearBit (b % bitPerBlock))
    sync ctx (sb.bblock b)
    release (sb.bblock b)
  else .fail

/-- Free the addresses that are not zero, in order. -/
def freeAll (sb : SuperBlock) (ctx : Bool) : List ℕ → CacheProg Unit
  | [] => return ()
  | b :: bs =>
      if b = 0 then freeAll sb ctx bs
      else do
        cacheFree sb ctx b
        freeAll sb ctx bs

/-- The part of `inode_clear` that frees the indirect block, which is held while the blocks it
lists are freed. -/
def clearIndirect (sb : SuperBlock) (ctx : Bool) (ind : ℕ) : CacheProg Unit := do
  let d ← acquire ind
  freeAll sb ctx ((List.range inodeNumIndirect).map fun i => d.word (4 * i) 4)
  release ind
  cacheFree sb ctx ind

/-- The part of `inode_clear` that frees the blocks. -/
def clearBlocks (sb : SuperBlock) (ctx : Bool) (e : InodeEntry) : CacheProg Unit := do
  freeAll sb ctx ((List.range inodeNumDirect).map e.addr)
  if e.indirect = 0 then return () else clearIndirect sb ctx e.indirect.toNat

/-- `inode_clear` -/
def inodeClear (sb : SuperBlock) (ctx : Bool) (no : ℕ) (e : InodeEntry) :
    CacheProg InodeEntry := do
  clearBlocks sb ctx e
  let e := { e with addrs := fun _ => 0, indirect := 0, numBytes := 0 }
  let (_, e) ← inodeSync sb ctx no true e true
  return e

/-- The loop of `inode_alloc`. -/
def inodeAllocLoop (sb : SuperBlock) (ctx : Bool) (type : UInt16) : ℕ → ℕ → CacheProg ℕ
  | 0, _ => .fail
  | fuel + 1, no =>
      if no ≤ sb.numInodes then do
        let d ← acquire (sb.toBlockNo no)
        if (d.entry (no % inodePerBlock)).type = inodeInvalid then do
          store (sb.toBlockNo no)
            (d.putEntry (no % inodePerBlock) { InodeEntry.zero with type := type })
          sync ctx (sb.toBlockNo no)
          release (sb.toBlockNo no)
          return no
        else do
          release (sb.toBlockNo no)
          inodeAllocLoop sb ctx type fuel (no + 1)
      else .fail

/-- `inode_alloc` -/
def inodeAlloc (sb : SuperBlock) (ctx : Bool) (type : UInt16) : CacheProg ℕ :=
  if type = inodeInvalid then .fail else inodeAllocLoop sb ctx type sb.numInodes 1

/-- The inode `ip`, new or unused, that `inode_get` has taken for `no`. -/
def loaded (no : ℕ) (valid : Bool) (e : InodeEntry) (ip : Inode) : Inode :=
  { ip with inodeNo := no, rc := ip.rc + 1, valid := valid, entry := e }

/-- `inode_get` -/
def inodeGet (sb : SuperBlock) (s : Inodes) (no : ℕ) : CacheProg (ℕ × Inodes) :=
  if 0 < no ∧ no < sb.numInodes then
    match s.head.find? fun ip => ip.inodeNo = no ∧ 0 < ip.rc with
    | some ip => return (ip.id, s.modify ip.id fun ip => { ip with rc := ip.rc + 1 })
    | none =>
        match s.head.find? fun ip => ip.rc = 0 with
        | some ip => do
            let (valid, e) ← inodeSync sb false no false ip.entry false
            return (ip.id, s.modify ip.id (loaded no valid e))
        | none => do
            let ip := ⟨s.next, 0, 0, false, InodeEntry.zero⟩
            let (valid, e) ← inodeSync sb false no false ip.entry false
            return (ip.id, ⟨loaded no valid e ip :: s.head, s.next + 1⟩)
  else .fail

/-- `inode_put` -/
def inodePut (sb : SuperBlock) (ctx : Bool) (s : Inodes) (ip : Inode) : CacheProg Inodes :=
  if !ip.valid then .fail
  else if ip.rc = 1 ∧ ip.entry.numLinks = 0 then do
    let e ← inodeClear sb ctx ip.inodeNo ip.entry
    let _ ← inodeSync sb ctx ip.inodeNo ip.valid { e with type := inodeInvalid } true
    return { s with head := s.head.filter fun jp => jp.id ≠ ip.id }
  else return s.modify ip.id fun ip => { ip with rc := ip.rc - 1 }

/-- The inode at an address that the caller has a reference to. -/
def referenced {α : Type} (s : Inodes) (id : ℕ) (f : Inode → CacheProg α) : CacheProg α :=
  match s.find id with
  | some ip => f ip
  | none => .fail

/-- One call. -/
def inodeCall (sb : SuperBlock) (ctx : Bool) (s : Inodes) : InodeCall → CacheProg (InodeRes × Inodes)
  | .alloc type => do
      let no ← inodeAlloc sb ctx type
      return (.value no, s)
  | .get no => do
      let (id, s) ← inodeGet sb s no
      return (.value id, s)
  | .share id => referenced s id fun ip =>
      return (.done, s.modify ip.id fun ip => { ip with rc := ip.rc + 1 })
  | .put id => referenced s id fun ip => do
      let s ← inodePut sb ctx s ip
      return (.done, s)
  | .clear id => referenced s id fun ip => do
      let e ← inodeClear sb ctx ip.inodeNo ip.entry
      return (.done, s.setEntry id e)
  | .read id offset count => referenced s id fun ip => do
      let (r, dest, e) ← inodeRead sb ip.entry offset count
      return (.bytes r dest, s.setEntry id e)
  | .write id offset src => referenced s id fun ip => do
      let (r, e) ← inodeWrite sb ctx ip.inodeNo ip.entry offset src
      return (.value r, s.setEntry id e)
  | .lookup id name => referenced s id fun ip => do
      let (no, index, e) ← inodeLookup sb ip.entry name
      return (.found no index, s.setEntry id e)
  | .insert id name inodeNo => referenced s id fun ip => do
      let (r, e) ← inodeInsert sb ctx ip.inodeNo ip.entry name inodeNo
      return (.value r, s.setEntry id e)
  | .remove id index => referenced s id fun ip => do
      let e ← inodeRemove sb ctx ip.inodeNo ip.entry index
      return (.done, s.setEntry id e)
  | .setLinks id n => referenced s id fun ip => do
      let (_, e) ← inodeSync sb ctx ip.inodeNo ip.valid { ip.entry with numLinks := n } true
      return (.done, s.setEntry id e)

/-! ## The functions alone -/

section Alone

variable {sb : SuperBlock} {ctx : Bool} {H : List ℕ} {m : Disk} {s' : List ℕ × Disk}
  {e : InodeEntry} {b no : ℕ} {t t' : Inodes}

theorem exec_cacheFree (h : (cacheFree sb ctx b).exec CacheCall.alone (H, m) = some ((), s')) :
    s'.1 = H ∧ OsLab.cacheFree sb m b = some s'.2 ∧ ∀ x ∈ H, s'.2 x = m x := by
  rw [cacheFree, Prog.monad_bind_eq] at h
  obtain ⟨hbit, h⟩ := of_exec_acquire h
  rw [OsLab.cacheFree, SuperBlock.used]
  split_ifs at h ⊢ with hused
  · simp only [Prog.monad_bind_eq, exec_store, exec_sync] at h
    cases h
    refine ⟨List.erase_cons_head .., rfl, ?_⟩
    intro x hx
    refine Function.update_of_ne ?_ ..
    intro hxb
    rw [hxb] at hx
    exact hbit hx
  · cases h

theorem exec_freeAll {l : List ℕ}
    (h : (freeAll sb ctx l).exec CacheCall.alone (H, m) = some ((), s')) :
    s'.1 = H ∧ OsLab.freeAll (bcacheAlloc sb) m l = some s'.2 := by
  induction l generalizing m with
  | nil =>
      cases h
      exact ⟨rfl, rfl⟩
  | cons b l ih =>
      rw [freeAll] at h
      rw [OsLab.freeAll]
      split_ifs at h ⊢
      · exact ih h
      · rw [Prog.monad_bind_eq, Prog.exec_bind, Option.bind_eq_some_iff] at h
        obtain ⟨⟨u, H₁, m₁⟩, hfree, h⟩ := h
        obtain ⟨hH₁, hfun, -⟩ := exec_cacheFree hfree
        obtain rfl : H₁ = H := hH₁
        obtain ⟨hH₂, hrest⟩ := ih h
        exact ⟨hH₂, Option.bind_eq_some_iff.mpr ⟨m₁, hfun, hrest⟩⟩

theorem exec_clearIndirect
    (h : (clearIndirect sb ctx b).exec CacheCall.alone (H, m) = some ((), s')) :
    s'.1 = H ∧ (do
      let m ← OsLab.freeAll (bcacheAlloc sb) m ((List.range inodeNumIndirect).map (indirectAddr m b))
      (bcacheAlloc sb).free m b) = some s'.2 := by
  rw [clearIndirect, Prog.monad_bind_eq] at h
  obtain ⟨-, h⟩ := of_exec_acquire h
  rw [Prog.monad_bind_eq, Prog.exec_bind, Option.bind_eq_some_iff] at h
  obtain ⟨⟨u, H₁, m₁⟩, hall, h⟩ := h
  obtain ⟨hH₁, hfun⟩ := exec_freeAll hall
  obtain rfl : H₁ = b :: H := hH₁
  rw [Prog.monad_bind_eq, exec_release, List.erase_cons_head] at h
  obtain ⟨hH₂, hfree, -⟩ := exec_cacheFree h
  exact ⟨hH₂, Option.bind_eq_some_iff.mpr ⟨m₁, hfun, hfree⟩⟩

/-- **`inode_clear` alone.** -/
theorem alone_inodeClear {e' : InodeEntry}
    (h : (inodeClear sb ctx no e).exec CacheCall.alone (H, m) = some (e', s')) :
    s'.1 = H ∧ OsLab.inodeClear (bcacheAlloc sb) sb m no e = some (e', s'.2) := by
  simp only [inodeClear, clearBlocks, Prog.monad_bind_eq, Prog.exec_bind,
    Option.bind_eq_some_iff] at h
  obtain ⟨⟨u, H₂, m₂⟩, ⟨⟨v, H₁, m₁⟩, hdirect, hind⟩, ⟨⟨valid, e₃⟩, H₃, m₃⟩, hsync, h⟩ := h
  obtain ⟨hH₁, hfree⟩ := exec_freeAll hdirect
  obtain rfl : H₁ = H := hH₁
  obtain ⟨hH₃, hput⟩ := exec_inodeSync hsync
  cases h
  cases hput
  rw [OsLab.inodeClear, hfree, Option.bind_eq_bind, Option.bind_some]
  dsimp only at hind ⊢
  split_ifs at hind ⊢
  · cases hind
    exact ⟨hH₃, rfl⟩
  · obtain ⟨hH₂, hrest⟩ := exec_clearIndirect hind
    obtain ⟨m', hall, hlast⟩ := Option.bind_eq_some_iff.mp hrest
    refine ⟨hH₃.trans hH₂, ?_⟩
    rw [hall, Option.bind_some, hlast]
    rfl

theorem exec_inodeAllocLoop {type : UInt16} {fuel n : ℕ}
    (h : (inodeAllocLoop sb ctx type fuel no).exec CacheCall.alone (H, m) = some (n, s')) :
    s'.1 = H ∧ OsLab.inodeAllocLoop sb type fuel no m = (some n, s'.2) := by
  induction fuel generalizing no m with
  | zero => cases h
  | succ fuel ih =>
      rw [inodeAllocLoop] at h
      rw [OsLab.inodeAllocLoop]
      by_cases hle : no ≤ sb.numInodes
      · rw [if_pos hle, Prog.monad_bind_eq] at h
        obtain ⟨-, h⟩ := of_exec_acquire h
        rw [if_pos hle]
        unfold SuperBlock.diskEntry
        split_ifs at h ⊢ with hfree
        · simp only [Prog.monad_bind_eq, exec_store, exec_sync] at h
          cases h
          exact ⟨List.erase_cons_head .., rfl⟩
        · rw [Prog.monad_bind_eq, exec_release, List.erase_cons_head] at h
          exact ih h
      · rw [if_neg hle] at h
        cases h

/-- **`inode_alloc` alone.** -/
theorem alone_inodeAlloc {type : UInt16} {n : ℕ}
    (h : (inodeAlloc sb ctx type).exec CacheCall.alone (H, m) = some (n, s')) :
    s'.1 = H ∧ OsLab.inodeAlloc sb m type = some (n, s'.2) := by
  rw [inodeAlloc] at h
  split_ifs at h with htype
  · cases h
  · obtain ⟨hH, hloop⟩ := exec_inodeAllocLoop h
    refine ⟨hH, ?_⟩
    rw [inodeAlloc_eq_run, inodeAllocRun, if_neg htype, hloop]
    rfl

/-! ### The tree -/

@[simp] theorem tree_find (id : ℕ) : (t.tree m).find id = t.find id := rfl

/-- The end of a program, which only computes. -/
theorem exec_bind_ret {α β : Type} {p : CacheProg β} {f : β → α} {r : α × (List ℕ × Disk)}
    {s : List ℕ × Disk} (h : (p.bind fun a => .ret (f a)).exec CacheCall.alone s = some r) :
    ∃ a, p.exec CacheCall.alone s = some (a, r.2) ∧ r.1 = f a := by
  rw [Prog.exec_bind, Option.bind_eq_some_iff] at h
  obtain ⟨⟨a, s'⟩, hp, h⟩ := h
  cases h
  exact ⟨a, hp, rfl⟩

theorem exec_referenced {α : Type} {id : ℕ} {f : Inode → CacheProg α} {r : α × (List ℕ × Disk)}
    (h : (referenced t id f).exec CacheCall.alone (H, m) = some r) :
    ∃ ip, t.find id = some ip ∧ (f ip).exec CacheCall.alone (H, m) = some r := by
  rw [referenced] at h
  split at h
  · rename_i ip hip
    exact ⟨ip, hip, h⟩
  · cases h

theorem find_bind {α β : Type} {id : ℕ} {ip : Inode} {f : Inode → Option α} {x : α}
    {g : Inode → α → Option β} {y : β} (hip : t.find id = some ip) (hf : f ip = some x)
    (hg : g ip x = some y) : (((t.tree m).find id).bind fun ip => (f ip).bind (g ip)) = some y :=
  Option.bind_eq_some_iff.mpr ⟨ip, hip, Option.bind_eq_some_iff.mpr ⟨x, hf, hg⟩⟩

/-- **`inode_get` alone.** -/
theorem alone_inodeGet {r : ℕ × Inodes}
    (h : (inodeGet sb t no).exec CacheCall.alone (H, m) = some (r, s')) :
    s'.1 = H ∧ (t.tree m).inodeGet sb no = some (r.2.tree s'.2) ∧ r.1 = (t.tree m).addrOf no := by
  rw [inodeGet] at h
  rw [InodeTree.inodeGet, InodeTree.addrOf]
  dsimp only [Inodes.tree] at h ⊢
  split_ifs at h ⊢
  · cases hfind : t.head.find? fun ip => ip.inodeNo = no ∧ 0 < ip.rc with
    | some ip =>
        simp only [hfind] at h ⊢
        cases h
        exact ⟨rfl, rfl, rfl⟩
    | none =>
        simp only [hfind] at h ⊢
        cases hfree : t.head.find? fun ip => ip.rc = 0
        all_goals
          simp only [hfree, Prog.monad_bind_eq, Prog.exec_bind, Option.bind_eq_some_iff] at h ⊢
          obtain ⟨⟨⟨valid, e⟩, H₁, m₁⟩, hsync, h⟩ := h
          obtain ⟨hH₁, hload⟩ := exec_inodeSync hsync
          cases h
          cases hload
          exact ⟨hH₁, rfl, rfl⟩
  · cases h

/-- **`inode_put` alone.** -/
theorem alone_inodePut {ip : Inode}
    (h : (inodePut sb ctx t ip).exec CacheCall.alone (H, m) = some (t', s')) :
    s'.1 = H ∧ InodeTree.inodePut (bcacheAlloc sb) sb (t.tree m) ip = some (t'.tree s'.2) := by
  rw [inodePut] at h
  rw [InodeTree.inodePut]
  split_ifs at h ⊢ with hvalid hlast
  · cases h
  · rw [Prog.monad_bind_eq, Prog.exec_bind, Option.bind_eq_some_iff] at h
    obtain ⟨⟨e, H₁, m₁⟩, hclear, h⟩ := h
    obtain ⟨hH₁, hfun⟩ := alone_inodeClear hclear
    rw [Prog.monad_bind_eq, Prog.exec_bind, Option.bind_eq_some_iff] at h
    obtain ⟨⟨⟨valid, e₂⟩, H₂, m₂⟩, hsync, h⟩ := h
    obtain ⟨hH₂, hput⟩ := exec_inodeSync hsync
    have hv : ip.valid = true := by simpa using hvalid
    rw [hv] at hput
    cases h
    cases hput
    refine ⟨hH₂.trans hH₁, Option.bind_eq_some_iff.mpr ⟨_, hfun, rfl⟩⟩
  · cases h
    exact ⟨rfl, rfl⟩

/-- **A call alone** is a step of the inode tree, with its result. -/
theorem alone_inodeCall {call : InodeCall} {r : InodeRes × Inodes}
    (h : (inodeCall sb ctx t call).exec CacheCall.alone (H, m) = some (r, s')) :
    s'.1 = H ∧ (t.tree m).step (bcacheAlloc sb) sb call = some (r.2.tree s'.2) ∧
      (t.tree m).result (bcacheAlloc sb) sb call = some r.1 := by
  cases call with
  | alloc type =>
      obtain ⟨n, halloc, rfl⟩ := exec_bind_ret h
      obtain ⟨hH, hfun⟩ := alone_inodeAlloc halloc
      refine ⟨hH, Option.bind_eq_some_iff.mpr ⟨_, hfun, rfl⟩, ?_⟩
      exact Option.map_eq_some_iff.mpr ⟨_, hfun, rfl⟩
  | get no =>
      obtain ⟨⟨id, t₁⟩, hget, rfl⟩ := exec_bind_ret h
      obtain ⟨hH, hfun, hid⟩ := alone_inodeGet hget
      exact ⟨hH, hfun, congrArg (fun n => some (InodeRes.value n)) hid.symm⟩
  | share id =>
      obtain ⟨ip, hip, h⟩ := exec_referenced h
      cases h
      exact ⟨rfl, Option.bind_eq_some_iff.mpr ⟨ip, hip, rfl⟩, rfl⟩
  | put id =>
      obtain ⟨ip, hip, h⟩ := exec_referenced h
      obtain ⟨t₁, hput, rfl⟩ := exec_bind_ret h
      obtain ⟨hH, hfun⟩ := alone_inodePut hput
      exact ⟨hH, Option.bind_eq_some_iff.mpr ⟨ip, hip, hfun⟩, rfl⟩
  | clear id =>
      obtain ⟨ip, hip, h⟩ := exec_referenced h
      obtain ⟨e, hclear, rfl⟩ := exec_bind_ret h
      obtain ⟨hH, hfun⟩ := alone_inodeClear hclear
      exact ⟨hH, find_bind hip hfun rfl, rfl⟩
  | read id offset count =>
      obtain ⟨ip, hip, h⟩ := exec_referenced h
      obtain ⟨⟨n, dest, e⟩, hread, rfl⟩ := exec_bind_ret h
      obtain ⟨hH, hfun⟩ := exec_inodeRead hread
      exact ⟨hH, find_bind hip hfun rfl, find_bind hip hfun rfl⟩
  | write id offset src =>
      obtain ⟨ip, hip, h⟩ := exec_referenced h
      obtain ⟨⟨n, e⟩, hwrite, rfl⟩ := exec_bind_ret h
      obtain ⟨hH, hfun⟩ := alone_inodeWrite hwrite
      exact ⟨hH, find_bind hip hfun rfl, find_bind hip hfun rfl⟩
  | lookup id name =>
      obtain ⟨ip, hip, h⟩ := exec_referenced h
      obtain ⟨⟨inum, index, e⟩, hlook, rfl⟩ := exec_bind_ret h
      obtain ⟨hH, hfun⟩ := exec_inodeLookup hlook
      exact ⟨hH, find_bind hip hfun rfl, find_bind hip hfun rfl⟩
  | insert id name inodeNo =>
      obtain ⟨ip, hip, h⟩ := exec_referenced h
      obtain ⟨⟨n, e⟩, hins, rfl⟩ := exec_bind_ret h
      obtain ⟨hH, hfun⟩ := alone_inodeInsert hins
      exact ⟨hH, find_bind hip hfun rfl, find_bind hip hfun rfl⟩
  | remove id index =>
      obtain ⟨ip, hip, h⟩ := exec_referenced h
      obtain ⟨e, hrem, rfl⟩ := exec_bind_ret h
      obtain ⟨hH, hfun⟩ := alone_inodeRemove hrem
      exact ⟨hH, find_bind hip hfun rfl, rfl⟩
  | setLinks id n =>
      obtain ⟨ip, hip, h⟩ := exec_referenced h
      obtain ⟨⟨valid, e⟩, hsync, rfl⟩ := exec_bind_ret h
      obtain ⟨hH, hfun⟩ := exec_inodeSync hsync
      refine ⟨hH, Option.bind_eq_some_iff.mpr ⟨ip, hip, ?_⟩, rfl⟩
      exact congrArg (fun r => some ((t.tree m).store id r.2.1 r.2.2)) hfun

end Alone

end CacheProg

end OsLab
