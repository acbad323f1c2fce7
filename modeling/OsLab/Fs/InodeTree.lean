import OsLab.Fs.Directory
import OsLab.Lib.Run

/-!
# The inode tree

The operations of `InodeTree` in `fs/inode.c` for serialised callers: the in-memory
inodes with their reference counts, over a disk whose free blocks are kept by the
bitmap of `fs/cache.c`.

An in-memory inode is known by its address.  A call on an inode is made with a
reference to it, so its count is positive; `inode_get` is called for an inode that is
allocated on the disk, as `inode.h` asks.

## Main definitions

* `Inode`, `InodeTree`, `InodeTree.step` — the system.
* `SuperBlock.validInodes`, `SoundImage` — no block is leaked or shared.
* `InodeTree.Inv` — the entries in memory are those on the disk.
-/

namespace OsLab

/-- `Inode`, without its lock -/
structure Inode where
  /-- its address -/
  id : ℕ
  inodeNo : ℕ
  rc : ℕ
  valid : Bool
  entry : InodeEntry

/-- The disk and the list of in-memory inodes, first node first. -/
structure InodeTree where
  disk : Disk
  head : List Inode
  /-- addresses from here on are free -/
  next : ℕ

/-- A call of an operation. -/
inductive InodeCall
  | alloc (type : UInt16)
  | get (no : ℕ)
  | share (id : ℕ)
  | put (id : ℕ)
  | clear (id : ℕ)
  | read (id offset count : ℕ)
  | write (id offset : ℕ) (src : List UInt8)
  | lookup (id : ℕ) (name : List UInt8)
  | insert (id : ℕ) (name : List UInt8) (inodeNo : ℕ)
  | remove (id index : ℕ)
  /-- `entry.num_links = n`, then `inode_sync(ctx, inode, true)` -/
  | setLinks (id : ℕ) (n : UInt16)

/-- `inode_alloc` -/
def inodeAlloc (sb : SuperBlock) (m : Disk) (type : UInt16) : Option (ℕ × Disk) :=
  if type = inodeInvalid then none
  else do
    let no ← (List.range' 1 sb.numInodes).find? fun no => (sb.diskEntry m no).type = inodeInvalid
    some (no, sb.putDiskEntry m no { InodeEntry.zero with type := type })

namespace InodeTree

/-- The inode at an address, if somebody has a reference to it. -/
def find (s : InodeTree) (id : ℕ) : Option Inode := s.head.find? fun ip => ip.id = id ∧ 0 < ip.rc

/-- Change the inode at an address. -/
def modify (s : InodeTree) (id : ℕ) (f : Inode → Inode) : InodeTree :=
  { s with head := s.head.map fun ip => if ip.id = id then f ip else ip }

/-- `inode_get` on the inode `ip`, new or unused, for `no`: the entry is loaded. -/
def load (sb : SuperBlock) (m : Disk) (no : ℕ) (ip : Inode) : Inode :=
  { ip with inodeNo := no, rc := ip.rc + 1, valid := true, entry := sb.diskEntry m no }

/-- `inode_get` -/
def inodeGet (sb : SuperBlock) (s : InodeTree) (no : ℕ) : Option InodeTree :=
  if 0 < no ∧ no < sb.numInodes then
    match s.head.find? fun ip => ip.inodeNo = no ∧ 0 < ip.rc with
    | some ip => some (s.modify ip.id fun ip => { ip with rc := ip.rc + 1 })
    | none =>
        match s.head.find? fun ip => ip.rc = 0 with
        | some ip => some (s.modify ip.id (load sb s.disk no))
        | none => some { s with
            head := load sb s.disk no ⟨s.next, 0, 0, false, InodeEntry.zero⟩ :: s.head
            next := s.next + 1 }
  else none

/-- The inode `ip` and the disk after an operation on the entry. -/
def store (s : InodeTree) (id : ℕ) (e : InodeEntry) (m : Disk) : InodeTree :=
  { s.modify id fun ip => { ip with entry := e } with disk := m }

/-- `inode_put`; the inode that is freed is unlinked. -/
def inodePut (c : BlockAlloc) (sb : SuperBlock) (s : InodeTree) (ip : Inode) : Option InodeTree :=
  if !ip.valid then none
  else if ip.rc = 1 ∧ ip.entry.numLinks = 0 then do
    let (e, m) ← inodeClear c sb s.disk ip.inodeNo ip.entry
    let e := { e with type := inodeInvalid }
    some { s with
      disk := sb.putDiskEntry m ip.inodeNo e
      head := s.head.filter fun jp => jp.id ≠ ip.id }
  else some (s.modify ip.id fun ip => { ip with rc := ip.rc - 1 })

/-- One call. -/
def step (c : BlockAlloc) (sb : SuperBlock) (s : InodeTree) : InodeCall → Option InodeTree
  | .alloc type => do
      let (_, m) ← inodeAlloc sb s.disk type
      some { s with disk := m }
  | .get no => inodeGet sb s no
  | .share id => do
      let ip ← s.find id
      some (s.modify ip.id fun ip => { ip with rc := ip.rc + 1 })
  | .put id => do
      let ip ← s.find id
      inodePut c sb s ip
  | .clear id => do
      let ip ← s.find id
      let (e, m) ← inodeClear c sb s.disk ip.inodeNo ip.entry
      some (s.store id e m)
  | .read id offset count => do
      let ip ← s.find id
      let (_, _, e, m) ← inodeRead c s.disk ip.entry offset count
      some (s.store id e m)
  | .write id offset src => do
      let ip ← s.find id
      let (_, e, m) ← inodeWrite c sb s.disk ip.inodeNo ip.entry offset src
      some (s.store id e m)
  | .lookup id name => do
      let ip ← s.find id
      let (_, _, e, m) ← inodeLookup c s.disk ip.entry name
      some (s.store id e m)
  | .insert id name inodeNo => do
      let ip ← s.find id
      let (_, e, m) ← inodeInsert c sb s.disk ip.inodeNo ip.entry name inodeNo
      some (s.store id e m)
  | .remove id index => do
      let ip ← s.find id
      let (e, m) ← inodeRemove c sb s.disk ip.inodeNo ip.entry index
      some (s.store id e m)
  | .setLinks id n => do
      let ip ← s.find id
      let e := { ip.entry with numLinks := n }
      let (_, e, m) := inodeSync sb s.disk ip.inodeNo ip.valid e true
      some (s.store id e m)

/-- What callers promise: `inode_get` is called for an allocated inode, and lengths are `usize`s. -/
def Legal (sb : SuperBlock) (s : InodeTree) : InodeCall → Prop
  | .get no => (sb.diskEntry s.disk no).type ≠ inodeInvalid
  | .read _ _ count => count < 2 ^ 64
  | .write _ _ src => src.length < 2 ^ 64
  | _ => True

/-- No inode in memory. -/
def init (m : Disk) : InodeTree := ⟨m, [], 0⟩

end InodeTree

/-! ## Images -/

namespace SuperBlock

/-- The inodes that are allocated on the disk. -/
def validInodes (sb : SuperBlock) (m : Disk) : Set ℕ :=
  { no | 1 ≤ no ∧ no ≤ sb.numInodes ∧ (sb.diskEntry m no).type ≠ inodeInvalid }

/-- The inode blocks. -/
def inodeBlocks (sb : SuperBlock) : Set ℕ := { b | ∃ no, no ≤ sb.numInodes ∧ b = sb.toBlockNo no }

/-- The reserved blocks `K` hold block 0 and the bitmap, and no inode. -/
structure Layout (sb : SuperBlock) (K : Set ℕ) : Prop where
  reserved : sb.Reserved K
  area : ∀ b ∈ sb.inodeBlocks, b < sb.numBlocks ∧ b ∉ K

end SuperBlock

/-- **No block is leaked or shared**: every allocated inode is dense, no two use a block, and the
bits are those of the blocks they use, of the inode blocks and of the reserved ones. -/
structure SoundImage (sb : SuperBlock) (K : Set ℕ) (m : Disk) : Prop where
  dense : ∀ no ∈ sb.validInodes m, Dense m (sb.diskEntry m no)
  inUse : InUse sb.inodeBlocks (sb.validInodes m) (sb.diskEntry m) m
  exact : sb.Exact K 0 (blocksInUse sb.inodeBlocks (sb.validInodes m) (sb.diskEntry m) m) m

/-! ## `inode_clear` -/

section Clear

variable {sb : SuperBlock} {K U V : Set ℕ} {m m' : Disk} {e e' : InodeEntry} {no n : ℕ}

private theorem freeAll_spec (hK : sb.Reserved K) (l : List ℕ) (hE : sb.Exact K n U m)
    (hmem : ∀ b ∈ l, b ≠ 0 → b ∈ U) (hnd : (l.filter fun b => b ≠ 0).Nodup) :
    ∃ m', freeAll (bcacheAlloc sb) m l = some m' ∧ (∀ a, a ∉ K → m' a = m a) ∧
      sb.Exact K n (U \ { b | b ∈ l ∧ b ≠ 0 }) m' := by
  induction l generalizing m U with
  | nil =>
      refine ⟨m, rfl, fun _ _ => rfl, ?_⟩
      simpa using hE
  | cons b l ih =>
      by_cases h0 : b = 0
      · subst h0
        rw [List.filter_cons_of_neg (by simp)] at hnd
        obtain ⟨m', hf, hsame, hE'⟩ := ih hE (fun a ha => hmem a (List.mem_cons_of_mem _ ha)) hnd
        refine ⟨m', by rw [freeAll, if_pos rfl, hf], hsame, ?_⟩
        have hset : { a | a ∈ 0 :: l ∧ a ≠ 0 } = { a | a ∈ l ∧ a ≠ 0 } := by
          ext a
          simp only [List.mem_cons, Set.mem_ofPred_eq]
          constructor
          · rintro ⟨rfl | ha, hne⟩
            · exact absurd rfl hne
            · exact ⟨ha, hne⟩
          · rintro ⟨ha, hne⟩
            exact ⟨Or.inr ha, hne⟩
        rw [hset]
        exact hE'
      · rw [List.filter_cons_of_pos (by simp [h0]), List.nodup_cons] at hnd
        obtain ⟨m₁, hf₁, hsame₁, hE₁⟩ := hE.free hK (hmem b List.mem_cons_self h0)
        have hmem₁ : ∀ a ∈ l, a ≠ 0 → a ∈ U \ {b} := by
          intro a ha hne
          refine ⟨hmem a (List.mem_cons_of_mem _ ha) hne, ?_⟩
          rintro rfl
          exact hnd.1 (List.mem_filter.mpr ⟨ha, by simpa using hne⟩)
        obtain ⟨m', hf, hsame, hE'⟩ := ih hE₁ hmem₁ hnd.2
        refine ⟨m', ?_, ?_, ?_⟩
        · rw [freeAll, if_neg h0]
          show (cacheFree sb m b).bind _ = _
          rw [hf₁]
          exact hf
        · intro a ha
          rw [hsame a ha, hsame₁ a ha]
        · have hset : U \ { a | a ∈ b :: l ∧ a ≠ 0 } = (U \ {b}) \ { a | a ∈ l ∧ a ≠ 0 } := by
            ext a
            simp only [List.mem_cons, Set.mem_sdiff, Set.mem_ofPred_eq, Set.mem_singleton_iff]
            constructor
            · rintro ⟨ha, hnot⟩
              exact ⟨⟨ha, fun hab => hnot ⟨Or.inl hab, hab ▸ h0⟩⟩, fun h => hnot ⟨Or.inr h.1, h.2⟩⟩
            · rintro ⟨⟨ha, hab⟩, hnot⟩
              exact ⟨ha, fun h => h.1.elim hab fun hl => hnot ⟨hl, h.2⟩⟩
          rw [hset]
          exact hE'

private theorem nodup_filter_map {f : ℕ → ℕ} {k : ℕ}
    (hinj : ∀ i j, i < k → j < k → f i = f j → f i ≠ 0 → i = j) :
    (((List.range k).map f).filter fun b => b ≠ 0).Nodup := by
  rw [List.filter_map]
  apply List.Nodup.map_on
  · intro i hi j hj hij
    rw [List.mem_filter, List.mem_range] at hi hj
    exact hinj i j hi.1 hj.1 hij (by simpa using hi.2)
  · exact List.nodup_range.filter _

private theorem slot_direct {i : ℕ} (hi : i < inodeNumDirect) :
    i < inodeMaxBlocks ∧ slot m e i = e.addr i := by
  have hlt : i < inodeMaxBlocks := by
    rw [inodeMaxBlocks]
    omega
  rw [slot_of_lt hlt, blockAddr, if_pos hi]
  exact ⟨hlt, rfl⟩

private theorem slot_table {i : ℕ} (hi : e.indirect ≠ 0) (hlt : i < inodeNumIndirect) :
    i + inodeNumDirect < inodeMaxBlocks ∧
      slot m e (i + inodeNumDirect) = indirectAddr m e.indirect.toNat i := by
  have hlt' : i + inodeNumDirect < inodeMaxBlocks := by
    rw [inodeMaxBlocks]
    omega
  rw [slot_of_lt hlt', blockAddr, if_neg (by omega), if_neg hi, Nat.add_sub_cancel]
  exact ⟨hlt', rfl⟩

/-- The addresses `inode_clear` frees first. -/
private def directBlocks (e : InodeEntry) : Set ℕ :=
  { b | b ∈ (List.range inodeNumDirect).map e.addr ∧ b ≠ 0 }

/-- Those listed in the indirect block. -/
private def tableBlocks (m : Disk) (e : InodeEntry) : Set ℕ :=
  { b | b ∈ (List.range inodeNumIndirect).map (indirectAddr m e.indirect.toNat) ∧ b ≠ 0 }

private theorem directBlocks_slot {b : ℕ} (hb : b ∈ directBlocks e) :
    b ≠ 0 ∧ ∃ i, i < inodeNumDirect ∧ i < inodeMaxBlocks ∧ slot m e i = b := by
  obtain ⟨hb, h0⟩ := hb
  obtain ⟨i, hi, rfl⟩ := List.mem_map.mp hb
  rw [List.mem_range] at hi
  obtain ⟨hlt, hslot⟩ := slot_direct (m := m) (e := e) hi
  exact ⟨h0, i, hi, hlt, hslot⟩

private theorem tableBlocks_slot {b : ℕ} (hi : e.indirect ≠ 0) (hb : b ∈ tableBlocks m e) :
    b ≠ 0 ∧ ∃ i, inodeNumDirect ≤ i ∧ i < inodeMaxBlocks ∧ slot m e i = b := by
  obtain ⟨hb, h0⟩ := hb
  obtain ⟨i, hi', rfl⟩ := List.mem_map.mp hb
  obtain ⟨hlt, hslot⟩ := slot_table (m := m) hi (List.mem_range.mp hi')
  exact ⟨h0, _, Nat.le_add_left _ _, hlt, hslot⟩

/-- The direct blocks, those listed in the indirect block, and the indirect block. -/
private theorem mem_blocks_cases {b : ℕ} (hb : b ∈ blocks m e) :
    b ∈ directBlocks e ∨ e.indirect ≠ 0 ∧ (b ∈ tableBlocks m e ∨ b = e.indirect.toNat) := by
  obtain ⟨h0, s, hs, hsb⟩ := hb
  by_cases hmax : s = inodeMaxBlocks
  · rw [hmax, slot_indirect] at hsb
    refine Or.inr ⟨?_, Or.inr hsb.symm⟩
    intro hi
    rw [hi] at hsb
    exact h0 hsb.symm
  · have hlt : s < inodeMaxBlocks := Nat.lt_of_le_of_ne hs hmax
    rw [slot_of_lt hlt, blockAddr] at hsb
    split at hsb
    · rename_i hd
      exact Or.inl ⟨List.mem_map.mpr ⟨s, List.mem_range.mpr hd, hsb⟩, h0⟩
    · rename_i hd
      split at hsb
      · exact absurd hsb.symm h0
      · rename_i hi
        refine Or.inr ⟨hi, Or.inl ⟨List.mem_map.mpr ⟨s - inodeNumDirect, ?_, hsb⟩, h0⟩⟩
        rw [List.mem_range]
        rw [inodeMaxBlocks] at hlt
        omega

/-- The entry `inode_clear` leaves. -/
def InodeEntry.cleared (e : InodeEntry) : InodeEntry :=
  { e with addrs := fun _ => 0, indirect := 0, numBytes := 0 }

/-- The part of `inode_clear` that frees the blocks. -/
private theorem clear_blocks (no : ℕ) (hK : sb.Reserved K) (hA : Apart V m e)
    (hE : sb.Exact K n (V ∪ blocks m e) m) :
    ∃ m', inodeClear (bcacheAlloc sb) sb m no e =
        some (e.cleared, sb.putDiskEntry m' no e.cleared) ∧
      (∀ a, a ∉ K → m' a = m a) ∧ sb.Exact K n V m' := by
  have hdirect : directBlocks e ⊆ blocks m e := by
    intro b hb
    obtain ⟨h0, i, -, hlt, rfl⟩ := directBlocks_slot (m := m) hb
    exact mem_blocks_of_slot hlt.le h0
  obtain ⟨m₁, hf₁, hsame₁, hE₁⟩ := freeAll_spec hK ((List.range inodeNumDirect).map e.addr) hE
    (fun b hb h0 => Or.inr (hdirect ⟨hb, h0⟩)) (nodup_filter_map (by
      intro i j hi hj hij h0
      obtain ⟨hi', hsi⟩ := slot_direct (m := m) (e := e) hi
      obtain ⟨hj', hsj⟩ := slot_direct (m := m) (e := e) hj
      rw [← hsi, ← hsj] at hij
      rw [← hsi] at h0
      exact hA.inj i j hi'.le hj'.le hij h0))
  by_cases hi : e.indirect = 0
  · refine ⟨m₁, ?_, hsame₁, ?_⟩
    · rw [inodeClear, hf₁, Option.bind_eq_bind, Option.bind_some]
      dsimp only
      rw [if_pos hi]
      rfl
    · have hset : (V ∪ blocks m e) \ directBlocks e = V := by
        ext b
        constructor
        · rintro ⟨hb | hb, hnot⟩
          · exact hb
          · rcases mem_blocks_cases hb with hd | ⟨hne, -⟩
            · exact absurd hd hnot
            · exact absurd hi hne
        · intro hb
          exact ⟨Or.inl hb, fun hd => hA.off b (hdirect hd) hb⟩
      rw [← hset]
      exact hE₁
  · have htable : tableBlocks m e ⊆ blocks m e := by
      intro b hb
      obtain ⟨h0, i, -, hlt, rfl⟩ := tableBlocks_slot hi hb
      exact mem_blocks_of_slot hlt.le h0
    have hind := indirect_mem_blocks (m := m) hi
    -- the indirect block is still there while the blocks it lists are freed
    have hind₁ : indirectAddr m₁ e.indirect.toNat = indirectAddr m e.indirect.toNat := by
      ext1 i
      rw [indirectAddr, hsame₁ _ (hE.off _ (Or.inr hind)), indirectAddr]
    have hnotDirect : ∀ b ∈ tableBlocks m e, b ∉ directBlocks e := by
      intro b hb hd
      obtain ⟨h0, i, hge, hlt, hs⟩ := tableBlocks_slot hi hb
      obtain ⟨-, j, hj, hlt', hs'⟩ := directBlocks_slot (m := m) hd
      have := hA.inj i j hlt.le hlt'.le (hs.trans hs'.symm) (hs ▸ h0)
      omega
    obtain ⟨m₂, hf₂, hsame₂, hE₂⟩ := freeAll_spec hK
      ((List.range inodeNumIndirect).map (indirectAddr m e.indirect.toNat)) hE₁
      (fun b hb h0 => ⟨Or.inr (htable ⟨hb, h0⟩), hnotDirect b ⟨hb, h0⟩⟩) (nodup_filter_map (by
        intro i j hi' hj' hij h0
        obtain ⟨hlt, hsi⟩ := slot_table (m := m) hi hi'
        obtain ⟨hlt', hsj⟩ := slot_table (m := m) hi hj'
        rw [← hsi, ← hsj] at hij
        rw [← hsi] at h0
        have := hA.inj _ _ hlt.le hlt'.le hij h0
        omega))
    have hindLeft : e.indirect.toNat ∈ ((V ∪ blocks m e) \ directBlocks e) \ tableBlocks m e := by
      have hne := hind.1
      refine ⟨⟨Or.inr hind, ?_⟩, ?_⟩
      · intro hd
        obtain ⟨-, i, -, hlt, hs⟩ := directBlocks_slot (m := m) hd
        rw [← slot_indirect m e] at hs
        have := hA.inj i inodeMaxBlocks hlt.le (le_refl _) hs (by rw [hs, slot_indirect]; exact hne)
        omega
      · intro ht
        obtain ⟨-, i, -, hlt, hs⟩ := tableBlocks_slot hi ht
        rw [← slot_indirect m e] at hs
        have := hA.inj i inodeMaxBlocks hlt.le (le_refl _) hs (by rw [hs, slot_indirect]; exact hne)
        omega
    obtain ⟨m₃, hf₃, hsame₃, hE₃⟩ := hE₂.free hK hindLeft
    refine ⟨m₃, ?_, ?_, ?_⟩
    · have hf₃' : (bcacheAlloc sb).free m₂ e.indirect.toNat = some m₃ := hf₃
      rw [inodeClear, hf₁, Option.bind_eq_bind, Option.bind_some]
      dsimp only
      rw [if_neg hi, hind₁, hf₂, Option.bind_some, hf₃']
      rfl
    · intro a ha
      rw [hsame₃ a ha, hsame₂ a ha, hsame₁ a ha]
    · have hset : (((V ∪ blocks m e) \ directBlocks e) \ tableBlocks m e) \
          {e.indirect.toNat} = V := by
        ext b
        constructor
        · rintro ⟨⟨⟨hb | hb, hd⟩, ht⟩, hne⟩
          · exact hb
          · rcases mem_blocks_cases hb with hd' | ⟨-, ht' | hb'⟩
            · exact absurd hd' hd
            · exact absurd ht' ht
            · exact absurd hb' hne
        · intro hb
          refine ⟨⟨⟨Or.inl hb, fun hd => hA.off b (hdirect hd) hb⟩,
            fun ht => hA.off b (htable ht) hb⟩, ?_⟩
          rintro rfl
          exact hA.off _ hind hb
      rw [← hset]
      exact hE₃

end Clear

/-! ## Images change one inode at a time -/

section Change

variable {sb : SuperBlock} {K : Set ℕ} {m m' : Disk} {e e' : InodeEntry} {no no' : ℕ}

/-- The blocks in use on the disk, other than those of the inode `no`. -/
def SuperBlock.others (sb : SuperBlock) (m : Disk) (no : ℕ) : Set ℕ :=
  otherBlocks sb.inodeBlocks (sb.validInodes m) (sb.diskEntry m) m no

private theorem toBlockNo_mem_others (h : no' ≤ sb.numInodes) :
    sb.toBlockNo no' ∈ sb.others m no := Or.inl ⟨no', h, rfl⟩

private theorem blocksInUse_of_notMem {A I : Set ℕ} {ents : ℕ → InodeEntry} (h : no ∉ I) :
    blocksInUse A I ents m = otherBlocks A I ents m no := by
  ext b
  constructor
  · rintro (hb | ⟨no', hI, hb⟩)
    · exact Or.inl hb
    · refine Or.inr ⟨no', hI, ?_, hb⟩
      rintro rfl
      exact h hI
  · rintro (hb | ⟨no', hI, -, hb⟩)
    · exact Or.inl hb
    · exact Or.inr ⟨no', hI, hb⟩

/-- The image as the inode `no`, allocated, sees it. -/
theorem SoundImage.at (hS : SoundImage sb K m) (hno : no ∈ sb.validInodes m) :
    Dense m (sb.diskEntry m no) ∧ Apart (sb.others m no) m (sb.diskEntry m no) ∧
      sb.Exact K 0 (sb.others m no ∪ blocks m (sb.diskEntry m no)) m := by
  refine ⟨hS.dense no hno, hS.inUse no hno, ?_⟩
  have := hS.exact
  rwa [blocksInUse_eq hno] at this

theorem SoundImage.at_free (hS : SoundImage sb K m) (hno : no ∉ sb.validInodes m) :
    sb.Exact K 0 (sb.others m no) m := by
  have := hS.exact
  rwa [blocksInUse_of_notMem hno] at this

/-- **An image stays sound** when one inode changes, with its blocks. -/
theorem SoundImage.change (hS : SoundImage sb K m) (h1 : 1 ≤ no) (hle : no ≤ sb.numInodes)
    (hents : ∀ no', no' ≠ no → no' ≤ sb.numInodes → sb.diskEntry m' no' = sb.diskEntry m no')
    (hV : ∀ a ∈ sb.others m no, a ≠ sb.toBlockNo no → m' a = m a)
    (hvalid : (sb.diskEntry m' no).type ≠ inodeInvalid → Dense m' (sb.diskEntry m' no) ∧
      Apart (sb.others m no) m' (sb.diskEntry m' no) ∧
      sb.Exact K 0 (sb.others m no ∪ blocks m' (sb.diskEntry m' no)) m')
    (hinvalid : (sb.diskEntry m' no).type = inodeInvalid → sb.Exact K 0 (sb.others m no) m') :
    SoundImage sb K m' := by
  have harea : sb.toBlockNo no ∈ sb.inodeBlocks := ⟨no, hle, rfl⟩
  have hI : ∀ no', no' ≠ no → (no' ∈ sb.validInodes m' ↔ no' ∈ sb.validInodes m) := by
    intro no' hne
    constructor
    · rintro ⟨h1', hle', ht⟩
      rw [hents no' hne hle'] at ht
      exact ⟨h1', hle', ht⟩
    · rintro ⟨h1', hle', ht⟩
      refine ⟨h1', hle', ?_⟩
      rw [hents no' hne hle']
      exact ht
  obtain ⟨hU', hother⟩ := hS.inUse.change harea hI (fun no' hmem hne => hents no' hne hmem.2.1)
    (fun hmem => (hvalid hmem.2.2).2.1) hV
  refine ⟨?_, hU', ?_⟩
  · intro no' hmem'
    by_cases hne : no' = no
    · rw [hne] at hmem' ⊢
      exact (hvalid hmem'.2.2).1
    · have hmem := (hI no' hne).mp hmem'
      rw [hents no' hne hmem.2.1]
      exact (hS.dense no' hmem).congr (hS.inUse.unchanged harea hV hmem hne)
  · by_cases ht : (sb.diskEntry m' no).type = inodeInvalid
    · have hmem : no ∉ sb.validInodes m' := fun hmem => hmem.2.2 ht
      rw [blocksInUse_of_notMem hmem, hother]
      exact hinvalid ht
    · have hmem : no ∈ sb.validInodes m' := ⟨h1, hle, ht⟩
      rw [blocksInUse_eq hmem, hother]
      exact (hvalid ht).2.2

/-- `inode_write` on an allocated inode whose entry is that on the disk. -/
theorem SoundImage.write (hlay : sb.Layout K) (hS : SoundImage sb K m)
    (hno : no ∈ sb.validInodes m) {offset r : ℕ} {src : List UInt8} (hlen : src.length < 2 ^ 64)
    (hr : inodeWrite (bcacheAlloc sb) sb m no (sb.diskEntry m no) offset src = some (r, e', m')) :
    SoundImage sb K m' ∧ sb.diskEntry m' no = e' ∧ e'.type = (sb.diskEntry m no).type ∧
      ∀ no', no' ≠ no → no' ≤ sb.numInodes → sb.diskEntry m' no' = sb.diskEntry m no' := by
  obtain ⟨hD, hA, hE⟩ := hS.at hno
  obtain ⟨-, hW, hE'⟩ := inodeWrite_spec (cacheAlloc_lawful hlay.reserved) hA hD
    (toBlockNo_mem_others hno.2.1) hE hlen hr
  have hsync := hW.synced rfl
  have hents : ∀ no', no' ≠ no → no' ≤ sb.numInodes → sb.diskEntry m' no' = sb.diskEntry m no' :=
    fun no' hne hle => hW.entries no' hne (toBlockNo_mem_others hle)
  refine ⟨?_, hsync, hW.type, hents⟩
  refine hS.change hno.1 hno.2.1 hents hW.others ?_ ?_
  · intro _
    rw [hsync]
    exact ⟨hW.dense, hW.apart, hE'.mono (Nat.zero_le _)⟩
  · intro ht
    rw [hsync, hW.type] at ht
    exact absurd ht hno.2.2

/-- An entry without blocks. -/
private theorem blocks_of_zero (ha : ∀ i, e.addrs i = 0) (hi : e.indirect = 0) (m : Disk) :
    blocks m e = ∅ := by
  apply blocks_eq_empty
  · intro k
    rw [InodeEntry.addr]
    split
    · rw [ha]
      rfl
    · rfl
  · exact hi

theorem empty_entry {V : Set ℕ} (hb : ∀ m, blocks m e = ∅) (h0 : e.numBytes = 0)
    (m : Disk) : Dense m e ∧ Apart V m e := by
  have hslot : ∀ s, s ≤ inodeMaxBlocks → slot m e s = 0 := by
    intro s hs
    by_contra h
    have := mem_blocks_of_slot hs h
    rw [hb m] at this
    exact Set.notMem_empty _ this
  refine ⟨⟨?_, ?_⟩, ?_, ?_⟩
  · rw [h0]
    exact Nat.zero_le _
  · intro k hk
    rw [← slot_of_lt hk, hslot k hk.le, h0]
    simp [blocksFor]
  · intro s t hs _ _ hne
    exact absurd (hslot s hs) hne
  · rw [hb m]
    intro b hb'
    exact absurd hb' (Set.notMem_empty _)

/-- Storing an entry without blocks, on a disk whose bits are those of the other inodes. -/
private theorem SoundImage.put_empty (hlay : sb.Layout K) (hS : SoundImage sb K m) (h1 : 1 ≤ no)
    (hle : no ≤ sb.numInodes) (hb : ∀ m, blocks m e = ∅) (h0 : e.numBytes = 0)
    (hsame : ∀ a, a ∉ K → m' a = m a) (hE : sb.Exact K 0 (sb.others m no) m') :
    SoundImage sb K (sb.putDiskEntry m' no e) ∧
      ∀ no', no' ≠ no → no' ≤ sb.numInodes →
        sb.diskEntry (sb.putDiskEntry m' no e) no' = sb.diskEntry m no' := by
  have hmem : sb.toBlockNo no ∈ sb.others m no := toBlockNo_mem_others hle
  have hents : ∀ no', no' ≠ no → no' ≤ sb.numInodes →
      sb.diskEntry (sb.putDiskEntry m' no e) no' = sb.diskEntry m no' := by
    intro no' hne hle'
    rw [SuperBlock.diskEntry_putDiskEntry_of_ne hne]
    exact SuperBlock.diskEntry_congr (hsame _ (hlay.area _ ⟨no', hle', rfl⟩).2)
  have hE' : sb.Exact K 0 (sb.others m no) (sb.putDiskEntry m' no e) := hE.sync hlay.reserved hmem
  refine ⟨hS.change h1 hle hents ?_ ?_ fun _ => hE', hents⟩
  · intro a ha hne
    rw [SuperBlock.putDiskEntry_of_ne hne]
    exact hsame a (hE.off a ha)
  · intro _
    rw [SuperBlock.diskEntry_putDiskEntry_self, hb, Set.union_empty]
    obtain ⟨hD, hA⟩ := empty_entry (V := sb.others m no) hb h0 (sb.putDiskEntry m' no e)
    exact ⟨hD, hA, hE'⟩

/-- `inode_alloc` -/
theorem SoundImage.alloc (hlay : sb.Layout K) (hS : SoundImage sb K m) {type : UInt16}
    (hr : inodeAlloc sb m type = some (no, m')) :
    SoundImage sb K m' ∧ no ∉ sb.validInodes m ∧ 1 ≤ no ∧ no ≤ sb.numInodes ∧
      sb.diskEntry m' no = { InodeEntry.zero with type := type } ∧
      ∀ no', no' ≠ no → no' ≤ sb.numInodes → sb.diskEntry m' no' = sb.diskEntry m no' := by
  rw [inodeAlloc] at hr
  split at hr
  · cases hr
  · rcases hf : (List.range' 1 sb.numInodes).find?
        fun no => (sb.diskEntry m no).type = inodeInvalid with - | n
    · rw [hf] at hr
      cases hr
    · rw [hf] at hr
      cases hr
      have hmem := List.mem_of_find?_eq_some hf
      have htype := List.find?_some hf
      rw [List.mem_range'_1] at hmem
      rw [decide_eq_true_eq] at htype
      have hfree : no ∉ sb.validInodes m := fun h => h.2.2 htype
      obtain ⟨hS', hents⟩ := hS.put_empty (e := { InodeEntry.zero with type := type }) hlay hmem.1
        (by omega) (fun m => blocks_of_zero (fun _ => rfl) rfl m) rfl (fun _ _ => rfl)
        (hS.at_free hfree)
      exact ⟨hS', hfree, hmem.1, by omega, SuperBlock.diskEntry_putDiskEntry_self .., hents⟩

/-- The bits after the blocks of one inode were freed. -/
private theorem used_after_clear {V : Set ℕ} {n : ℕ} {m₁ : Disk} (hA : Apart V m e)
    (hE : sb.Exact K n (V ∪ blocks m e) m) (hE' : sb.Exact K n V m₁) (b : ℕ)
    (hb : b < sb.numBlocks) :
    sb.used m₁ b = true ↔ sb.used m b = true ∧ b ∉ blocks m e := by
  rw [hE.bits b hb, hE'.bits b hb]
  constructor
  · rintro (h | h)
    · exact ⟨Or.inl (Or.inl h), fun hb' => hA.off b hb' h⟩
    · exact ⟨Or.inr h, fun hb' => hE.off b (Or.inr hb') h⟩
  · rintro ⟨(h | h) | h, hnot⟩
    · exact Or.inl h
    · exact absurd h hnot
    · exact Or.inr h

/-- `inode_clear` on an allocated inode whose entry is that on the disk; `e'` is what is stored in
the end, without blocks. -/
theorem SoundImage.clear (hlay : sb.Layout K) (hS : SoundImage sb K m)
    (hno : no ∈ sb.validInodes m) :
    ∃ m₁, inodeClear (bcacheAlloc sb) sb m no (sb.diskEntry m no) =
        some ((sb.diskEntry m no).cleared, sb.putDiskEntry m₁ no (sb.diskEntry m no).cleared) ∧
      ∀ e', (∀ m, blocks m e' = ∅) → e'.numBytes = 0 →
        SoundImage sb K (sb.putDiskEntry m₁ no e') ∧
        (∀ no', no' ≠ no → no' ≤ sb.numInodes →
          sb.diskEntry (sb.putDiskEntry m₁ no e') no' = sb.diskEntry m no') ∧
        ∀ b, b < sb.numBlocks → (sb.used (sb.putDiskEntry m₁ no e') b = true ↔
          sb.used m b = true ∧ b ∉ blocks m (sb.diskEntry m no)) := by
  obtain ⟨hD, hA, hE⟩ := hS.at hno
  obtain ⟨m₁, hr, hsame, hE₁⟩ := clear_blocks no hlay.reserved hA hE
  refine ⟨m₁, hr, ?_⟩
  intro e' hb h0
  obtain ⟨hS', hents⟩ := hS.put_empty hlay hno.1 hno.2.1 hb h0 hsame hE₁
  refine ⟨hS', hents, ?_⟩
  intro b hlt
  have hE₂ : sb.Exact K 0 (sb.others m no) (sb.putDiskEntry m₁ no e') :=
    hE₁.sync hlay.reserved (toBlockNo_mem_others hno.2.1)
  exact used_after_clear hA hE hE₂ b hlt

/-- A changed link count is stored. -/
theorem SoundImage.links (hlay : sb.Layout K) (hS : SoundImage sb K m)
    (hno : no ∈ sb.validInodes m) (n : UInt16) :
    SoundImage sb K (sb.putDiskEntry m no { sb.diskEntry m no with numLinks := n }) := by
  obtain ⟨hD, hA, hE⟩ := hS.at hno
  have hmem : sb.toBlockNo no ∈ sb.others m no := toBlockNo_mem_others hno.2.1
  generalize he : { sb.diskEntry m no with numLinks := n } = e
  -- the addresses are the old ones
  have hA' : Apart (sb.others m no) m e := by
    rw [← he]
    exact ⟨hA.inj, hA.off⟩
  have hD' : Dense m e := by
    rw [← he]
    exact hD
  have hE' : sb.Exact K 0 (sb.others m no ∪ blocks m e) m := by
    rw [← he]
    exact hE
  refine hS.change hno.1 hno.2.1 ?_ ?_ ?_ ?_
  · intro no' hne _
    exact SuperBlock.diskEntry_putDiskEntry_of_ne hne
  · intro a _ hne
    exact SuperBlock.putDiskEntry_of_ne hne
  · intro _
    rw [SuperBlock.diskEntry_putDiskEntry_self]
    refine ⟨⟨hD'.1, hD'.2.putDiskEntry hA' hmem e⟩, hA'.putDiskEntry hmem e, ?_⟩
    rw [blocks_putDiskEntry hA' hmem e]
    exact hE'.sync hlay.reserved (Or.inl hmem)
  · intro ht
    rw [SuperBlock.diskEntry_putDiskEntry_self, ← he] at ht
    exact absurd ht hno.2.2

end Change

end OsLab
