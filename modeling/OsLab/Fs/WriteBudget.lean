import OsLab.Fs.Files
import OsLab.Fs.OpRun

/-!
# The blocks that one operation logs

`inode_write` syncs blocks in four places: `cache_alloc` the bitmap block and the block it zeroes,
`inode_map` the indirect block, the loop the block it copies to, and `inode_sync` the block of the
inode.  Where the bitmap is one block, a write that touches `n` blocks of the file syncs `n + 3`
different ones at most: each round of the loop adds one block of data, and the other three are
the same in every round.

The indirect block is the same in every round since the entry has it once it is allocated.  That
needs that `cache_alloc` does not return block 0, which the entry holds for no block: bit 0 is set
on every disk, unless the bitmap is written as data, and then the budget has room for one block
more (`Spent.room`).

## Main definitions

* `touched` — the blocks of the file that a range of bytes lies in.
* `Budget` — the blocks synced are so many blocks of data and three others.
* `Spent` — the invariant of the loop of `inode_write`.
* `log_budget` — one `inode_write`, `inode_insert` or `inode_remove` in an operation.
-/

namespace OsLab

/-- How many blocks of the file the bytes from `offset` to `offset + count` lie in. -/
def touched (offset count : ℕ) : ℕ :=
  if count = 0 then 0 else (offset + count - 1) / blockSize - offset / blockSize + 1

/-- A round of the loop of `inode_write` takes one block off. -/
theorem touched_round {offset count : ℕ} (h : 0 < count) :
    touched offset count = touched (offset + min count (blockSize - offset % blockSize))
      (count - min count (blockSize - offset % blockSize)) + 1 := by
  rw [touched, touched, if_neg (Nat.ne_of_gt h), blockSize_eq]
  split_ifs with h0
  · omega
  · omega

/-- A directory entry at a multiple of its size lies in one block. -/
theorem touched_entry {off : ℕ} (h : 16 ∣ off) : touched off 16 = 1 := by
  rw [touched, if_neg (by decide), blockSize_eq]
  omega

theorem touched_entry_le (index : ℕ) : touched index 16 ≤ 2 := by
  rw [touched, if_neg (by decide), blockSize_eq]
  omega

/-- **The log budget**: `n` blocks of data, the bitmap block, an indirect block, and the block of
inode `no`. -/
def Budget (sb : SuperBlock) (no n : ℕ) (l : List ℕ) : Prop :=
  ∃ (data : Finset ℕ) (ind : ℕ), data.card ≤ n ∧
    ∀ b ∈ l, b ∈ data ∨ b = sb.bblock 0 ∨ b = ind ∨ b = sb.toBlockNo no

section Budget

variable {sb : SuperBlock} {no n : ℕ} {l : List ℕ}

theorem Budget.nil (sb : SuperBlock) (no n : ℕ) : Budget sb no n [] := by
  refine ⟨∅, 0, Nat.zero_le _, ?_⟩
  intro b hb
  cases hb

theorem Budget.card_le (h : Budget sb no n l) : l.toFinset.card ≤ n + 3 := by
  obtain ⟨data, ind, hcard, hl⟩ := h
  have hsub : l.toFinset ⊆ data ∪ {sb.bblock 0, ind, sb.toBlockNo no} := by
    intro b hb
    rw [List.mem_toFinset] at hb
    rw [Finset.mem_union, Finset.mem_insert, Finset.mem_insert, Finset.mem_singleton]
    exact hl b hb
  calc l.toFinset.card
      ≤ (data ∪ {sb.bblock 0, ind, sb.toBlockNo no}).card := Finset.card_le_card hsub
    _ ≤ data.card + ({sb.bblock 0, ind, sb.toBlockNo no} : Finset ℕ).card :=
        Finset.card_union_le _ _
    _ ≤ n + 3 := Nat.add_le_add hcard Finset.card_le_three

/-- The bitmap block among the others. -/
theorem Budget.of_insert {D : Finset ℕ} (ind : ℕ) (hbit : sb.bblock 0 ∈ D) (hD : D.card ≤ n + 1)
    (hl : ∀ b ∈ l, b ∈ D ∨ b = ind ∨ b = sb.toBlockNo no) : Budget sb no n l := by
  refine ⟨D.erase (sb.bblock 0), ind, ?_, ?_⟩
  · rw [Finset.card_erase_of_mem hbit]
    omega
  · intro b hb
    by_cases h0 : b = sb.bblock 0
    · exact Or.inr (Or.inl h0)
    · rcases hl b hb with hb | hb
      · exact Or.inl (Finset.mem_erase.mpr ⟨h0, hb⟩)
      · exact Or.inr (Or.inr hb)

theorem Budget.inode (h : Budget sb no n l) : Budget sb no n (l ++ [sb.toBlockNo no]) := by
  obtain ⟨data, ind, hcard, hl⟩ := h
  refine ⟨data, ind, hcard, ?_⟩
  intro b hb
  rcases List.mem_append.mp hb with hb | hb
  · exact hl b hb
  · exact Or.inr (Or.inr (Or.inr (List.mem_singleton.mp hb)))

end Budget

/-! ## The calls -/

namespace CacheProg

section Calls

variable {sb : SuperBlock} {F : Set ℕ} {I : List ℕ → Prop} {α : Type}
  {Q : α → Disk × List ℕ → Prop} {m : Disk} {l : List ℕ} {b : ℕ} {ctx : Bool}

theorem meets_acquire {f : Sector → CacheProg α}
    (h : ∀ m', Keeps sb F m m' → (f (m' b)).Meets (syncContract sb F I) Q (m', l)) :
    ((acquire b).bind f).Meets (syncContract sb F I) Q (m, l) := by
  refine ⟨trivial, ?_⟩
  rintro r ⟨m', l'⟩ ⟨hkeep, hr, hl⟩
  subst hr hl
  exact h m' hkeep

theorem meets_store {d : Sector} {f : Unit → CacheProg α}
    (h : ∀ m', Keeps sb F m m' →
      (f ()).Meets (syncContract sb F I) Q (Function.update m' b d, l)) :
    ((store b d).bind f).Meets (syncContract sb F I) Q (m, l) := by
  refine ⟨trivial, ?_⟩
  rintro r g' ⟨m', hkeep, rfl⟩
  exact h m' hkeep

theorem meets_sync {f : Unit → CacheProg α} (hI : I (l ++ [b]))
    (h : (f ()).Meets (syncContract sb F I) Q (m, l ++ [b])) :
    ((sync ctx b).bind f).Meets (syncContract sb F I) Q (m, l) := by
  refine ⟨hI, ?_⟩
  rintro r g' rfl
  exact h

theorem meets_release {f : Unit → CacheProg α}
    (h : (f ()).Meets (syncContract sb F I) Q (m, l)) :
    ((release b).bind f).Meets (syncContract sb F I) Q (m, l) := by
  refine ⟨trivial, ?_⟩
  rintro r g' rfl
  exact h

/-! ## `cache_alloc` -/

theorem meets_bzero {Q : Unit → Disk × List ℕ → Prop} (hI : I (l ++ [b]))
    (hQ : ∀ m', Keeps sb F m m' → Q () (Function.update m' b Bytes.zero, l ++ [b])) :
    (bzero ctx b).Meets (syncContract sb F I) Q (m, l) := by
  rw [bzero]
  refine meets_acquire fun m₁ h₁ => meets_store fun m₂ h₂ => meets_sync hI ?_
  exact ⟨trivial, fun r g' hg => hg ▸ hQ m₂ (h₁.trans h₂)⟩

/-- What `cache_alloc` leaves behind where the bitmap is one block. -/
structure Allocated (sb : SuperBlock) (m : Disk) (l : List ℕ) (b : ℕ) (g : Disk × List ℕ) :
    Prop where
  lt : b < sb.numBlocks
  ne_zero : sb.used m 0 = true → b ≠ 0
  used : sb.used m 0 = true → b ≠ sb.bblock 0 → sb.used g.1 0 = true
  synced : g.2 = l ++ [sb.bblock 0] ++ [b]

theorem cacheAllocLoop_of_le {fuel : ℕ} (h : sb.numBlocks ≤ b) :
    cacheAllocLoop sb ctx fuel b = .fail := by
  cases fuel with
  | zero => rfl
  | succ fuel => rw [cacheAllocLoop, if_neg (Nat.not_lt.mpr h)]

theorem meets_cacheAlloc (hone : sb.numBlocks ≤ bitPerBlock)
    (hI : ∀ b, b < sb.numBlocks → (sb.used m 0 = true → b ≠ 0) →
      I (l ++ [sb.bblock 0]) ∧ I (l ++ [sb.bblock 0] ++ [b])) :
    (cacheAlloc sb ctx).Meets (syncContract sb F I) (Allocated sb m l) (m, l) := by
  rw [cacheAlloc, cacheAllocLoop]
  split_ifs with hpos
  · refine meets_acquire fun m₁ h₁ => ?_
    have hbit : sb.used m 0 = true → (m₁ (sb.bblock 0)).bit 0 = true := h₁.used
    cases hfree : freeBit sb (m₁ (sb.bblock 0)) 0 with
    | none =>
        refine meets_release ?_
        rw [cacheAllocLoop_of_le (by omega)]
        trivial
    | some bi =>
        obtain ⟨hbi, hlt, hclear⟩ := freeBit_some hfree
        rw [Nat.zero_add] at hlt
        have hne : sb.used m 0 = true → bi ≠ 0 := by
          intro hu h0
          rw [h0, hbit hu] at hclear
          cases hclear
        obtain ⟨hI₁, hI₂⟩ := hI bi hlt hne
        refine meets_store fun m₂ h₂ => meets_sync hI₁ (meets_release ?_)
        rw [Nat.zero_add]
        refine Prog.Meets.bind (meets_bzero hI₂ ?_) fun _ g hg => hg
        intro m₃ h₃
        refine ⟨hlt, hne, ?_, rfl⟩
        intro hu hb
        have hset : sb.used (Function.update m₂ (sb.bblock 0)
            ((m₁ (sb.bblock 0)).setBit bi)) 0 = true := by
          rw [SuperBlock.used, Function.update_self, Nat.zero_mod, Bytes.bit_setBit _ hbi,
            hbit hu, Bool.or_true]
        rw [SuperBlock.used_congr (Function.update_of_ne hb.symm _ _)]
        exact h₃.used hset
  · trivial

end Calls

end CacheProg

/-! ## The invariant of the loop -/

/-- **What `n` rounds have spent**, where the entry has `ind` for its indirect block: `D` is the
bitmap block and the blocks of data. -/
structure Spent (sb : SuperBlock) (n : ℕ) (ind : UInt32) (D : Finset ℕ) (g : Disk × List ℕ) :
    Prop where
  bitmap : sb.bblock 0 ∈ D
  card : D.card ≤ n + 1
  blocks : ∀ b ∈ g.2, b ∈ D ∨ ind ≠ 0 ∧ b = ind.toNat
  /-- an indirect block is not allocated twice -/
  room : sb.used g.1 0 = true ∨ ind ≠ 0 ∨ (insert 0 D).card ≤ n + 1

/-- Round `n` has chosen `b` for the block of data. -/
structure Chosen (sb : SuperBlock) (n : ℕ) (ind : UInt32) (D : Finset ℕ) (b : ℕ)
    (g : Disk × List ℕ) : Prop extends Spent sb (n + 1) ind D g where
  mem : b ∈ D
  bitmap_data : b = sb.bblock 0 → D.card ≤ n + 1

/-- The entry has `b` for its indirect block, or `b` is block 0 and counted as data. -/
def IndirectIn (ind : UInt32) (D : Finset ℕ) (b : ℕ) : Prop :=
  ind ≠ 0 ∧ b = ind.toNat ∨ b = 0 ∧ 0 ∈ D

section Spent

variable {sb : SuperBlock} {F : Set ℕ} {no n N b : ℕ} {ind : UInt32} {D : Finset ℕ}
  {m m' : Disk} {l : List ℕ} {g : Disk × List ℕ}

theorem Spent.start (h : sb.used m 0 = true) (ind : UInt32) :
    Spent sb 0 ind {sb.bblock 0} (m, []) where
  bitmap := Finset.mem_singleton_self _
  card := le_of_eq (Finset.card_singleton _)
  blocks := by
    intro b hb
    cases hb
  room := Or.inl h

theorem Spent.budget (h : Spent sb n ind D g) (hn : n ≤ N) : Budget sb no N g.2 := by
  refine .of_insert ind.toNat h.bitmap (h.card.trans (Nat.succ_le_succ hn)) ?_
  intro b hb
  rcases h.blocks b hb with hD | hind
  · exact Or.inl hD
  · exact Or.inr (Or.inl hind.2)

theorem Spent.kept (h : Spent sb n ind D (m, l)) (hk : Keeps sb F m m') :
    Spent sb n ind D (m', l) where
  bitmap := h.bitmap
  card := h.card
  blocks := h.blocks
  room := h.room.imp_left hk.used

theorem Spent.sync (h : Spent sb n ind D (m, l)) (hb : b ∈ D ∨ ind ≠ 0 ∧ b = ind.toNat) :
    Spent sb n ind D (m, l ++ [b]) where
  bitmap := h.bitmap
  card := h.card
  blocks := by
    intro c hc
    rcases List.mem_append.mp hc with hc | hc
    · exact h.blocks c hc
    · rw [List.mem_singleton.mp hc]
      exact hb
  room := h.room

/-- One block of data more. -/
theorem Spent.choose (h : Spent sb n ind D g) (b : ℕ) : Chosen sb n ind (insert b D) b g where
  bitmap := Finset.mem_insert_of_mem h.bitmap
  card := (Finset.card_insert_le _ _).trans (Nat.succ_le_succ h.card)
  blocks := by
    intro c hc
    exact (h.blocks c hc).imp_left Finset.mem_insert_of_mem
  room := by
    refine h.room.imp_right (Or.imp_right fun hroom => ?_)
    rw [Finset.insert_comm]
    exact (Finset.card_insert_le _ _).trans (Nat.succ_le_succ hroom)
  mem := Finset.mem_insert_self _ _
  bitmap_data := by
    rintro rfl
    rw [Finset.insert_eq_of_mem h.bitmap]
    exact h.card

/-- A change of the block chosen.  If that is the bitmap, the round has added no block. -/
theorem Chosen.store (h : Chosen sb n ind D b (m, l)) (d : Sector) :
    Spent sb (n + 1) ind D (Function.update m b d, l) where
  bitmap := h.bitmap
  card := h.card
  blocks := h.blocks
  room := by
    by_cases hb : b = sb.bblock 0
    · refine Or.inr (Or.inr ((Finset.card_insert_le _ _).trans ?_))
      exact Nat.succ_le_succ (h.bitmap_data hb)
    · rw [SuperBlock.used_congr (Function.update_of_ne (Ne.symm hb) _ _)]
      exact h.room

/-- `cache_alloc` of a block of data. -/
theorem Spent.alloc (h : Spent sb n ind D (m, l)) (ha : CacheProg.Allocated sb m l b g) :
    Chosen sb n ind (insert b D) b g := by
  obtain ⟨m', l'⟩ := g
  obtain rfl : l' = l ++ [sb.bblock 0] ++ [b] := ha.synced
  have hch := h.choose b
  have hroom : sb.used m' 0 = true ∨ ind ≠ 0 ∨ (insert 0 (insert b D)).card ≤ n + 1 + 1 := by
    by_cases hb : b = sb.bblock 0
    · refine Or.inr (Or.inr ((Finset.card_insert_le _ _).trans ?_))
      exact Nat.succ_le_succ (hch.bitmap_data hb)
    · exact hch.room.imp_left fun hu => ha.used hu hb
  have hsync := (hch.sync (Or.inl hch.bitmap)).sync (Or.inl hch.mem)
  exact ⟨⟨hch.bitmap, hch.card, hsync.blocks, hroom⟩, hch.mem, hch.bitmap_data⟩

theorem IndirectIn.mem_or (h : IndirectIn ind D b) : b ∈ D ∨ ind ≠ 0 ∧ b = ind.toNat := by
  rcases h with h | ⟨rfl, h⟩
  · exact Or.inr h
  · exact Or.inl h

/-- Where there is an indirect block the bitmap does not matter any more. -/
theorem Spent.of_indirect (h : Spent sb n ind D (m, l)) (hind : IndirectIn ind D b) (m' : Disk) :
    Spent sb n ind D (m', l) where
  bitmap := h.bitmap
  card := h.card
  blocks := h.blocks
  room := by
    rcases hind with hind | ⟨-, h0⟩
    · exact Or.inr (Or.inl hind.1)
    · rw [Finset.insert_eq_of_mem h0]
      exact Or.inr (Or.inr h.card)

/-- A block for the indirect block.  If it is block 0, the next round allocates another, and there
is room for this one. -/
theorem Spent.indirect (h : Spent sb n 0 D (m, l)) (hb : b < 2 ^ 32)
    (hne : sb.used m 0 = true → b ≠ 0) :
    ∃ D', Spent sb n (UInt32.ofNat b) D' (m, l) ∧ IndirectIn (UInt32.ofNat b) D' b := by
  have hblocks : ∀ c ∈ l, c ∈ D := by
    intro c hc
    exact (h.blocks c hc).resolve_right fun hind => hind.1 rfl
  have htoNat : (UInt32.ofNat b).toNat = b := UInt32.toNat_ofNat_of_lt' hb
  by_cases hb0 : b = 0
  · subst hb0
    have hroom : (insert 0 D).card ≤ n + 1 := by
      rcases h.room with hu | h0 | hroom
      · exact absurd rfl (hne hu)
      · exact absurd rfl h0
      · exact hroom
    refine ⟨insert 0 D, ?_, Or.inr ⟨rfl, Finset.mem_insert_self _ _⟩⟩
    refine ⟨Finset.mem_insert_of_mem h.bitmap, hroom, ?_, ?_⟩
    · intro c hc
      exact Or.inl (Finset.mem_insert_of_mem (hblocks c hc))
    · rw [Finset.insert_idem]
      exact Or.inr (Or.inr hroom)
  · have hind : UInt32.ofNat b ≠ 0 := by
      intro h0
      rw [h0] at htoNat
      exact hb0 htoNat.symm
    refine ⟨D, ?_, Or.inl ⟨hind, htoNat.symm⟩⟩
    exact ⟨h.bitmap, h.card, fun c hc => Or.inl (hblocks c hc), Or.inr (Or.inl hind)⟩

end Spent

/-! ## `inode_map` and `inode_write` -/

namespace CacheProg

section Write

variable {sb : SuperBlock} {F : Set ℕ} {no n N k : ℕ} {e : InodeEntry} {D : Finset ℕ}
  {m : Disk} {l : List ℕ} {ctx : Bool}

/-- `cache_alloc` of a block of data. -/
theorem meets_alloc_data {ind : UInt32} (hone : sb.numBlocks ≤ bitPerBlock)
    (h : Spent sb n ind D (m, l)) (hn : n < N) :
    (cacheAlloc sb ctx).Meets (syncContract sb F (Budget sb no N))
      (fun b g => Chosen sb n ind (insert b D) b g) (m, l) := by
  refine (meets_cacheAlloc hone ?_).mono fun b g ha => h.alloc ha
  intro b _ _
  have hbit := h.sync (Or.inl h.bitmap)
  have hch := hbit.choose b
  exact ⟨hbit.budget (Nat.le_of_lt hn), (hch.sync (Or.inl hch.mem)).budget hn⟩

theorem meets_mapIndirect (hone : sb.numBlocks ≤ bitPerBlock)
    (h : Spent sb n e.indirect D (m, l)) (hn : n ≤ N) :
    (mapIndirect sb ctx e).Meets (syncContract sb F (Budget sb no N))
      (fun r g => ∃ D', Spent sb n r.2.indirect D' g ∧ IndirectIn r.2.indirect D' r.1)
      (m, l) := by
  rw [mapIndirect]
  split_ifs with h0
  · rw [h0] at h
    have hlt : ∀ {b}, b < sb.numBlocks → b < 2 ^ 32 := by
      intro b hb
      rw [bitPerBlock_eq] at hone
      omega
    refine Prog.Meets.bind (meets_cacheAlloc hone ?_) ?_
    · intro b hb hne
      obtain ⟨D', hD, hind⟩ := h.indirect (hlt hb) hne
      have hbit := hD.sync (Or.inl hD.bitmap)
      exact ⟨hbit.budget hn, (hbit.sync hind.mem_or).budget hn⟩
    · rintro b ⟨m', l'⟩ ha
      obtain rfl : l' = l ++ [sb.bblock 0] ++ [b] := ha.synced
      obtain ⟨D', hD, hind⟩ := h.indirect (hlt ha.lt) ha.ne_zero
      have hsync := (hD.sync (Or.inl hD.bitmap)).sync hind.mem_or
      exact ⟨D', hsync.of_indirect hind m', hind⟩
  · exact ⟨D, h, Or.inl ⟨h0, rfl⟩⟩

theorem meets_mapTable {ind : UInt32} {b i : ℕ} (hone : sb.numBlocks ≤ bitPerBlock)
    (h : Spent sb n ind D (m, l)) (hind : IndirectIn ind D b) (hn : n < N) :
    (mapTable sb ctx b i).Meets (syncContract sb F (Budget sb no N))
      (fun r g => ∃ D', Chosen sb n ind D' r.1 g) (m, l) := by
  rw [mapTable]
  refine meets_acquire fun m₁ h₁ => ?_
  split_ifs with h0
  · refine Prog.Meets.bind (meets_alloc_data hone (h.kept h₁) hn) ?_
    rintro a ⟨m₂, l₂⟩ hch
    have hind' : IndirectIn ind (insert a D) b :=
      hind.imp_right fun h0 => ⟨h0.1, Finset.mem_insert_of_mem h0.2⟩
    have hsync := hch.toSpent.sync hind'.mem_or
    refine meets_store fun m₃ h₃ => meets_sync ?_ (meets_release ?_)
    · exact hsync.budget hn
    · exact ⟨insert a D, hsync.of_indirect hind' _, hch.mem, hch.bitmap_data⟩
  · exact meets_release ⟨_, (h.kept h₁).choose _⟩

theorem meets_inodeMap (hone : sb.numBlocks ≤ bitPerBlock)
    (h : Spent sb n e.indirect D (m, l)) (hn : n < N) :
    (inodeMap sb ctx e k).Meets (syncContract sb F (Budget sb no N))
      (fun r g => ∃ D', Chosen sb n r.2.2.indirect D' r.1 g) (m, l) := by
  rw [inodeMap]
  split_ifs
  · refine Prog.Meets.bind (meets_alloc_data hone h hn) ?_
    intro b g hch
    exact ⟨_, hch⟩
  · exact ⟨_, h.choose _⟩
  · refine Prog.Meets.bind (meets_mapIndirect hone h (Nat.le_of_lt hn)) ?_
    rintro ⟨ind, e'⟩ ⟨m', l'⟩ ⟨D', hD, hind⟩
    refine Prog.Meets.bind (meets_mapTable hone hD hind hn) ?_
    rintro ⟨b, modified⟩ g hch
    exact hch
  · trivial

/-- **The loop of `inode_write`** spends one block of data in each round. -/
theorem meets_writeLoop (hone : sb.numBlocks ≤ bitPerBlock) {fuel offset : ℕ} {src : List UInt8}
    (h : Spent sb n e.indirect D (m, l)) (hn : n + touched offset src.length ≤ N) :
    (writeLoop sb ctx fuel e offset src).Meets (syncContract sb F (Budget sb no N))
      (fun e' g => ∃ n' D', n' ≤ N ∧ Spent sb n' e'.indirect D' g) (m, l) := by
  induction fuel generalizing n e D m l offset src with
  | zero =>
      rw [writeLoop]
      split_ifs
      · exact ⟨n, D, by omega, h⟩
      · trivial
  | succ fuel ih =>
      rw [writeLoop]
      split_ifs with hsrc
      · exact ⟨n, D, by omega, h⟩
      · have hpos : 0 < src.length := List.length_pos_of_ne_nil hsrc
        rw [touched_round hpos] at hn
        refine Prog.Meets.bind (meets_inodeMap hone h (by omega)) ?_
        rintro ⟨b, modified, e'⟩ ⟨m₁, l₁⟩ ⟨D', hch⟩
        refine meets_acquire fun m₂ h₂ => meets_store fun m₃ h₃ => ?_
        have hkept : Chosen sb n e'.indirect D' b (m₃, l₁) :=
          ⟨hch.toSpent.kept (h₂.trans h₃), hch.mem, hch.bitmap_data⟩
        have hsync := (hkept.store ((m₂ b).splice (offset % blockSize)
          (src.take (min src.length (blockSize - offset % blockSize))))).sync (Or.inl hch.mem)
        refine meets_sync (hsync.budget (by omega)) (meets_release (ih hsync ?_))
        rw [List.length_drop]
        omega

theorem meets_inodeSync {valid doWrite : Bool} (h : Budget sb no N l) :
    (inodeSync sb ctx no valid e doWrite).Meets (syncContract sb F (Budget sb no N))
      (fun _ _ => True) (m, l) := by
  rw [inodeSync]
  refine meets_acquire fun m₁ h₁ => ?_
  split_ifs
  · exact meets_store fun m₂ h₂ => meets_sync h.inode (meets_release trivial)
  · exact meets_release trivial
  · exact meets_release trivial

/-- **`inode_write` keeps to the budget.** -/
theorem meets_inodeWrite (hone : sb.numBlocks ≤ bitPerBlock) {offset : ℕ} {src : List UInt8}
    (hused : sb.used m 0 = true) (hn : touched offset src.length ≤ N) :
    (inodeWrite sb ctx no e offset src).Meets (syncContract sb F (Budget sb no N))
      (fun _ _ => True) (m, []) := by
  simp only [inodeWrite]
  split_ifs
  · refine Prog.Meets.bind (meets_writeLoop hone (Spent.start hused _) (by omega)) ?_
    rintro e' ⟨m', l'⟩ ⟨n', D', hn', hD⟩
    split_ifs
    · exact (meets_inodeSync (hD.budget hn')).bind fun _ _ _ => trivial
    · trivial
  · trivial

end Write

/-! ## `inode_lookup` and `inode_insert` -/

/-- The indirect block, which only a thread with the lock of the inode changes. -/
def indirectBlock (e : InodeEntry) : Set ℕ := { b | e.indirect ≠ 0 ∧ b = e.indirect.toNat }

section Lookup

variable {sb : SuperBlock} {F : Set ℕ} {I : List ℕ → Prop} {e : InodeEntry} {m₀ m : Disk}
  {l : List ℕ}

/-- A block that is mapped stays where it is as long as the indirect block does. -/
theorem meets_inodeMap_mapped {ctx : Bool} {k : ℕ} (hF : indirectBlock e ⊆ F)
    (hm : Keeps sb F m₀ m) (h0 : blockAddr m₀ e k ≠ 0) :
    (inodeMap sb ctx e k).Meets (syncContract sb F I)
      (fun r g => r.2.2 = e ∧ Keeps sb F m₀ g.1 ∧ g.2 = l) (m, l) := by
  rw [inodeMap]
  by_cases hk : k < inodeNumDirect
  · rw [blockAddr, if_pos hk] at h0
    rw [if_pos hk, if_neg h0]
    exact ⟨rfl, hm, rfl⟩
  · rw [blockAddr, if_neg hk] at h0
    have hind : e.indirect ≠ 0 := by
      intro h
      rw [if_pos h] at h0
      exact h0 rfl
    rw [if_neg hind] at h0
    rw [if_neg hk]
    split_ifs
    · rw [mapIndirect, if_neg hind]
      have htable : (mapTable sb ctx e.indirect.toNat (k - inodeNumDirect)).Meets
          (syncContract sb F I) (fun _ g => Keeps sb F m₀ g.1 ∧ g.2 = l) (m, l) := by
        rw [mapTable]
        refine meets_acquire fun m₁ h₁ => ?_
        have hword : (m₁ e.indirect.toNat).word (4 * (k - inodeNumDirect)) 4 ≠ 0 := by
          rw [(hm.trans h₁).locked _ (hF ⟨hind, rfl⟩)]
          exact h0
        rw [if_neg hword]
        exact meets_release ⟨hm.trans h₁, rfl⟩
      exact htable.bind fun r g hg => ⟨rfl, hg⟩
    · trivial

theorem meets_readLoop {fuel offset count : ℕ} (hF : indirectBlock e ⊆ F) (hD : Dense m₀ e)
    (hm : Keeps sb F m₀ m) (hle : offset + count ≤ e.numBytes.toNat) :
    (readLoop sb fuel e offset count).Meets (syncContract sb F I)
      (fun r g => r.2 = e ∧ Keeps sb F m₀ g.1 ∧ g.2 = l) (m, l) := by
  induction fuel generalizing offset count m with
  | zero =>
      rw [readLoop]
      split_ifs
      · exact ⟨rfl, hm, rfl⟩
      · trivial
  | succ fuel ih =>
      rw [readLoop]
      split_ifs with h0
      · exact ⟨rfl, hm, rfl⟩
      · have hmapped : blockAddr m₀ e (offset / blockSize) ≠ 0 := hD.blockAddr_ne_zero (by omega)
        refine (meets_inodeMap_mapped hF hm hmapped).bind ?_
        rintro ⟨b, modified, e'⟩ ⟨m', l'⟩ ⟨he, hm', hl⟩
        obtain rfl : e' = e := he
        obtain rfl : l' = l := hl
        refine meets_acquire fun m₁ h₁ => meets_release ?_
        refine (ih (hm'.trans h₁) (by omega)).bind ?_
        rintro ⟨rest, e''⟩ g hg
        exact hg

theorem meets_inodeRead {offset count : ℕ} (hF : indirectBlock e ⊆ F) (hD : Dense m₀ e)
    (hm : Keeps sb F m₀ m) (hcount : count < 2 ^ 64) :
    (inodeRead sb e offset count).Meets (syncContract sb F I)
      (fun r g => r.2.2 = e ∧ Keeps sb F m₀ g.1 ∧ g.2 = l) (m, l) := by
  have hsize := e.numBytes.toNat_lt
  simp only [inodeRead]
  generalize hc : (if (count + offset) % 2 ^ 64 > e.numBytes.toNat then
    (e.numBytes.toNat + 2 ^ 64 - offset) % 2 ^ 64 else count) = count'
  have hcount' : count' < 2 ^ 64 := by
    rw [← hc]
    split_ifs
    · exact Nat.mod_lt _ (by decide)
    · exact hcount
  split_ifs with hok
  · refine (meets_readLoop hF hD hm (by omega)).bind ?_
    rintro ⟨dest, e'⟩ g hg
    exact hg
  · trivial

theorem meets_readEntry {off : ℕ} (hF : indirectBlock e ⊆ F) (hD : Dense m₀ e)
    (hm : Keeps sb F m₀ m) :
    (readEntry sb e off).Meets (syncContract sb F I)
      (fun r g => r.2 = e ∧ Keeps sb F m₀ g.1 ∧ g.2 = l) (m, l) := by
  refine (meets_inodeRead hF hD hm (by decide)).bind ?_
  rintro ⟨r, dest, e'⟩ g hg
  dsimp only
  split_ifs
  · trivial
  · exact hg

theorem meets_lookupLoop {name : List UInt8} {fuel off : ℕ} (hF : indirectBlock e ⊆ F)
    (hD : Dense m₀ e) (hm : Keeps sb F m₀ m) :
    (lookupLoop sb name fuel e off).Meets (syncContract sb F I)
      (fun r g => r.2 = e ∧ Keeps sb F m₀ g.1 ∧ g.2 = l) (m, l) := by
  induction fuel generalizing off m with
  | zero => trivial
  | succ fuel ih =>
      rw [lookupLoop]
      split_ifs
      · refine (meets_readEntry hF hD hm).bind ?_
        rintro ⟨de, e'⟩ ⟨m', l'⟩ ⟨he, hm', hl⟩
        obtain rfl : e' = e := he
        obtain rfl : l' = l := hl
        dsimp only
        split_ifs
        · exact ih hm'
        · exact ⟨rfl, hm', rfl⟩
        · exact ih hm'
      · exact ⟨rfl, hm, rfl⟩

theorem meets_freeLoop {fuel off : ℕ} (hF : indirectBlock e ⊆ F) (hD : Dense m₀ e)
    (hm : Keeps sb F m₀ m) (hoff : 16 ∣ off) :
    (freeLoop sb fuel e off).Meets (syncContract sb F I)
      (fun r g => (16 ∣ r.1 ∧ r.2 = e) ∧ Keeps sb F m₀ g.1 ∧ g.2 = l) (m, l) := by
  induction fuel generalizing off m with
  | zero => trivial
  | succ fuel ih =>
      rw [freeLoop]
      split_ifs
      · refine (meets_readEntry hF hD hm).bind ?_
        rintro ⟨de, e'⟩ ⟨m', l'⟩ ⟨he, hm', hl⟩
        obtain rfl : e' = e := he
        obtain rfl : l' = l := hl
        dsimp only
        split_ifs
        · exact ⟨⟨hoff, rfl⟩, hm', rfl⟩
        · exact ih hm' (by omega)
      · exact ⟨⟨hoff, rfl⟩, hm, rfl⟩

/-- **`inode_insert` keeps to the budget**: nothing is synced before the write of the entry. -/
theorem meets_inodeInsert {ctx : Bool} {no inodeNo : ℕ} {name : List UInt8}
    (hone : sb.numBlocks ≤ bitPerBlock) (hused : sb.used m₀ 0 = true) (hD : Dense m₀ e)
    (hF : indirectBlock e ⊆ F) :
    (inodeInsert sb ctx no e name inodeNo).Meets (syncContract sb F (Budget sb no 1))
      (fun _ _ => True) (m₀, []) := by
  rw [inodeInsert]
  split_ifs with htype
  · have hlook : (inodeLookup sb e name).Meets (syncContract sb F (Budget sb no 1))
        (fun r g => r.2.2 = e ∧ Keeps sb F m₀ g.1 ∧ g.2 = []) (m₀, []) := by
      rw [inodeLookup, if_pos htype]
      refine (meets_lookupLoop hF hD (Keeps.refl sb F m₀)).bind ?_
      rintro ⟨_ | ⟨inum, off⟩, e'⟩ g hg
      · exact hg
      · exact hg
    refine hlook.bind ?_
    rintro ⟨inum, index, e'⟩ ⟨m₁, l₁⟩ ⟨he, hm₁, hl⟩
    obtain rfl : e' = e := he
    obtain rfl : l₁ = [] := hl
    dsimp only
    split_ifs
    · trivial
    · refine (meets_freeLoop hF hD hm₁ (Nat.dvd_zero 16)).bind ?_
      rintro ⟨off, e''⟩ ⟨m₂, l₂⟩ ⟨⟨hoff, he⟩, hm₂, hl⟩
      obtain rfl : e'' = e' := he
      obtain rfl : l₂ = [] := hl
      have htouched : touched off (DirEntry.make name inodeNo).bytes.length ≤ 1 := by
        rw [DirEntry.length_bytes, touched_entry hoff]
      exact (meets_inodeWrite hone (hm₂.used hused) htouched).bind fun _ _ _ => trivial
  · trivial

theorem meets_inodeRemove {ctx : Bool} {no index : ℕ} (hone : sb.numBlocks ≤ bitPerBlock)
    (hused : sb.used m₀ 0 = true) :
    (inodeRemove sb ctx no e index).Meets (syncContract sb F (Budget sb no (touched index 16)))
      (fun _ _ => True) (m₀, []) := by
  rw [inodeRemove]
  split_ifs
  · have htouched : touched index DirEntry.zero.bytes.length ≤ touched index 16 := by
      rw [DirEntry.length_bytes]
    exact (meets_inodeWrite hone hused htouched).bind fun _ _ _ => trivial
  · trivial

end Lookup

end CacheProg

/-! ## One call in an operation -/

/-- **Within the budget**: thread `t` has synced `n` blocks of data and three others at most, and
where it calls `cache_sync` next, that does not panic. -/
structure WithinBudget {α : Type} (sb : SuperBlock) (t no n : ℕ) (x : OpRun × CacheProg α) :
    Prop where
  budget : Budget sb no n x.1.synced
  card : x.1.synced.toFinset.card ≤ n + 3
  no_panic : ∀ b k, x.2 = .call (.sync true b) k → (x.1.sys.sync t b).isSome

/-- A program within the budget of an operation stays there in every run. -/
theorem within_of_meets {α : Type} {sb : SuperBlock} {disk : ℕ → Sector} {s : LogSys}
    {t no n : ℕ} {F : Set ℕ} {p : CacheProg α} {Q : α → Disk × List ℕ → Prop}
    {x : OpRun × CacheProg α}
    (hs : Reach (LogSys.step sb) (fun _ _ => True) (LogSys.start disk) s) (hop : s.pc t = .inOp)
    (hfresh : s.synced t = []) (hn : n + 3 ≤ opMaxNumBlocks)
    (hp : p.Meets (syncContract sb F (Budget sb no n)) Q (s.view, []))
    (hx : Reach (Prog.step (OpRun.answer t) (OpRun.others sb)) (Respects sb t F) (⟨s, []⟩, p) x) :
    WithinBudget sb t no n x := by
  obtain ⟨hbudget, hpanic⟩ := meets_of_reach hs hop hfresh (Budget.nil sb no n)
    (fun l hl => hl.card_le.trans hn) hp hx
  exact ⟨hbudget, hbudget.card_le, hpanic⟩

/-- **The log budget of a write.**  On a disk whose bitmap is one block and has block 0 in use, a
thread has begun an operation and synced nothing in it, and holds the lock of a dense inode.
Whatever the other threads do, its next `inode_write` of a range that touches no more than
`OP_MAX_NUM_BLOCKS - 3` blocks of the file stays within the budget, and so do `inode_insert` and
`inode_remove`. -/
theorem log_budget {sb : SuperBlock} {disk : ℕ → Sector} {s : LogSys} {t no : ℕ} {e : InodeEntry}
    (hone : sb.numBlocks ≤ bitPerBlock)
    (hs : Reach (LogSys.step sb) (fun _ _ => True) (LogSys.start disk) s) (hop : s.pc t = .inOp)
    (hfresh : s.synced t = []) (hused : sb.used s.view 0 = true) (hD : Dense s.view e) :
    (∀ offset src x, touched offset src.length + 3 ≤ opMaxNumBlocks →
      Reach (Prog.step (OpRun.answer t) (OpRun.others sb)) (Respects sb t ∅)
        (⟨s, []⟩, CacheProg.inodeWrite sb true no e offset src) x →
      WithinBudget sb t no (touched offset src.length) x) ∧
    (∀ name inodeNo x,
      Reach (Prog.step (OpRun.answer t) (OpRun.others sb))
        (Respects sb t (CacheProg.indirectBlock e))
        (⟨s, []⟩, CacheProg.inodeInsert sb true no e name inodeNo) x →
      WithinBudget sb t no 1 x) ∧
    ∀ index x,
      Reach (Prog.step (OpRun.answer t) (OpRun.others sb)) (Respects sb t ∅)
        (⟨s, []⟩, CacheProg.inodeRemove sb true no e index) x →
      WithinBudget sb t no (touched index 16) x := by
  refine ⟨?_, ?_, ?_⟩
  · intro offset src x hn hx
    exact within_of_meets hs hop hfresh hn
      (CacheProg.meets_inodeWrite hone hused (Nat.le_refl _)) hx
  · intro name inodeNo x hx
    exact within_of_meets hs hop hfresh (by decide)
      (CacheProg.meets_inodeInsert hone hused hD (Set.Subset.refl _)) hx
  · intro index x hx
    refine within_of_meets hs hop hfresh ?_ (CacheProg.meets_inodeRemove hone hused) hx
    have := touched_entry_le index
    rw [opMaxNumBlocks_eq]
    omega

/-- One byte is written to an empty file: the bitmap, the block of data, zeroed and written, and
the inode. -/
theorem log_budget_one : ∃ y r, y.synced = [91, 92, 92, 65] ∧
    @WithinBudget (ℕ × InodeEntry) Mkfs.sb 0 1 1 (y, .ret r) := by
  obtain ⟨s, hs, hop, hfresh, hview, hexec⟩ : ∃ s,
      Reach (LogSys.step Mkfs.sb) (fun _ _ => True) (LogSys.start Sample.disk) s ∧
      s.pc 0 = .inOp ∧ s.synced 0 = [] ∧ s.view = Sample.disk ∧
      ((CacheProg.inodeWrite Mkfs.sb true 1 (Sample.entry inodeRegular) 0 [7]).exec
        (OpRun.answer 0) ⟨s, []⟩).map (fun r => r.2.synced) = some [91, 92, 92, 65] :=
    ⟨_, Reach.init.of_runs [(0, .beginOp), (0, .run)] rfl, rfl, rfl, rfl, by decide +kernel⟩
  obtain ⟨⟨r, y⟩, hrun, hsynced⟩ := Option.map_eq_some_iff.mp hexec
  have hused : Mkfs.sb.used s.view 0 = true := by
    rw [hview]
    exact (Sample.used_disk (by decide)).mpr (by decide)
  refine ⟨y, r, hsynced, ?_⟩
  exact (log_budget (by decide) hs hop hfresh hused (Sample.dense_entry _ _)).1 0 [7] _ (by decide)
    (Reach.init.of_exec (fun _ => trivial) hrun)

end OsLab
