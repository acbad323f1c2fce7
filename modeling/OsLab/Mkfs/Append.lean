import OsLab.Mkfs.Image

/-!
# `iappend`

What `iappend` of mkfs does to the file it appends to.  mkfs has no bitmap while it
runs: the blocks from `freeblock` on are free, and still zero.  A new block therefore
changes no byte of the file, as with the kernel's allocator, and a round of the loop
is a round of a write.

## Main definitions

* `Room` — the state of the loop.
* `total` — the blocks of a file with its indirect block.
* `Appended`, `appendLoop_spec` — the loop.
* `appendLoop_isSome` — it runs to its end where there is room.
-/

namespace OsLab.Mkfs

variable {V : Set ℕ} {s s' : State} {din din' : InodeEntry} {n k x : ℕ} {buf : Sector}

theorem seek_of_lt {sec : ℕ} (h : sec < 2 ^ 23) : seek sec = sec := by
  simp only [seek, blockSize_eq]
  omega

theorem rsect_of_lt {sec : ℕ} (hsize : s.size = fsSize) (h : sec < fsSize) :
    rsect s sec = some (s.img sec) := by
  have hlt : fsSize < 2 ^ 23 := by decide
  rw [rsect, seek_of_lt (by omega), hsize, if_pos h]

theorem rsect_eq_some {sec : ℕ} (hsize : s.size = fsSize) (hsec : sec < 2 ^ 23)
    (h : rsect s sec = some buf) : sec < fsSize ∧ buf = s.img sec := by
  rw [rsect, seek_of_lt hsec, hsize] at h
  split at h
  · rename_i hlt
    cases h
    exact ⟨hlt, rfl⟩
  · cases h

theorem wsect_of_lt {sec : ℕ} (hsize : s.size = fsSize) (h : sec < fsSize) (buf : Sector) :
    wsect s sec buf = { s with img := Function.update s.img sec buf } := by
  have hlt : fsSize < 2 ^ 23 := by decide
  rw [wsect, seek_of_lt (by omega), hsize, Nat.max_eq_left h]

/-- A file apart from the blocks `V`, while the blocks from `freeblock` on are free. -/
structure Room (V : Set ℕ) (s : State) (din : InodeEntry) : Prop where
  size : s.size = fsSize
  lo : nmeta ≤ s.freeblock
  hi : s.freeblock ≤ fsSize
  zero : ∀ b, s.freeblock ≤ b → s.img b = Bytes.zero
  others : ∀ b ∈ V, b < s.freeblock
  own : ∀ b ∈ blocks s.img din, b < s.freeblock
  apart : Apart V s.img din

/-- The next free block is one that nobody uses. -/
theorem Room.fresh (hR : Room V s din) : FreshBlock V s.img din s.freeblock s.img where
  off := ⟨fun h => Nat.lt_irrefl _ (hR.others _ h), fun h => Nat.lt_irrefl _ (hR.own _ h)⟩
  ne_zero := by
    have := hR.lo
    have : 0 < nmeta := by decide
    omega
  lt := Nat.lt_of_le_of_lt hR.hi (by decide)
  zero := hR.zero _ (le_refl _)
  others := fun _ _ => rfl
  own := fun _ _ => rfl

/-- Block `k` of the file is the block `x`, taken from the free ones if there was none. -/
structure Placed (V : Set ℕ) (s : State) (din : InodeEntry) (k x : ℕ) (s' : State)
    (din' : InodeEntry) : Prop where
  step : MapStep V s.img din k x s'.img din'
  inode : s'.freeinode = s.freeinode
  size : s'.size = s.size
  free : s'.freeblock = s.freeblock + mapCost s.img din k
  hi : s'.freeblock ≤ fsSize
  blocks : blocks s'.img din' = blocks s.img din ∪ { b | s.freeblock ≤ b ∧ b < s'.freeblock }
  frame : ∀ b, b ∉ OsLab.blocks s'.img din' → s'.img b = s.img b
  table : din'.indirect ≠ 0 → din.indirect ≠ 0 ∨ inodeNumDirect ≤ k

private theorem insert_free (B : Set ℕ) (a : ℕ) :
    insert a B = B ∪ { b | a ≤ b ∧ b < a + 1 } := by
  ext b
  simp only [Set.mem_insert_iff, Set.mem_union, Set.mem_ofPred_eq]
  constructor
  · rintro (rfl | h)
    · exact Or.inr ⟨le_refl _, Nat.lt_succ_self _⟩
    · exact Or.inl h
  · rintro (h | h)
    · exact Or.inr h
    · exact Or.inl (by omega)

/-- A block that is mapped. -/
private theorem appendBlock_mapped (hR : Room V s din) (h0 : blockAddr s.img din k ≠ 0) :
    appendBlock s din k = some (blockAddr s.img din k, din, s) := by
  rw [appendBlock]
  by_cases hd : k < inodeNumDirect
  · rw [blockAddr, if_pos hd] at h0 ⊢
    rw [if_pos hd, if_neg h0]
  · have hi : din.indirect ≠ 0 := by
      intro hi
      rw [blockAddr, if_neg hd, if_pos hi] at h0
      exact h0 rfl
    have hlt : din.indirect.toNat < fsSize :=
      Nat.lt_of_lt_of_le (hR.own _ (indirect_mem_blocks hi)) hR.hi
    rw [blockAddr, if_neg hd, if_neg hi] at h0 ⊢
    rw [indirectAddr] at h0 ⊢
    rw [if_neg hd, if_neg hi]
    simp only
    rw [rsect_of_lt hR.size hlt, Option.bind_eq_bind, Option.bind_some, if_neg h0]

/-- A new direct block. -/
private theorem appendBlock_direct (hR : Room V s din) (hd : k < inodeNumDirect)
    (h0 : blockAddr s.img din k = 0) : appendBlock s din k =
      some (s.freeblock, din.setAddr k s.freeblock, { s with freeblock := s.freeblock + 1 }) := by
  rw [blockAddr, if_pos hd] at h0
  have haddr := addr_setAddr (e := din) (t := k) hd hR.fresh.lt
  rw [if_pos rfl] at haddr
  rw [appendBlock, if_pos hd, if_pos h0]
  simp only [haddr]

/-- The part of `iappend` after the indirect block is there, for an address that is not. -/
private theorem appendTable (hR : Room V s din) (hd : ¬ k < inodeNumDirect)
    (hk : k < inodeMaxBlocks) (hi : din.indirect ≠ 0) (h0 : blockAddr s.img din k = 0) :
    appendBlock s din k = some (s.freeblock, din, { s with
      freeblock := s.freeblock + 1
      img := Function.update s.img din.indirect.toNat ((s.img din.indirect.toNat).setWord
        (4 * (k - inodeNumDirect)) 4 s.freeblock) }) := by
  have hlt : din.indirect.toNat < fsSize :=
    Nat.lt_of_lt_of_le (hR.own _ (indirect_mem_blocks hi)) hR.hi
  have hw : 4 * (k - inodeNumDirect) + 4 ≤ 512 := by
    simp only [inodeMaxBlocks_eq, inodeNumDirect_eq] at hk ⊢
    omega
  rw [blockAddr, if_neg hd, if_neg hi, indirectAddr] at h0
  rw [appendBlock, if_neg hd, if_neg hi]
  simp only
  rw [rsect_of_lt hR.size hlt, Option.bind_eq_bind, Option.bind_some, if_pos h0,
    Bytes.word_setWord_self _ _ hw, Nat.mod_eq_of_lt (by exact hR.fresh.lt),
    wsect_of_lt (s := { s with freeblock := s.freeblock + 1 }) hR.size hlt]

/-- A new indirect block. -/
private theorem appendBlock_indirect (hR : Room V s din) (hd : ¬ k < inodeNumDirect)
    (hi : din.indirect = 0) : appendBlock s din k =
      if s.freeblock < fsSize then
        appendBlock { s with freeblock := s.freeblock + 1 }
          { din with indirect := UInt32.ofNat s.freeblock } k
      else none := by
  have hne := hR.fresh.ofNat_ne_zero
  have hlt : fsSize < 2 ^ 23 := by decide
  have hhi := hR.hi
  rw [appendBlock, if_neg hd, if_pos hi]
  simp only [hR.fresh.toNat_ofNat]
  by_cases hlast : s.freeblock < fsSize
  · rw [if_pos hlast, appendBlock, if_neg hd, if_neg hne]
    simp only [hR.fresh.toNat_ofNat]
  · rw [if_neg hlast, rsect, seek_of_lt (by omega), if_neg (by rw [hR.size]; exact hlast)]
    rfl

private theorem placed_of_filled {m' : Disk} (hR : Room V s din) (hk : k < inodeMaxBlocks)
    (hF : Filled V s.img din k s.freeblock m' din') (hcost : mapCost s.img din k = 1)
    (hlt : s.freeblock < fsSize) (hframe : ∀ b, b ∉ blocks m' din' → m' b = s.img b)
    (htable : din'.indirect ≠ 0 → din.indirect ≠ 0 ∨ inodeNumDirect ≤ k) :
    Placed V s din k s.freeblock { s with freeblock := s.freeblock + 1, img := m' } din' where
  step := hF.mapStep hR.apart hk
  inode := rfl
  size := rfl
  free := by rw [hcost]
  hi := hlt
  blocks := by rw [hF.blocks, insert_free]
  frame := hframe
  table := htable

private theorem filled_table_frame (m : Disk) (hi : din.indirect ≠ 0) (d : Sector) (b : ℕ)
    (hb : b ∉ blocks (Function.update m din.indirect.toNat d) din) :
    Function.update m din.indirect.toNat d b = m b := by
  apply Function.update_of_ne
  rintro rfl
  exact hb (indirect_mem_blocks hi)

/-- The state once the next free block is the indirect block. -/
private theorem Room.indirect (hR : Room V s din) (hi : din.indirect = 0)
    (hlt : s.freeblock < fsSize) : Room V { s with freeblock := s.freeblock + 1 }
      { din with indirect := UInt32.ofNat s.freeblock } := by
  have hF := hR.fresh.fill_indirect hi
  refine ⟨hR.size, Nat.le_succ_of_le hR.lo, hlt, ?_, ?_, ?_, hF.apart hR.apart⟩
  · intro b hb
    exact hR.zero b (Nat.le_of_succ_le hb)
  · intro b hb
    exact Nat.lt_succ_of_lt (hR.others b hb)
  · intro b hb
    rw [hF.blocks] at hb
    rcases Set.mem_insert_iff.mp hb with rfl | hb
    · exact Nat.lt_succ_self _
    · exact Nat.lt_succ_of_lt (hR.own b hb)

/-- **A block for the next bytes.** -/
theorem appendBlock_spec (hR : Room V s din) (hk : k < inodeMaxBlocks)
    (hr : appendBlock s din k = some (x, din', s')) (hx : rsect s' x = some buf) :
    Placed V s din k x s' din' ∧ x < fsSize ∧ buf = s'.img x := by
  have hbig : fsSize < 2 ^ 23 := by decide
  have hhi := hR.hi
  by_cases h0 : blockAddr s.img din k ≠ 0
  · -- the block is there
    rw [appendBlock_mapped hR h0] at hr
    cases hr
    have hown := hR.own _ (blockAddr_mem_blocks h0)
    refine ⟨⟨mapStep_of_mapped hR.apart h0, rfl, rfl, ?_, hR.hi, ?_, fun _ _ => rfl, Or.inl⟩,
      rsect_eq_some hR.size (by omega) hx⟩
    · rw [mapCost, if_pos h0, Nat.add_zero]
    · have hempty : { b | s.freeblock ≤ b ∧ b < s.freeblock } = (∅ : Set ℕ) := by
        ext b
        simp only [Set.mem_ofPred_eq, Set.mem_empty_iff_false, iff_false]
        omega
      rw [hempty, Set.union_empty]
  rw [not_not] at h0
  by_cases hd : k < inodeNumDirect
  · -- a new direct block
    rw [appendBlock_direct hR hd h0] at hr
    cases hr
    obtain ⟨hlt, hbuf⟩ := rsect_eq_some (s := { s with freeblock := s.freeblock + 1 }) hR.size
      (by omega) hx
    refine ⟨placed_of_filled hR hk (hR.fresh.fill_direct hd ?_) ?_ hlt (fun _ _ => rfl) Or.inl, hlt,
      hbuf⟩
    · rwa [blockAddr, if_pos hd] at h0
    · rw [mapCost, if_neg (not_not.mpr h0), if_pos (Or.inl hd)]
  by_cases hi : din.indirect = 0
  · -- an indirect block first
    rw [appendBlock_indirect hR hd hi] at hr
    split at hr
    case isFalse => cases hr
    rename_i hlt
    have hF₁ := hR.fresh.fill_indirect hi
    have hR₁ := hR.indirect hi hlt
    have hi₁ := hR.fresh.ofNat_ne_zero
    have h0₁ : blockAddr s.img { din with indirect := UInt32.ofNat s.freeblock } k = 0 := by
      rw [hF₁.blockAddr k (Nat.ne_of_lt hk)]
      exact h0
    rw [appendTable hR₁ hd hk hi₁ h0₁] at hr
    cases hr
    obtain ⟨hlt₂, hbuf⟩ := rsect_eq_some (s := { s with
      freeblock := s.freeblock + 1 + 1
      img := _ }) hR.size (by show s.freeblock + 1 < 2 ^ 23; omega) hx
    have hF₂ := hR₁.fresh.fill_table hR₁.apart (Nat.le_of_not_lt hd) hk hi₁ h0₁
    refine ⟨⟨mapStep_after_indirect hF₁ (hF₂.mapStep hR₁.apart hk), rfl, rfl, ?_, hlt₂, ?_, ?_,
      fun _ => Or.inr (Nat.le_of_not_lt hd)⟩, hlt₂, hbuf⟩
    · rw [mapCost, if_neg (not_not.mpr h0), if_neg]
      rw [not_or, not_not]
      exact ⟨hd, hi⟩
    · rw [hF₂.blocks, hF₁.blocks, insert_free, insert_free, Set.union_assoc]
      congr 1
      ext b
      simp only [Set.mem_union, Set.mem_ofPred_eq]
      omega
    · intro b hb
      exact filled_table_frame s.img hi₁ _ b hb
  · -- a new entry of the indirect block
    rw [appendTable hR hd hk hi h0] at hr
    cases hr
    obtain ⟨hlt, hbuf⟩ := rsect_eq_some (s := { s with
      freeblock := s.freeblock + 1
      img := _ }) hR.size (by omega) hx
    refine ⟨placed_of_filled hR hk (hR.fresh.fill_table hR.apart (Nat.le_of_not_lt hd) hk hi h0) ?_
      hlt ?_ Or.inl, hlt, hbuf⟩
    · rw [mapCost, if_neg (not_not.mpr h0), if_pos (Or.inr hi)]
    · intro b hb
      exact filled_table_frame s.img hi _ b hb

/-! ## The loop -/

/-- The blocks of a file of `n` blocks, with its indirect block. -/
def total (n : ℕ) : ℕ := n + if inodeNumDirect < n then 1 else 0

theorem total_mono {a b : ℕ} (h : a ≤ b) : total a ≤ total b := by
  rw [total, total]
  by_cases ha : inodeNumDirect < a
  · rw [if_pos ha, if_pos (Nat.lt_of_lt_of_le ha h)]
    omega
  · rw [if_neg ha]
    omega

/-- Exactly the first `n` blocks are mapped, and there is an indirect block if they need one. -/
structure Counted (m : Disk) (din : InodeEntry) (n : ℕ) : Prop where
  mapped : Mapped m din n
  table : din.indirect ≠ 0 ↔ inodeNumDirect < n

private theorem mapCost_eq (hC : Counted s.img din n) (hk : k < inodeMaxBlocks) (hkn : k ≤ n) :
    total n + mapCost s.img din k = total (max n (k + 1)) := by
  have hmap := hC.mapped k hk
  have htab := hC.table
  rw [mapCost]
  by_cases h0 : blockAddr s.img din k ≠ 0
  · rw [if_pos h0, Nat.max_eq_left (hmap.mp h0), Nat.add_zero]
  · obtain rfl : k = n := by
      have := mt hmap.mpr h0
      omega
    rw [if_neg h0, Nat.max_eq_right (Nat.le_succ k)]
    simp only [total]
    by_cases hd : k < inodeNumDirect
    · rw [if_pos (Or.inl hd), if_neg (by omega), if_neg (by omega)]
    · by_cases hi : din.indirect ≠ 0
      · rw [if_pos (Or.inr hi), if_pos (htab.mp hi), if_pos (by omega)]
      · have hnot := mt htab.mpr hi
        have hcond : ¬ (k < inodeNumDirect ∨ din.indirect ≠ 0) := by
          rintro (h | h)
          · exact hd h
          · exact hi h
        rw [if_neg hcond, if_neg hnot, if_pos (by omega)]

/-- What appending `p` at `off` does. -/
structure Appended (V : Set ℕ) (s : State) (din : InodeEntry) (n off : ℕ) (p : List UInt8)
    (s' : State) (din' : InodeEntry) (n' : ℕ) : Prop where
  room : Room V s' din'
  counted : Counted s'.img din' n'
  written : Written V s.img din off p n' s'.img din'
  inode : s'.freeinode = s.freeinode
  le : s.freeblock ≤ s'.freeblock
  free : s'.freeblock + total n = s.freeblock + total n'
  blocks : blocks s'.img din' = blocks s.img din ∪ { b | s.freeblock ≤ b ∧ b < s'.freeblock }
  frame : ∀ b, b ∉ OsLab.blocks s'.img din' → s'.img b = s.img b

/-- One round of `iappend`. -/
private theorem appendRound {off : ℕ} {p : List UInt8} (hR : Room V s din)
    (hC : Counted s.img din n) (hk : off / blockSize < inodeMaxBlocks) (hoff : off ≤ n * blockSize)
    (hp : p ≠ []) (hlen : p.length ≤ blockSize - off % blockSize)
    (hr : appendBlock s din (off / blockSize) = some (x, din', s')) (hx : rsect s' x = some buf) :
    Appended V s din n off p (wsect s' x (buf.splice (off % blockSize) p)) din'
      (mappedAfter n (off + p.length)) := by
  obtain ⟨hP, hlt, rfl⟩ := appendBlock_spec hR hk hr hx
  have hpos : 0 < p.length := List.length_pos_of_ne_nil hp
  have hsize : s'.size = fsSize := hP.size.trans hR.size
  rw [wsect_of_lt hsize hlt]
  have h0 : blockAddr s'.img din' (off / blockSize) ≠ 0 := by
    rw [hP.step.addr]
    exact hP.step.ne_zero
  have hmem := blockAddr_mem_blocks h0
  have hW := hP.step.written hC.mapped hoff hp hlen
  obtain rfl := hP.step.addr
  have hblocks := blocks_store hP.step.apart h0
    ((s'.img (blockAddr s'.img din' (off / blockSize))).splice (off % blockSize) p)
  have hn' : mappedAfter n (off + p.length) = max n (off / blockSize + 1) := by
    simp only [mappedAfter, blocksFor, blockSize_eq] at hlen ⊢
    omega
  have hcost := mapCost_eq hC hk (by simp only [blockSize_eq] at hoff ⊢; omega)
  have hfree := hP.free
  have hle : s.freeblock ≤ s'.freeblock := by omega
  have hframe : ∀ b, b ∉ blocks s'.img din' → Function.update s'.img
      (blockAddr s'.img din' (off / blockSize)) ((s'.img (blockAddr s'.img din'
        (off / blockSize))).splice (off % blockSize) p) b = s.img b := by
    intro b hb
    rw [Function.update_of_ne, hP.frame b hb]
    rintro rfl
    exact hb hmem
  have hown : ∀ b ∈ blocks s'.img din', b < s'.freeblock := by
    intro b hb
    rw [hP.blocks] at hb
    rcases hb with hb | hb
    · exact Nat.lt_of_lt_of_le (hR.own b hb) hle
    · exact hb.2
  refine ⟨⟨hsize, le_trans hR.lo hle, hP.hi, ?_, ?_, ?_, hW.apart⟩, ⟨hW.mapped, ?_⟩, hW, hP.inode,
    hle, ?_, ?_, ?_⟩
  · intro b hb
    have hnot : b ∉ blocks s'.img din' := by
      intro h
      have := hown b h
      simp only at hb
      omega
    exact (hframe b hnot).trans (hR.zero b (le_trans hle hb))
  · intro b hb
    exact Nat.lt_of_lt_of_le (hR.others b hb) hle
  · intro b hb
    rw [hblocks] at hb
    exact hown b hb
  · -- the indirect block is there from block 12 on
    have hmap := hW.mapped
    rw [hn'] at hmap ⊢
    constructor
    · intro hi
      rcases hP.table hi with hold | hge
      · have := hC.table.mp hold
        omega
      · omega
    · intro hlt' hi
      have := (hmap inodeNumDirect (by decide)).mpr hlt'
      rw [blockAddr, if_neg (by decide), if_pos hi] at this
      exact this rfl
  · rw [hn', ← hcost]
    simp only
    omega
  · rw [hblocks]
    exact hP.blocks
  · intro b hb
    rw [hblocks] at hb
    exact hframe b hb

theorem Appended.nil (hR : Room V s din) (hC : Counted s.img din n) (off : ℕ) :
    Appended V s din n off [] s din n where
  room := hR
  counted := hC
  written := Written.nil hC.mapped hR.apart off
  inode := rfl
  le := le_refl _
  free := rfl
  blocks := by
    have hempty : { b | s.freeblock ≤ b ∧ b < s.freeblock } = (∅ : Set ℕ) := by
      ext b
      simp only [Set.mem_ofPred_eq, Set.mem_empty_iff_false, iff_false]
      omega
    rw [hempty, Set.union_empty]
  frame := fun _ _ => rfl

theorem Appended.append {s₁ s₂ : State} {din₁ din₂ : InodeEntry} {n₁ n₂ off i : ℕ}
    {p₁ p₂ : List UInt8} (h₁ : Appended V s din n off p₁ s₁ din₁ n₁) (hi : off + p₁.length = i)
    (h₂ : Appended V s₁ din₁ n₁ i p₂ s₂ din₂ n₂) :
    Appended V s din n off (p₁ ++ p₂) s₂ din₂ n₂ where
  room := h₂.room
  counted := h₂.counted
  written := h₁.written.append hi h₂.written
  inode := h₂.inode.trans h₁.inode
  le := le_trans h₁.le h₂.le
  free := by
    have := h₁.free
    have := h₂.free
    omega
  blocks := by
    have hle₁ := h₁.le
    have hle₂ := h₂.le
    rw [h₂.blocks, h₁.blocks, Set.union_assoc]
    congr 1
    ext b
    simp only [Set.mem_union, Set.mem_ofPred_eq]
    omega
  frame := by
    intro b hb
    have hb₁ : b ∉ OsLab.blocks s₁.img din₁ := by
      intro h
      rw [h₂.blocks] at hb
      exact hb (Or.inl h)
    rw [h₂.frame b hb, h₁.frame b hb₁]

private theorem appendLoop_succ {fuel off : ℕ} {p : List UInt8} (hp : p ≠ [])
    (hk : off / blockSize < inodeMaxBlocks)
    (hr : appendBlock s din (off / blockSize) = some (x, din', s')) (hx : rsect s' x = some buf) :
    let len := min p.length (blockSize - off % blockSize)
    appendLoop (fuel + 1) s din off p = appendLoop fuel
      (wsect s' x (buf.splice (off % blockSize) (p.take len))) din' (off + len) (p.drop len) := by
  intro len
  have hn1 : (off / blockSize + 1) * blockSize - off = blockSize - off % blockSize := by
    simp only [blockSize_eq]
    omega
  have hmod : off - off / blockSize * blockSize = off % blockSize := by
    simp only [blockSize_eq]
    omega
  rw [appendLoop, if_neg hp, if_pos hk, hr]
  simp only [Option.bind_eq_bind, Option.bind_some, hx, hn1, hmod]
  rfl

/-- **The loop of `iappend`.** -/
theorem appendLoop_spec {fuel off' : ℕ} (off : ℕ) (p : List UInt8) (s : State) (din : InodeEntry)
    (n : ℕ) (hR : Room V s din) (hC : Counted s.img din n) (hoff : off ≤ n * blockSize)
    (hmax : off ≤ inodeMaxBytes) (hr : appendLoop fuel s din off p = some (din', off', s')) :
    off' = off + p.length ∧ off' ≤ inodeMaxBytes ∧
      Appended V s din n off p s' din' (mappedAfter n off') := by
  induction fuel generalizing off p s din n with
  | zero =>
      rw [appendLoop] at hr
      split at hr
      · rename_i hp
        cases hr
        rw [hp, mappedAfter_of_le hoff]
        exact ⟨rfl, hmax, Appended.nil hR hC _⟩
      · cases hr
  | succ fuel ih =>
      by_cases hp : p = []
      · rw [appendLoop, if_pos hp] at hr
        cases hr
        rw [hp, mappedAfter_of_le hoff]
        exact ⟨rfl, hmax, Appended.nil hR hC _⟩
      · have hpos : 0 < p.length := List.length_pos_of_ne_nil hp
        have hmod : off % blockSize < blockSize := Nat.mod_lt _ (by decide)
        by_cases hk : off / blockSize < inodeMaxBlocks
        · rcases hb : appendBlock s din (off / blockSize) with - | ⟨x, din₁, s₁⟩
          · rw [appendLoop, if_neg hp, if_pos hk, hb] at hr
            cases hr
          · rcases hx : rsect s₁ x with - | buf
            · rw [appendLoop, if_neg hp, if_pos hk, hb] at hr
              simp only [Option.bind_eq_bind, Option.bind_some, hx] at hr
              cases hr
            · rw [appendLoop_succ hp hk hb hx] at hr
              generalize hlen : min p.length (blockSize - off % blockSize) = len at hr
              have htake : (p.take len).length = len := by
                rw [List.length_take]
                omega
              have hne : p.take len ≠ [] := by
                apply List.ne_nil_of_length_pos
                omega
              have hround := appendRound hR hC hk hoff hne (by omega) hb hx
              rw [htake] at hround
              obtain ⟨hoff', hmax', hA⟩ := ih (off + len) (p.drop len) _ din₁ _ hround.room
                hround.counted (by simp only [mappedAfter, blocksFor, blockSize_eq]; omega)
                (by
                  simp only [inodeMaxBytes_eq, inodeMaxBlocks_eq, blockSize_eq] at hk hlen hmod ⊢
                  omega) hr
              rw [List.length_drop] at hoff'
              have hstop : off' = off + p.length := by omega
              refine ⟨hstop, hmax', ?_⟩
              have happ := hround.append (by rw [htake]) hA
              have hn : mappedAfter (mappedAfter n (off + len)) off' = mappedAfter n off' := by
                simp only [mappedAfter, blocksFor, blockSize_eq]
                omega
              rw [List.take_append_drop, hn] at happ
              exact happ
        · rw [appendLoop, if_neg hp, if_neg hk] at hr
          cases hr

/-- There is a block for the next bytes where there is room for it. -/
private theorem appendBlock_isSome (hR : Room V s din) (hk : k < inodeMaxBlocks)
    (hroom : s.freeblock + mapCost s.img din k ≤ fsSize) :
    ∃ x din' s' buf, appendBlock s din k = some (x, din', s') ∧ rsect s' x = some buf := by
  by_cases h0 : blockAddr s.img din k ≠ 0
  · have hlt := Nat.lt_of_lt_of_le (hR.own _ (blockAddr_mem_blocks h0)) hR.hi
    exact ⟨_, _, _, _, appendBlock_mapped hR h0, rsect_of_lt hR.size hlt⟩
  rw [mapCost, if_neg h0] at hroom
  rw [not_not] at h0
  by_cases hd : k < inodeNumDirect
  · rw [if_pos (Or.inl hd)] at hroom
    exact ⟨_, _, _, _, appendBlock_direct hR hd h0,
      rsect_of_lt (s := { s with freeblock := s.freeblock + 1 }) hR.size hroom⟩
  by_cases hi : din.indirect = 0
  · rw [if_neg (by rw [not_or, not_not]; exact ⟨hd, hi⟩)] at hroom
    have hF₁ := hR.fresh.fill_indirect hi
    have hR₁ := hR.indirect hi (by omega)
    have h0₁ : blockAddr s.img { din with indirect := UInt32.ofNat s.freeblock } k = 0 := by
      rw [hF₁.blockAddr k (Nat.ne_of_lt hk)]
      exact h0
    have hr := (appendBlock_indirect hR hd hi).trans ((if_pos (by omega)).trans
      (appendTable hR₁ hd hk hR.fresh.ofNat_ne_zero h0₁))
    exact ⟨_, _, _, _, hr, rsect_of_lt hR.size (show s.freeblock + 1 < fsSize by omega)⟩
  · rw [if_pos (Or.inr hi)] at hroom
    exact ⟨_, _, _, _, appendTable hR hd hk hi h0,
      rsect_of_lt (s := { s with freeblock := s.freeblock + 1, img := _ }) hR.size hroom⟩

/-- **The loop of `iappend` runs to its end** where the image has room. -/
theorem appendLoop_isSome (fuel off : ℕ) (p : List UInt8) (s : State) (din : InodeEntry) (n : ℕ)
    (hR : Room V s din) (hC : Counted s.img din n) (hoff : off ≤ n * blockSize)
    (hf : p.length ≤ fuel) (hmax : off + p.length ≤ inodeMaxBytes)
    (hroom : s.freeblock + total (mappedAfter n (off + p.length)) ≤ fsSize + total n) :
    (appendLoop fuel s din off p).isSome := by
  induction fuel generalizing off p s din n with
  | zero =>
      rw [appendLoop, if_pos (List.length_eq_zero_iff.mp (Nat.le_zero.mp hf))]
      rfl
  | succ fuel ih =>
      by_cases hp : p = []
      · rw [appendLoop, if_pos hp]
        rfl
      · have hpos : 0 < p.length := List.length_pos_of_ne_nil hp
        have hmod : off % blockSize < blockSize := Nat.mod_lt _ (by decide)
        have hk : off / blockSize < inodeMaxBlocks := by
          simp only [inodeMaxBytes_eq, inodeMaxBlocks_eq, blockSize_eq] at hmax ⊢
          omega
        have hcost := mapCost_eq hC hk (by simp only [blockSize_eq] at hoff ⊢; omega)
        have hmono : total (max n (off / blockSize + 1)) ≤
            total (mappedAfter n (off + p.length)) := by
          apply total_mono
          simp only [mappedAfter, blocksFor, blockSize_eq]
          omega
        obtain ⟨x, din₁, s₁, buf, hb, hx⟩ := appendBlock_isSome hR hk (by omega)
        rw [appendLoop_succ hp hk hb hx]
        generalize hlen : min p.length (blockSize - off % blockSize) = len
        have htake : (p.take len).length = len := by
          rw [List.length_take]
          omega
        have hne : p.take len ≠ [] := by
          apply List.ne_nil_of_length_pos
          omega
        have hround := appendRound hR hC hk hoff hne (by omega) hb hx
        rw [htake] at hround
        have hstop : off + len + (p.drop len).length = off + p.length := by
          rw [List.length_drop]
          omega
        have hn : mappedAfter (mappedAfter n (off + len)) (off + p.length) =
            mappedAfter n (off + p.length) := by
          simp only [mappedAfter, blocksFor, blockSize_eq]
          omega
        have hfree := hround.free
        refine ih (off + len) (p.drop len) _ din₁ _ hround.room hround.counted ?_ ?_ ?_ ?_
        · simp only [mappedAfter, blocksFor, blockSize_eq]
          omega
        · rw [List.length_drop]
          omega
        · rw [hstop]
          exact hmax
        · rw [hstop, hn]
          omega

end OsLab.Mkfs
