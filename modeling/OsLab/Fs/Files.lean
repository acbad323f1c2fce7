import OsLab.Fs.Bitmap
import OsLab.Mkfs.Layout
import Mathlib.Order.Interval.Finset.Nat

/-!
# Files behave as byte arrays

`inode_read` and `inode_write` on the inodes in use, stated over the content of the
files.  The inodes in use are a set `I` with an entry each; no block is used twice,
neither by two of them nor by one of them and the blocks the inodes themselves live in.

## Main results

* `inodeRead_window` — `inode_read` delivers the window.
* `inodeWrite_spec` — what `inode_write` does to one file.
* `files_as_arrays` — the two together, for every inode in use.
-/

namespace OsLab

/-- `l` with the bytes from `offset` on replaced by `src`. -/
def replaceAt (l : List UInt8) (offset : ℕ) (src : List UInt8) : List UInt8 :=
  l.take offset ++ src ++ l.drop (offset + src.length)

variable {c : BlockAlloc} {Good : ℕ → Set ℕ → Disk → Prop} {sb : SuperBlock} {V : Set ℕ}
  {m m' : Disk} {e e' : InodeEntry} {no n N : ℕ}

@[simp] theorem length_content (m : Disk) (e : InodeEntry) :
    (content m e).length = e.numBytes.toNat := by simp [content]

theorem content_congr (hm : ∀ b ∈ blocks m e, m' b = m b) : content m' e = content m e := by
  apply List.map_congr_left
  intro i _
  exact byteAt_congr hm i

/-- A window of the file. -/
theorem take_drop_content {offset count : ℕ} (h : offset + count ≤ e.numBytes.toNat) :
    ((content m e).drop offset).take count = (List.range' offset count).map (byteAt m e) := by
  apply List.ext_getElem
  · simp only [List.length_take, List.length_drop, length_content, List.length_map,
      List.length_range']
    omega
  · intro i h₁ h₂
    simp [content]

theorem getD_content {i : ℕ} (h : i < e.numBytes.toNat) : (content m e).getD i 0 = byteAt m e i := by
  rw [List.getD_eq_getElem _ _ (by rw [length_content]; exact h)]
  simp [content]

theorem content_ext (m : Disk) (e : InodeEntry) {l : List UInt8}
    (hlen : l.length = e.numBytes.toNat) (h : ∀ i, i < l.length → l.getD i 0 = byteAt m e i) :
    content m e = l := by
  apply List.ext_getElem
  · rw [length_content, hlen]
  · intro i h₁ h₂
    have := h i h₂
    rw [List.getD_eq_getElem _ _ h₂] at this
    rw [this]
    simp only [content, List.getElem_map, List.getElem_range]

/-! ## Replacing bytes -/

section Replace

variable {l : List UInt8}

theorem getD_replaceAt {off : ℕ} {src : List UInt8} (hoff : off ≤ l.length) (i : ℕ) :
    (replaceAt l off src).getD i 0 =
      if off ≤ i ∧ i < off + src.length then src.getD (i - off) 0 else l.getD i 0 := by
  have htake : (l.take off).length = off := by
    rw [List.length_take]
    omega
  rw [replaceAt, List.append_assoc]
  rcases Nat.lt_or_ge i off with hio | hio
  · rw [if_neg (by omega), List.getD_append _ _ _ _ (by omega)]
    simp [List.getD_eq_getElem?_getD, hio]
  · rw [List.getD_append_right _ _ _ _ (by omega), htake]
    by_cases hin : i < off + src.length
    · rw [if_pos ⟨hio, hin⟩, List.getD_append _ _ _ _ (by omega)]
    · rw [if_neg (by omega), List.getD_append_right _ _ _ _ (by omega)]
      simp only [List.getD_eq_getElem?_getD, List.getElem?_drop]
      congr 2
      omega

theorem length_replaceAt {off : ℕ} {src : List UInt8} (hoff : off ≤ l.length) :
    (replaceAt l off src).length = max l.length (off + src.length) := by
  rw [replaceAt, List.length_append, List.length_append, List.length_take, List.length_drop]
  omega

end Replace

/-! ## `inode_read` -/

/-- `inode_read` of a window that lies in the file, whose blocks are mapped. -/
theorem inodeRead_of_mapped {offset count : ℕ} (h : offset + count ≤ e.numBytes.toNat)
    (hmap : ∀ i, offset ≤ i → i < offset + count → blockAddr m e (i / blockSize) ≠ 0) :
    inodeRead c m e offset count =
      some (0, ((content m e).drop offset).take count, e, m) := by
  have hlt := e.numBytes.toNat_lt
  have hsum : (count + offset) % 2 ^ 64 = offset + count := by omega
  have hstop : (offset + count) % 2 ^ 64 = offset + count := by omega
  simp only [inodeRead]
  rw [hsum, if_neg (Nat.not_lt.mpr h), hstop, if_pos ⟨by omega, h, by omega⟩,
    readLoop_spec offset count (le_refl _) hmap, take_drop_content h]
  rfl

/-- The blocks of a dense file are mapped. -/
theorem Dense.blockAddr_ne_zero (hd : Dense m e) {i : ℕ} (hi : i < e.numBytes.toNat) :
    blockAddr m e (i / blockSize) ≠ 0 := by
  obtain ⟨hle, hmap⟩ := hd
  simp only [inodeMaxBytes_eq] at hle
  apply (hmap _ _).mpr
  · simp only [blocksFor, blockSize_eq]
    omega
  · simp only [inodeMaxBlocks_eq, blockSize_eq]
    omega

/-- **`inode_read` delivers the window.** -/
theorem inodeRead_window (hd : Dense m e) {offset count : ℕ}
    (h : offset + count ≤ e.numBytes.toNat) :
    inodeRead c m e offset count =
      some (0, ((content m e).drop offset).take count, e, m) :=
  inodeRead_of_mapped h fun i _ hi => hd.blockAddr_ne_zero (by omega)

/-! ## `inode_write` -/

/-- Where the blocks are mapped already, `inode_write` leaves the entry alone. -/
theorem writeLoop_entry {fuel : ℕ} (offset : ℕ) (src : List UInt8) (m : Disk)
    (hA : Apart V m e)
    (hmap : ∀ i, offset ≤ i → i < offset + src.length → blockAddr m e (i / blockSize) ≠ 0)
    (hr : writeLoop c fuel m e offset src = some (e', m')) : e' = e := by
  induction fuel generalizing offset src m with
  | zero =>
      rw [writeLoop] at hr
      split at hr
      · cases hr
        rfl
      · cases hr
  | succ fuel ih =>
      by_cases hsrc : src = []
      · rw [writeLoop, if_pos hsrc] at hr
        cases hr
        rfl
      · have hpos : 0 < src.length := List.length_pos_of_ne_nil hsrc
        have h0 := hmap offset (le_refl _) (by omega)
        rw [writeLoop_succ hsrc (inodeMap_of_mapped h0)] at hr
        refine ih _ _ _ (hA.store h0 _) ?_ hr
        intro i h₁ h₂
        rw [blockAddr_store hA h0]
        rw [List.length_drop] at h₂
        exact hmap i (by omega) (by omega)

/-- What `inode_write` of `src` at `offset` does to the inode `no`. -/
structure FileWrite (sb : SuperBlock) (V : Set ℕ) (no : ℕ) (m : Disk) (e : InodeEntry)
    (offset : ℕ) (src : List UInt8) (m' : Disk) (e' : InodeEntry) : Prop where
  dense : Dense m' e'
  apart : Apart V m' e'
  others : ∀ a ∈ V, a ≠ sb.toBlockNo no → m' a = m a
  entries : ∀ no', no' ≠ no → sb.toBlockNo no' ∈ V → sb.diskEntry m' no' = sb.diskEntry m no'
  size : e'.numBytes.toNat = max e.numBytes.toNat (offset + src.length)
  bytes : ∀ i, byteAt m' e' i =
    if offset ≤ i ∧ i < offset + src.length then src.getD (i - offset) 0 else byteAt m e i
  type : e'.type = e.type
  /-- the entry on the disk is the one in memory if it was before -/
  synced : sb.diskEntry m no = e → sb.diskEntry m' no = e'

theorem FileWrite.content {offset : ℕ} {src : List UInt8}
    (h : FileWrite sb V no m e offset src m' e') (hoff : offset ≤ e.numBytes.toNat) :
    content m' e' = replaceAt (content m e) offset src := by
  have hlen := length_content m e
  have hoff' : offset ≤ (OsLab.content m e).length := by
    rw [hlen]
    exact hoff
  apply content_ext
  · rw [length_replaceAt hoff', hlen, h.size]
  · intro i hi
    rw [length_replaceAt hoff', hlen] at hi
    rw [h.bytes i, getD_replaceAt hoff']
    by_cases hin : offset ≤ i ∧ i < offset + src.length
    · rw [if_pos hin, if_pos hin]
    · rw [if_neg hin, if_neg hin, getD_content (by omega)]

/-- The blocks of a file are not those the inodes live in. -/
private theorem ne_toBlockNo (hA : Apart V m e) (hno : sb.toBlockNo no ∈ V) {b : ℕ}
    (hb : b ∈ blocks m e) : b ≠ sb.toBlockNo no := by
  rintro rfl
  exact hA.off _ hb hno

section PutEntry

variable (hA : Apart V m e) (hno : sb.toBlockNo no ∈ V) (e' : InodeEntry)

include hA hno

private theorem putDiskEntry_indirect :
    e.indirect ≠ 0 → sb.putDiskEntry m no e' e.indirect.toNat = m e.indirect.toNat := by
  intro hi
  exact SuperBlock.putDiskEntry_of_ne (ne_toBlockNo hA hno (indirect_mem_blocks hi))

theorem blocks_putDiskEntry : blocks (sb.putDiskEntry m no e') e = blocks m e :=
  blocks_congr (putDiskEntry_indirect hA hno e')

theorem Apart.putDiskEntry : Apart V (sb.putDiskEntry m no e') e :=
  hA.congr (putDiskEntry_indirect hA hno e')

theorem byteAt_putDiskEntry (i : ℕ) : byteAt (sb.putDiskEntry m no e') e i = byteAt m e i :=
  byteAt_congr (fun _ hb => SuperBlock.putDiskEntry_of_ne (ne_toBlockNo hA hno hb)) i

theorem Mapped.putDiskEntry (hM : Mapped m e n) : Mapped (sb.putDiskEntry m no e') e n := by
  intro k hk
  rw [← slot_of_lt hk, slot_congr (putDiskEntry_indirect hA hno e'), slot_of_lt hk]
  exact hM k hk

end PutEntry

/-- The two cases at the end of `inode_write`. -/
theorem inodeWrite_cases {offset r : ℕ} {src : List UInt8} (hlen : src.length < 2 ^ 64)
    (hr : inodeWrite c sb m no e offset src = some (r, e', m')) :
    r = src.length ∧ offset ≤ e.numBytes.toNat ∧ offset + src.length ≤ inodeMaxBytes ∧
      ∃ e₁ m₁, writeLoop c src.length m e offset src = some (e₁, m₁) ∧
        ((e₁.numBytes.toNat < offset + src.length ∧ 0 < src.length ∧
            e' = { e₁ with numBytes := UInt32.ofNat (offset + src.length) } ∧
            m' = sb.putDiskEntry m₁ no e') ∨
          ((offset + src.length ≤ e₁.numBytes.toNat ∨ src = []) ∧ e' = e₁ ∧ m' = m₁)) := by
  have hlt := e.numBytes.toNat_lt
  rw [inodeWrite] at hr
  split at hr
  case isFalse => cases hr
  rename_i hcond
  obtain ⟨hoff, hmax, hle⟩ := hcond
  simp only [inodeMaxBytes_eq] at hmax
  rcases hl : writeLoop c src.length m e offset src with - | ⟨e₁, m₁⟩
  · rw [hl] at hr
    cases hr
  · rw [hl] at hr
    simp only [Option.bind_eq_bind, Option.bind_some] at hr
    have hmax' : offset + src.length ≤ inodeMaxBytes := by
      simp only [inodeMaxBytes_eq]
      omega
    split at hr
    · rename_i hgrow
      cases hr
      exact ⟨rfl, hoff, hmax', e₁, m₁, rfl, Or.inl ⟨hgrow.2, hgrow.1, rfl, rfl⟩⟩
    · rename_i hgrow
      cases hr
      refine ⟨rfl, hoff, hmax', e', m', rfl, Or.inr ⟨?_, rfl, rfl⟩⟩
      rcases Nat.eq_zero_or_pos src.length with h0 | hpos
      · exact Or.inr (List.length_eq_zero_iff.mp h0)
      · exact Or.inl (Nat.le_of_not_lt fun h => hgrow ⟨hpos, h⟩)

theorem le_blocksFor_mul (k : ℕ) : k ≤ blocksFor k * blockSize := by
  simp only [blocksFor, blockSize_eq]
  omega

theorem mappedAfter_blocksFor (a b : ℕ) :
    mappedAfter (blocksFor a) b = blocksFor (max a b) := by
  simp only [mappedAfter, blocksFor, blockSize_eq]
  omega

private theorem writeCost_le (e : InodeEntry) (n stop : ℕ) :
    writeCost e n stop ≤ blocksFor stop - n + 1 := by
  rw [writeCost]
  split <;> omega

/-- **`inode_write` on one file.** -/
theorem inodeWrite_spec {offset r : ℕ} {src : List UInt8} (hL : c.Lawful Good)
    (hA : Apart V m e) (hD : Dense m e) (hno : sb.toBlockNo no ∈ V)
    (hG : Good N (V ∪ blocks m e) m) (hlen : src.length < 2 ^ 64)
    (hr : inodeWrite c sb m no e offset src = some (r, e', m')) :
    r = src.length ∧ FileWrite sb V no m e offset src m' e' ∧
      Good (N - (blocksFor (offset + src.length) - blocksFor e.numBytes.toNat + 1))
        (V ∪ blocks m' e') m' := by
  obtain ⟨hr, hoff, hmax, e₁, m₁, hl, hend⟩ := inodeWrite_cases hlen hr
  refine ⟨hr, ?_⟩
  obtain ⟨hle, hM⟩ := hD
  have hcost := writeCost_le e (blocksFor e.numBytes.toNat) (offset + src.length)
  obtain ⟨hW, hG'⟩ := writeLoop_spec hL offset src m e _ N hA hM hG
    (le_trans hoff (le_blocksFor_mul _)) hl
  replace hG' := hL.mono hG' (Nat.sub_le_sub_left hcost N)
  generalize N - (blocksFor (offset + src.length) - blocksFor e.numBytes.toNat + 1) = N' at hG' ⊢
  have hW' := hW.mapped
  rw [mappedAfter_blocksFor] at hW'
  have hsize₁ : e₁.numBytes = e.numBytes := hW.same.2.2.2.2
  obtain ⟨hgrow, hpos, rfl, rfl⟩ | ⟨hstop, rfl, rfl⟩ := hend
  · -- the file grows, and the entry is written to its block
    rw [hsize₁] at hgrow
    have hmax' := hmax
    simp only [inodeMaxBytes_eq] at hmax'
    have hnew : (UInt32.ofNat (offset + src.length)).toNat = offset + src.length :=
      UInt32.toNat_ofNat_of_lt' (Nat.lt_of_le_of_lt hmax' (by decide))
    have hmaxEq : max e.numBytes.toNat (offset + src.length) = offset + src.length := by omega
    rw [hmaxEq] at hW'
    generalize he₂ : { e₁ with numBytes := UInt32.ofNat (offset + src.length) } = e₂
    -- the size is not among the addresses
    have hA₂ : Apart V m₁ e₂ := by
      rw [← he₂]
      exact ⟨hW.apart.inj, hW.apart.off⟩
    have hM₂ : Mapped m₁ e₂ (blocksFor (offset + src.length)) := by
      rw [← he₂]
      exact hW'
    have hsize₂ : e₂.numBytes.toNat = offset + src.length := by
      rw [← he₂]
      exact hnew
    have hG₂ : Good N' (V ∪ blocks m₁ e₂) m₁ := by
      rw [← he₂]
      exact hG'
    refine ⟨⟨⟨?_, ?_⟩, hA₂.putDiskEntry hno e₂, ?_, ?_, ?_, ?_, ?_, ?_⟩, ?_⟩
    · rw [hsize₂]
      exact hmax
    · rw [hsize₂]
      exact hM₂.putDiskEntry hA₂ hno e₂
    · intro a ha hne
      rw [SuperBlock.putDiskEntry_of_ne hne]
      exact hW.others a ha
    · intro no' hne hV
      rw [SuperBlock.diskEntry_putDiskEntry_of_ne hne]
      exact SuperBlock.diskEntry_congr (hW.others _ hV)
    · rw [hsize₂, hmaxEq]
    · intro i
      rw [byteAt_putDiskEntry hA₂ hno e₂, ← hW.bytes i, ← he₂]
      rfl
    · rw [← he₂]
      exact hW.same.1
    · intro _
      exact SuperBlock.diskEntry_putDiskEntry_self ..
    · rw [blocks_putDiskEntry hA₂ hno e₂]
      exact hL.sync hG₂ (Or.inl hno)
  · -- it does not, so every block was mapped and the entry is as before
    rw [hsize₁] at hstop
    have hmaxEq : max e.numBytes.toNat (offset + src.length) = e.numBytes.toNat := by
      rcases hstop with hstop | rfl
      · omega
      · simp only [List.length_nil]
        omega
    rw [hmaxEq] at hW'
    have hentry : e' = e := by
      refine writeLoop_entry offset src m hA ?_ hl
      intro i h₁ h₂
      exact Dense.blockAddr_ne_zero ⟨hle, hM⟩ (by omega)
    subst hentry
    refine ⟨⟨⟨hle, hW'⟩, hW.apart, fun a ha _ => hW.others a ha, ?_, hmaxEq.symm, hW.bytes, rfl,
      ?_⟩, hG'⟩
    · intro no' _ hV
      exact SuperBlock.diskEntry_congr (hW.others _ hV)
    · intro hd
      rw [SuperBlock.diskEntry_congr (hW.others _ hno), hd]

/-- `inode_write` returns where enough blocks are free. -/
theorem inodeWrite_isSome {offset : ℕ} {src : List UInt8} (hL : c.Lawful Good)
    (hA : Apart V m e) (hD : Dense m e) (hoff : offset ≤ e.numBytes.toNat)
    (hmax : offset + src.length ≤ inodeMaxBytes)
    (hG : Good (blocksFor (offset + src.length) - blocksFor e.numBytes.toNat + 1)
      (V ∪ blocks m e) m) : (inodeWrite c sb m no e offset src).isSome := by
  have hcost := writeCost_le e (blocksFor e.numBytes.toNat) (offset + src.length)
  have hl := writeLoop_isSome hL src.length offset src m e _ _ hA hD.2 hG
    (le_trans hoff (le_blocksFor_mul _)) (le_refl _) hmax hcost
  obtain ⟨⟨e₁, m₁⟩, hl⟩ := Option.isSome_iff_exists.mp hl
  have hmod : (offset + src.length) % 2 ^ 64 = offset + src.length := by
    simp only [inodeMaxBytes_eq] at hmax
    omega
  rw [inodeWrite, hmod, if_pos ⟨hoff, hmax, by omega⟩, hl]
  simp only [Option.bind_eq_bind, Option.bind_some]
  split <;> rfl

/-! ## The inodes in use -/

section InUse

/-- The blocks the inodes `I` live in. -/
def inodeArea (sb : SuperBlock) (I : Set ℕ) : Set ℕ := { b | ∃ no ∈ I, b = sb.toBlockNo no }

/-- The blocks in use, other than those of the file `no`: the inode blocks `A` and those of the
other files. -/
def otherBlocks (A : Set ℕ) (I : Set ℕ) (ents : ℕ → InodeEntry) (m : Disk) (no : ℕ) :
    Set ℕ :=
  A ∪ { b | ∃ no' ∈ I, no' ≠ no ∧ b ∈ blocks m (ents no') }

/-- The blocks in use. -/
def blocksInUse (A : Set ℕ) (I : Set ℕ) (ents : ℕ → InodeEntry) (m : Disk) : Set ℕ :=
  A ∪ { b | ∃ no ∈ I, b ∈ blocks m (ents no) }

/-- **No block is used twice** by the inodes in use. -/
def InUse (A : Set ℕ) (I : Set ℕ) (ents : ℕ → InodeEntry) (m : Disk) : Prop :=
  ∀ no ∈ I, Apart (otherBlocks A I ents m no) m (ents no)

variable {A I : Set ℕ} {ents : ℕ → InodeEntry} {no' : ℕ}

theorem blocksInUse_eq (hno : no ∈ I) :
    blocksInUse A I ents m = otherBlocks A I ents m no ∪ blocks m (ents no) := by
  ext b
  constructor
  · rintro (hb | ⟨no', hI, hb⟩)
    · exact Or.inl (Or.inl hb)
    · by_cases h : no' = no
      · exact Or.inr (h ▸ hb)
      · exact Or.inl (Or.inr ⟨no', hI, h, hb⟩)
  · rintro ((hb | ⟨no', hI, -, hb⟩) | hb)
    · exact Or.inl hb
    · exact Or.inr ⟨no', hI, hb⟩
    · exact Or.inr ⟨no, hno, hb⟩

theorem blocks_subset_otherBlocks (hI : no' ∈ I) (hne : no' ≠ no) :
    blocks m (ents no') ⊆ otherBlocks A I ents m no := fun _ hb => Or.inr ⟨no', hI, hne, hb⟩

/-- A change to the file `no` leaves the blocks of the other inodes alone. -/
theorem InUse.unchanged (hU : InUse A I ents m) (hno : sb.toBlockNo no ∈ A)
    (hV : ∀ a ∈ otherBlocks A I ents m no, a ≠ sb.toBlockNo no → m' a = m a) (hI : no' ∈ I)
    (hne : no' ≠ no) : ∀ b ∈ blocks m (ents no'), m' b = m b := by
  intro b hb
  apply hV b (blocks_subset_otherBlocks hI hne hb)
  rintro rfl
  exact (hU no' hI).off _ hb (Or.inl hno)

private theorem blocks_unchanged {e : InodeEntry} (h : ∀ b ∈ blocks m e, m' b = m b) :
    blocks m' e = blocks m e :=
  blocks_congr fun hi => h _ (indirect_mem_blocks hi)

/-- Density depends on the blocks of the file only. -/
theorem Dense.congr (hD : Dense m e) (h : ∀ b ∈ blocks m e, m' b = m b) : Dense m' e := by
  refine ⟨hD.1, ?_⟩
  intro k hk
  rw [← slot_of_lt hk, slot_congr (fun hi => h _ (indirect_mem_blocks hi)), slot_of_lt hk]
  exact hD.2 k hk

/-- **The inodes in use stay apart** when the file `no` gets blocks no other inode uses, comes into
use or goes out of use. -/
theorem InUse.change {I' : Set ℕ} {ents' : ℕ → InodeEntry} (hU : InUse A I ents m)
    (hno : sb.toBlockNo no ∈ A) (hI : ∀ no', no' ≠ no → (no' ∈ I' ↔ no' ∈ I))
    (hents : ∀ no' ∈ I, no' ≠ no → ents' no' = ents no')
    (hA : no ∈ I' → Apart (otherBlocks A I ents m no) m' (ents' no))
    (hV : ∀ a ∈ otherBlocks A I ents m no, a ≠ sb.toBlockNo no → m' a = m a) :
    InUse A I' ents' m' ∧ otherBlocks A I' ents' m' no = otherBlocks A I ents m no := by
  have hsame : ∀ no' ∈ I, no' ≠ no → blocks m' (ents' no') = blocks m (ents no') := by
    intro no' hI' hne
    rw [hents no' hI' hne]
    exact blocks_unchanged (hU.unchanged hno hV hI' hne)
  have hother : otherBlocks A I' ents' m' no = otherBlocks A I ents m no := by
    ext b
    constructor
    · rintro (hb | ⟨no', hI', hne, hb⟩)
      · exact Or.inl hb
      · have hmem := (hI no' hne).mp hI'
        rw [hsame no' hmem hne] at hb
        exact Or.inr ⟨no', hmem, hne, hb⟩
    · rintro (hb | ⟨no', hI', hne, hb⟩)
      · exact Or.inl hb
      · refine Or.inr ⟨no', (hI no' hne).mpr hI', hne, ?_⟩
        rw [hsame no' hI' hne]
        exact hb
  refine ⟨?_, hother⟩
  intro no' hmem'
  by_cases hne : no' = no
  · subst hne
    rw [hother]
    exact hA hmem'
  · have hmem := (hI no' hne).mp hmem'
    have hunch := hU.unchanged hno hV hmem hne
    rw [hents no' hmem hne]
    refine ⟨((hU no' hmem).congr fun hi => hunch _ (indirect_mem_blocks hi)).inj, ?_⟩
    intro b hb
    rw [blocks_unchanged hunch] at hb
    rintro (harea | ⟨no'', hI'', hne'', hb''⟩)
    · exact (hU no' hmem).off b hb (Or.inl harea)
    · by_cases hno'' : no'' = no
      · -- the new blocks of `no` are none of `no'`
        subst hno''
        exact (hA hI'').off b hb'' (blocks_subset_otherBlocks hmem hne hb)
      · have hmem'' := (hI no'' hno'').mp hI''
        rw [hsame no'' hmem'' hno''] at hb''
        exact (hU no' hmem).off b hb (Or.inr ⟨no'', hmem'', hne'', hb''⟩)

/-- **Files behave as byte arrays.**  With `Good n U m` saying that the allocator takes the blocks
`U` of the disk `m` to be in use and has `n` more, a write to a dense inode returns, replaces the
bytes `[offset, offset + count)` and changes no other file; and reading delivers the content. -/
theorem files_as_arrays (no offset : ℕ) (src : List UInt8) (hL : c.Lawful Good)
    (hU : InUse (inodeArea sb I) I ents m) (hno : no ∈ I) (hD : Dense m (ents no))
    (hoff : offset ≤ (ents no).numBytes.toNat) (hmax : offset + src.length ≤ inodeMaxBytes)
    (hG : Good (blocksFor (offset + src.length) - blocksFor (ents no).numBytes.toNat + 1)
      (blocksInUse (inodeArea sb I) I ents m) m) :
    ∃ e' m', inodeWrite c sb m no (ents no) offset src = some (src.length, e', m') ∧
      Dense m' e' ∧ content m' e' = replaceAt (content m (ents no)) offset src ∧
      (content m' e').length = max (ents no).numBytes.toNat (offset + src.length) ∧
      (∀ no' ∈ I, no' ≠ no → content m' (ents no') = content m (ents no') ∧
        sb.diskEntry m' no' = sb.diskEntry m no' ∧ (Dense m (ents no') → Dense m' (ents no'))) ∧
      InUse (inodeArea sb I) I (Function.update ents no e') m' ∧
      (∃ N, Good N (blocksInUse (inodeArea sb I) I (Function.update ents no e') m') m') ∧
      ∀ (m₂ : Disk) (e₂ : InodeEntry), Dense m₂ e₂ → ∀ off count : ℕ,
        off + count ≤ e₂.numBytes.toNat →
          inodeRead c m₂ e₂ off count = some (0, ((content m₂ e₂).drop off).take count, e₂, m₂) := by
  rw [blocksInUse_eq hno] at hG
  have hA := hU no hno
  have harea : sb.toBlockNo no ∈ inodeArea sb I := ⟨no, hno, rfl⟩
  have hsome : (inodeWrite c sb m no (ents no) offset src).isSome :=
    inodeWrite_isSome hL hA hD hoff hmax hG
  obtain ⟨⟨r, e', m'⟩, hr⟩ := Option.isSome_iff_exists.mp hsome
  have hlen : src.length < 2 ^ 64 := by
    simp only [inodeMaxBytes_eq] at hmax
    omega
  obtain ⟨rfl, hW, hG'⟩ := inodeWrite_spec hL hA hD (Or.inl harea) hG hlen hr
  obtain ⟨hU', hother⟩ : InUse (inodeArea sb I) I (Function.update ents no e') m' ∧ _ :=
    hU.change harea (fun _ _ => Iff.rfl) (fun no' _ hne => Function.update_of_ne hne _ _)
      (fun _ => by rw [Function.update_self]; exact hW.apart) hW.others
  refine ⟨e', m', hr, hW.dense, hW.content hoff, ?_, ?_, hU', ?_, ?_⟩
  · rw [length_content, hW.size]
  · intro no' hI hne
    have hunch := hU.unchanged harea hW.others hI hne
    exact ⟨content_congr hunch, hW.entries no' hne (Or.inl ⟨no', hI, rfl⟩),
      fun hD' => hD'.congr hunch⟩
  · rw [blocksInUse_eq hno, hother, Function.update_self]
    exact ⟨_, hG'⟩
  · intro m₂ e₂ hD₂ off count h
    exact inodeRead_window hD₂ h

/-! ## A sample disk -/

namespace Sample

/-- A disk with the blocks below 92 in use, as mkfs lays them out, and no files. -/
def disk : Disk := fun b =>
  if b = Mkfs.sb.bitmapStart then (List.range 92).foldl Bytes.setBit Bytes.zero else Bytes.zero

/-- An empty inode. -/
def entry (type : UInt16) : InodeEntry := { InodeEntry.zero with type := type }

/-- The blocks below 92, other than the block of inode 1. -/
def reserved : Set ℕ := { b | b < 92 ∧ b ≠ 65 }

theorem blocks_entry (m : Disk) (type : UInt16) : blocks m (entry type) = ∅ := by
  apply blocks_eq_empty
  · intro k
    rw [InodeEntry.addr]
    split <;> rfl
  · rfl

theorem apart_entry (V : Set ℕ) (m : Disk) (type : UInt16) : Apart V m (entry type) := by
  refine ⟨?_, ?_⟩
  · intro s t hs _ _ h0
    have : slot m (entry type) s ∈ (∅ : Set ℕ) := blocks_entry m type ▸ mem_blocks_of_slot hs h0
    exact absurd this (Set.notMem_empty _)
  · rw [blocks_entry]
    intro b hb
    exact absurd hb (Set.notMem_empty _)

theorem dense_entry (m : Disk) (type : UInt16) : Dense m (entry type) := by
  refine ⟨Nat.zero_le _, ?_⟩
  intro k hk
  refine iff_of_false ?_ (by simp [blocksFor, entry, InodeEntry.zero])
  intro h0
  have : blockAddr m (entry type) k ∈ (∅ : Set ℕ) := blocks_entry m type ▸ blockAddr_mem_blocks h0
  exact absurd this (Set.notMem_empty _)

theorem used_of_range {m : Disk} {n b : ℕ} (hm : m 91 = (List.range n).foldl Bytes.setBit Bytes.zero)
    (hn : n ≤ 1000) (hb : b < 1000) : Mkfs.sb.used m b = true ↔ b < n := by
  have hblock : Mkfs.sb.bblock b = 91 := by
    have : Mkfs.sb.bitmapStart = 91 := rfl
    simp only [SuperBlock.bblock, bitPerBlock_eq]
    omega
  have hmod : b % bitPerBlock = b := Nat.mod_eq_of_lt (by rw [bitPerBlock_eq]; omega)
  rw [SuperBlock.used, hblock, hm, Bytes.bit_foldl_setBit _ (by rw [bitPerBlock_eq]; omega), hmod]
  simp

theorem used_disk {b : ℕ} (hb : b < 1000) : Mkfs.sb.used disk b = true ↔ b < 92 :=
  used_of_range rfl (by decide) hb

theorem reserved_reserved : Mkfs.sb.Reserved reserved := by
  refine ⟨⟨by decide, by decide⟩, ?_⟩
  rintro a ⟨b, hb, rfl⟩
  have hb' : b < 1000 := hb
  have hblock : Mkfs.sb.bblock b = 91 := by
    have : Mkfs.sb.bitmapStart = 91 := rfl
    simp only [SuperBlock.bblock, bitPerBlock_eq]
    omega
  rw [hblock]
  exact ⟨by decide, by decide⟩

/-- The blocks from 92 up to `n` are those of files. -/
theorem exact_of_range {m : Disk} {n k : ℕ} (hm : m 91 = (List.range n).foldl Bytes.setBit Bytes.zero)
    (hn : 92 ≤ n) (hk : k + n ≤ 1000) :
    Mkfs.sb.Exact reserved k ({65} ∪ Set.Ico 92 n) m where
  bits := by
    intro b hb
    rw [used_of_range hm (by omega) hb]
    simp only [reserved, Set.mem_union, Set.mem_singleton_iff, Set.mem_Ico, Set.mem_ofPred_eq]
    omega
  lt := by
    rintro b (rfl | hb)
    · decide
    · exact lt_of_lt_of_le hb.2 (show n ≤ 1000 by omega)
  off := by
    rintro b (rfl | hb) h
    · exact h.2 rfl
    · exact absurd h.1 (not_lt.mpr hb.1)
  count := by
    have hsub : Finset.Ico n 1000 ⊆
        (Finset.range 1000).filter fun b => Mkfs.sb.used m b = false := by
      intro b hb
      rw [Finset.mem_Ico] at hb
      rw [Finset.mem_filter]
      refine ⟨Finset.mem_range.mpr hb.2, ?_⟩
      rw [← Bool.not_eq_true, used_of_range hm (by omega) hb.2]
      omega
    refine le_trans ?_ (Finset.card_le_card hsub)
    rw [Nat.card_Ico]
    omega

theorem exact_disk {n : ℕ} (hn : n ≤ 908) : Mkfs.sb.Exact reserved n {65} disk := by
  have h := exact_of_range (m := disk) (n := 92) (k := n) rfl (le_refl _) (by omega)
  rwa [Set.Ico_self, Set.union_empty] at h

/-- A file in the `n` blocks from `start` on -/
structure Stretch (e : InodeEntry) (start n : ℕ) : Prop where
  pos : 0 < start
  le : n ≤ inodeNumDirect
  addr : ∀ k, e.addr k = if k < n then start + k else 0
  indirect : e.indirect = 0

namespace Stretch

variable {start : ℕ}

theorem slot_eq (h : Stretch e start n) (s : ℕ) : slot m e s = if s < n then start + s else 0 := by
  have hle := h.le
  rw [inodeNumDirect_eq] at hle
  rw [slot, blockAddr, h.addr, if_pos h.indirect, h.indirect, inodeMaxBlocks_eq]
  split
  · rw [if_neg (by omega)]
    rfl
  · split
    · rfl
    · rename_i hs
      rw [if_neg fun hlt => hs (lt_of_lt_of_le hlt h.le)]

theorem blocks_eq (h : Stretch e start n) : blocks m e = Set.Ico start (start + n) := by
  have hle := h.le
  rw [inodeNumDirect_eq] at hle
  ext b
  constructor
  · rintro ⟨h0, s, -, rfl⟩
    rw [h.slot_eq] at h0 ⊢
    split at h0
    · rename_i hs
      rw [if_pos hs, Set.mem_Ico]
      omega
    · exact absurd rfl h0
  · intro hb
    rw [Set.mem_Ico] at hb
    have := h.pos
    refine ⟨by omega, b - start, by rw [inodeMaxBlocks_eq]; omega, ?_⟩
    rw [h.slot_eq, if_pos (by omega)]
    omega

theorem apart (h : Stretch e start n) (hV : ∀ b ∈ Set.Ico start (start + n), b ∉ V) :
    Apart V m e where
  inj s t _ _ hst h0 := by
    rw [h.slot_eq, h.slot_eq] at hst
    rw [h.slot_eq] at h0
    have := h.pos
    split at hst <;> split at hst <;> first | omega | simp_all
  off b hb := by
    rw [h.blocks_eq] at hb
    exact hV b hb

theorem dense (h : Stretch e start n) (hn : blocksFor e.numBytes.toNat = n) : Dense m e := by
  have hle := h.le
  rw [inodeNumDirect_eq] at hle
  refine ⟨?_, fun k hk => ?_⟩
  · rw [inodeMaxBytes_eq]
    simp only [blocksFor, blockSize_eq] at hn
    omega
  · have hslot := h.slot_eq (m := m) k
    rw [slot, if_neg (Nat.ne_of_lt hk)] at hslot
    rw [hslot, hn]
    have := h.pos
    split <;> simp_all
    omega

end Stretch

end Sample

namespace TwoFiles

/-- Two blocks of ones and a block of twos, and the bitmap -/
def disk : Disk := fun b =>
  if b = 91 then (List.range 95).foldl Bytes.setBit Bytes.zero
  else if b = 92 ∨ b = 93 then Bytes.ofFn fun _ => 1
  else if b = 94 then Bytes.ofFn fun _ => 2
  else Bytes.zero

/-- The inode 1 has 600 bytes in the blocks 92 and 93, the inode 2 has ten in the block 94. -/
def entry (no : ℕ) : InodeEntry :=
  if no = 1 then { Sample.entry 2 with
    numBytes := 600
    addrs := fun k => if k.val = 0 then 92 else if k.val = 1 then 93 else 0 }
  else { Sample.entry 2 with
    numBytes := 10
    addrs := fun k => if k.val = 0 then 94 else 0 }

theorem stretch_one : Sample.Stretch (entry 1) 92 2 := by
  have haddrs : ∀ k : Fin 12, ((entry 1).addrs k).toNat =
      if k.val < 2 then 92 + k.val else 0 := by decide
  refine ⟨by decide, by decide, fun k => ?_, rfl⟩
  rw [InodeEntry.addr]
  split
  · rename_i hk
    exact haddrs ⟨k, hk⟩
  · rw [if_neg (by omega)]

theorem stretch_two : Sample.Stretch (entry 2) 94 1 := by
  have haddrs : ∀ k : Fin 12, ((entry 2).addrs k).toNat =
      if k.val < 1 then 94 + k.val else 0 := by decide
  refine ⟨by decide, by decide, fun k => ?_, rfl⟩
  rw [InodeEntry.addr]
  split
  · rename_i hk
    exact haddrs ⟨k, hk⟩
  · rw [if_neg (by omega)]

theorem inodeArea_eq : inodeArea Mkfs.sb {1, 2} = {65} := by
  ext b
  simp [inodeArea, SuperBlock.toBlockNo, Mkfs.sb, Mkfs.numLogBlocks]

theorem used_eq : blocksInUse (inodeArea Mkfs.sb {1, 2}) {1, 2} entry disk =
    {65} ∪ Set.Ico 92 95 := by
  ext b
  simp only [blocksInUse, inodeArea_eq, Set.mem_union, Set.mem_singleton_iff, Set.mem_insert_iff,
    Set.mem_ofPred_eq, exists_eq_or_imp, exists_eq_left, stretch_one.blocks_eq,
    stretch_two.blocks_eq, Set.mem_Ico]
  omega

theorem inUse : InUse (inodeArea Mkfs.sb {1, 2}) {1, 2} entry disk := by
  rintro no (rfl | rfl)
  · refine stretch_one.apart fun b hb => ?_
    simp only [otherBlocks, inodeArea_eq, Set.mem_union, Set.mem_singleton_iff,
      Set.mem_insert_iff, Set.mem_ofPred_eq, exists_eq_or_imp, exists_eq_left,
      stretch_one.blocks_eq, stretch_two.blocks_eq, Set.mem_Ico] at hb ⊢
    omega
  · refine stretch_two.apart fun b hb => ?_
    simp only [otherBlocks, inodeArea_eq, Set.mem_union, Set.mem_singleton_iff,
      Set.mem_insert_iff, Set.mem_ofPred_eq, exists_eq_or_imp, exists_eq_left,
      stretch_one.blocks_eq, stretch_two.blocks_eq, Set.mem_Ico] at hb ⊢
    omega

end TwoFiles

open TwoFiles in
/-- A write over the end of a file takes a block and leaves the other file. -/
theorem files_as_arrays_two : ∃ e' m',
    inodeWrite (bcacheAlloc Mkfs.sb) Mkfs.sb disk 1 (entry 1) 590 (List.replicate 500 7) =
        some (500, e', m') ∧
      content m' e' = List.replicate 590 1 ++ List.replicate 500 7 ∧
      content m' (entry 2) = List.replicate 10 2 ∧
      inodeRead (bcacheAlloc Mkfs.sb) m' e' 585 10 =
        some (0, [1, 1, 1, 1, 1, 7, 7, 7, 7, 7], e', m') := by
  have h1 : content disk (entry 1) = List.replicate 600 1 := by decide +kernel
  have h2 : content disk (entry 2) = List.replicate 10 2 := by decide +kernel
  have hG : Mkfs.sb.Exact Sample.reserved 2
      (blocksInUse (inodeArea Mkfs.sb {1, 2}) {1, 2} entry disk) disk := by
    rw [used_eq]
    exact Sample.exact_of_range (m := disk) (n := 95) (k := 2) rfl (by decide) (by decide)
  have hsrc : (List.replicate 500 (7 : UInt8)).length = 500 := List.length_replicate
  obtain ⟨e', m', hr, hdense, hc, hlen, hother, -, -, hread⟩ := files_as_arrays 1 590
    (List.replicate 500 7) (cacheAlloc_lawful Sample.reserved_reserved) (I := {1, 2}) inUse
    (Set.mem_insert 1 {2}) (stretch_one.dense rfl) (by decide) (by rw [hsrc]; decide)
    (by rw [hsrc]; exact hG)
  rw [hsrc] at hr hlen
  rw [h1] at hc
  have hc' : content m' e' = List.replicate 590 1 ++ List.replicate 500 7 := by
    rw [hc]
    decide +kernel
  have hsize : e'.numBytes.toNat = 1090 := by
    rw [← length_content m' e', hlen]
    rfl
  refine ⟨e', m', hr, hc', ?_, ?_⟩
  · rw [(hother 2 (Set.mem_insert_of_mem 1 rfl) (by decide)).1, h2]
  · have hwindow : ((List.replicate 590 (1 : UInt8) ++ List.replicate 500 7).drop 585).take 10 =
        [1, 1, 1, 1, 1, 7, 7, 7, 7, 7] := by decide +kernel
    rw [hread m' e' hdense 585 10 (by omega), hc', hwindow]

end InUse

end OsLab
