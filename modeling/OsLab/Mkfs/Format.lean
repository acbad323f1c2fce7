import OsLab.Mkfs.Calls
import OsLab.Fs.Ownership

/-!
# The image mkfs leaves

At the end mkfs rounds the size of the root directory up and writes the bitmap.  The
image is then the one the calls built, with another size in the root inode
(`finish_eq`), so the kernel reads from it what mkfs was given.

The size is rounded up by a whole block where it is a multiple of `BSIZE` already;
then the last block of the root directory is not mapped.

## Main definitions

* `finished s` — the image after the last step.
* `Fits` — the input files for which there is room.
* `mkfs_kernel_agree` — the kernel finds the files.
* `WellFormed`, `wellFormed_iff` — when the image is in order.
-/

namespace OsLab.Mkfs

/-- The root inode with its size fixed. -/
def rounded (din : InodeEntry) : InodeEntry :=
  { din with numBytes := UInt32.ofNat ((din.numBytes.toNat / blockSize + 1) * blockSize) }

theorem slot_rounded (m : Disk) (din : InodeEntry) (i : ℕ) : slot m (rounded din) i = slot m din i :=
  rfl

theorem byteAt_rounded (m : Disk) (din : InodeEntry) (i : ℕ) :
    byteAt m (rounded din) i = byteAt m din i := rfl

/-- The image after the last step. -/
def finished (s : State) : Disk :=
  Function.update (sb.putDiskEntry s.img rootInodeNo (rounded (sb.diskEntry s.img rootInodeNo)))
    sb.bitmapStart ((List.range s.freeblock).foldl Bytes.setBit Bytes.zero)

variable {s s' : State} {files : List (List UInt8)} {no : ℕ}

theorem bitmapStart_eq : sb.bitmapStart = 91 := rfl

/-- The blocks other than the bitmap and the one of the root inode. -/
theorem finished_of_ne {b : ℕ} (hb : b ≠ 91) (hb' : b ≠ sb.toBlockNo rootInodeNo) :
    finished s b = s.img b := by
  rw [finished, bitmapStart_eq, Function.update_of_ne hb, SuperBlock.putDiskEntry_of_ne hb']

private theorem toBlockNo_ne_bitmap (hno : no ≤ nInodes) : sb.toBlockNo no ≠ sb.bitmapStart := by
  rw [toBlockNo_eq, bitmapStart_eq]
  rw [nInodes_eq] at hno
  omega

theorem finished_root :
    sb.diskEntry (finished s) rootInodeNo = rounded (sb.diskEntry s.img rootInodeNo) := by
  rw [finished, SuperBlock.diskEntry_congr (Function.update_of_ne (toBlockNo_ne_bitmap (by decide)) _ _)]
  exact SuperBlock.diskEntry_putDiskEntry_self ..

theorem finished_entry (hne : no ≠ rootInodeNo) (hno : no ≤ nInodes) :
    sb.diskEntry (finished s) no = sb.diskEntry s.img no := by
  rw [finished, SuperBlock.diskEntry_congr (Function.update_of_ne (toBlockNo_ne_bitmap hno) _ _)]
  exact SuperBlock.diskEntry_putDiskEntry_of_ne hne

theorem finished_type (hno : no ≤ nInodes) :
    (sb.diskEntry (finished s) no).type = (sb.diskEntry s.img no).type := by
  by_cases hne : no = rootInodeNo
  · rw [hne, finished_root, rounded]
  · rw [finished_entry hne hno]

theorem finished_valid (s : State) : sb.validInodes (finished s) = sb.validInodes s.img := by
  ext no
  constructor
  · rintro ⟨h1, hle, ht⟩
    rw [finished_type hle] at ht
    exact ⟨h1, hle, ht⟩
  · rintro ⟨h1, hle, ht⟩
    refine ⟨h1, hle, ?_⟩
    rw [finished_type hle]
    exact ht

/-- The data blocks are as the calls left them. -/
theorem finished_data {b : ℕ} (hb : nmeta ≤ b) : finished s b = s.img b := by
  rw [nmeta_eq] at hb
  apply finished_of_ne
  · omega
  · rw [toBlockNo_eq, rootInodeNo]
    omega

section Finished

variable (h : Built s files)

include h

theorem finish_eq : finish s = some { s with img := finished s } := by
  have hroot : rootInodeNo ≤ nInodes := by decide
  rw [finish, rinode_eq h.size hroot, Option.bind_eq_bind, Option.bind_some, finished]
  generalize hdin : sb.diskEntry s.img rootInodeNo = din
  have hw := winode_eq (e := rounded din) h.size hroot
  rw [rounded] at hw
  simp only
  rw [hw, Option.bind_eq_bind, Option.bind_some, balloc, if_pos]
  · rw [wsect_of_lt (by exact h.size) (by decide)]
    rfl
  · refine Nat.lt_of_le_of_lt h.hi ?_
    decide

private theorem finished_indirect (hno : no ∈ sb.validInodes s.img) :
    (sb.diskEntry s.img no).indirect ≠ 0 → finished s (sb.diskEntry s.img no).indirect.toNat =
      s.img (sb.diskEntry s.img no).indirect.toNat := by
  intro hi
  exact finished_data (h.block_bounds hno (indirect_mem_blocks hi)).1

/-- The addresses of an inode are as the calls left them. -/
theorem finished_slot (hno : no ∈ sb.validInodes s.img) (i : ℕ) :
    slot (finished s) (sb.diskEntry (finished s) no) i = slot s.img (sb.diskEntry s.img no) i := by
  have hsame := slot_congr (finished_indirect h hno) i
  by_cases hne : no = rootInodeNo
  · rw [hne] at hsame ⊢
    rw [finished_root, slot_rounded, hsame]
  · rw [finished_entry hne hno.2.1]
    exact hsame

theorem finished_blocks (hno : no ∈ sb.validInodes s.img) :
    blocks (finished s) (sb.diskEntry (finished s) no) = blocks s.img (sb.diskEntry s.img no) := by
  ext b
  simp only [blocks, finished_slot h hno]

/-- A file is as the calls left it. -/
theorem finished_byteAt (hno : no ∈ sb.validInodes s.img) (i : ℕ) :
    byteAt (finished s) (sb.diskEntry s.img no) i = byteAt s.img (sb.diskEntry s.img no) i :=
  byteAt_congr (fun _ hb => finished_data (h.block_bounds hno hb).1) i

/-- No address is stored twice. -/
theorem slot_unique {no' i j : ℕ} (hno : no ∈ sb.validInodes s.img)
    (hno' : no' ∈ sb.validInodes s.img) (hi : i ≤ inodeMaxBlocks) (hj : j ≤ inodeMaxBlocks)
    (hij : slot s.img (sb.diskEntry s.img no) i = slot s.img (sb.diskEntry s.img no') j)
    (h0 : slot s.img (sb.diskEntry s.img no) i ≠ 0) : no = no' ∧ i = j := by
  have heq : no = no' := by
    by_contra hne
    refine (h.inUse no hno).off _ (mem_blocks_of_slot hi h0) (Or.inr ⟨no', hno', Ne.symm hne, ?_⟩)
    rw [hij] at h0 ⊢
    exact mem_blocks_of_slot hj h0
  subst heq
  exact ⟨rfl, (h.inUse no hno).inj i j hi hj hij h0⟩

/-- The bits of the first `freeblock` blocks are set. -/
theorem finished_used {b : ℕ} (hb : b < bitPerBlock) :
    sb.used (finished s) b = true ↔ b < s.freeblock := by
  have hblock : sb.bblock b = sb.bitmapStart := by
    rw [SuperBlock.bblock, Nat.div_eq_of_lt hb, Nat.zero_add]
  have hle : s.freeblock ≤ bitPerBlock := by
    refine le_trans h.hi ?_
    decide
  rw [SuperBlock.used, hblock, finished, Function.update_self, Nat.mod_eq_of_lt hb,
    Bytes.bit_foldl_setBit _ hle, Bytes.bit_zero, Bool.or_false, decide_eq_true_eq]

end Finished

/-! ## The calls and the last step -/

variable {fs : List InputFile}

@[simp] theorem length_rootEntries (fs : List InputFile) :
    (rootEntries fs).length = fs.length + 2 := by simp [rootEntries]

theorem length_flatMap_bytes (des : List DirEntry) :
    (des.flatMap DirEntry.bytes).length = 16 * des.length := by
  induction des with
  | nil => rfl
  | cons d des ih =>
      rw [List.flatMap_cons, List.length_append, ih, DirEntry.length_bytes, List.length_cons]
      omega

@[simp] theorem length_rootBytes (fs : List InputFile) :
    (rootBytes fs).length = 16 * (fs.length + 2) := by
  rw [rootBytes, length_flatMap_bytes, length_rootEntries]

/-- The state before the last step. -/
theorem built_of_main (h : main fs = some s) (hfew : fs.length + 1 ≤ nInodes) :
    ∃ s₀, runs Call.run start (calls fs) = some s₀ ∧
      Built s₀ (rootBytes fs :: fs.map InputFile.bytes) ∧ s = { s₀ with img := finished s₀ } := by
  rw [main_eq, Option.bind_eq_some_iff] at h
  obtain ⟨s₀, hrun, hfin⟩ := h
  obtain ⟨hfine, hfold⟩ := calls_apply fs (by omega)
  have hB := built_start.runs hfine hrun
  rw [hfold] at hB
  rw [finish_eq hB] at hfin
  cases hfin
  exact ⟨s₀, hrun, hB, rfl⟩

/-- mkfs comes to its end where there is room, with one inode more than `NINODES` allows. -/
theorem main_isSome (hsize : ∀ f ∈ fs, f.bytes.length ≤ inodeMaxBytes)
    (hfew : fs.length + 1 ≤ nInodes)
    (hcost : nmeta + cost (rootBytes fs :: fs.map InputFile.bytes) ≤ fsSize) :
    (main fs).isSome := by
  obtain ⟨hfine, hfold⟩ := calls_apply fs (by omega)
  have hroot : (rootBytes fs).length ≤ inodeMaxBytes := by
    rw [length_rootBytes, inodeMaxBytes_eq]
    rw [nInodes_eq] at hfew
    omega
  have hrun : (runs Call.run start (calls fs)).isSome := by
    apply runs_isSome built_start hfine
    · rw [hfold]
      intro f hf
      rcases List.mem_cons.mp hf with rfl | hf
      · exact hroot
      · obtain ⟨g, hg, rfl⟩ := List.mem_map.mp hf
        exact hsize g hg
    · rw [hfold]
      exact hcost
  obtain ⟨s₀, hrun⟩ := Option.isSome_iff_exists.mp hrun
  have hB := built_start.runs hfine hrun
  rw [main_eq, hrun, Option.bind_some, finish_eq hB]
  rfl

/-! ## The root directory -/

/-- Entry `j` of a list of entries, whatever follows them. -/
theorem entryAt_flatMap (des : List DirEntry) (rest : List UInt8) {j : ℕ} {de : DirEntry}
    (h : des[j]? = some de) : entryAt (des.flatMap DirEntry.bytes ++ rest) j = de := by
  induction des generalizing j with
  | nil => simp at h
  | cons d des ih =>
      cases j with
      | zero =>
          rw [List.getElem?_cons_zero, Option.some.injEq] at h
          subst h
          rw [entryAt, List.flatMap_cons, List.append_assoc, Nat.mul_zero, List.drop_zero,
            List.take_left' (DirEntry.length_bytes d), DirEntry.ofBytes_bytes]
      | succ j =>
          rw [List.getElem?_cons_succ] at h
          rw [← ih h, entryAt, entryAt, List.flatMap_cons, List.append_assoc,
            show 16 * (j + 1) = 16 + 16 * j by omega, ← List.drop_drop,
            List.drop_left' (DirEntry.length_bytes d)]

/-- Every entry of the root directory is in use, under a padded name. -/
theorem rootEntries_mem (hfew : fs.length + 1 ≤ nInodes) {de : DirEntry}
    (h : de ∈ rootEntries fs) :
    de.inodeNo ≠ 0 ∧ strncpy fileNameMaxLength de.name = de.name := by
  have hmake : ∀ name n, 1 ≤ n → n ≤ 200 → (DirEntry.make name n).inodeNo ≠ 0 ∧
      strncpy fileNameMaxLength (DirEntry.make name n).name = (DirEntry.make name n).name := by
    intro name n h1 hn
    refine ⟨?_, strncpy_strncpy _ _⟩
    intro h0
    have h0' : UInt16.ofNat n = 0 := h0
    have := congrArg UInt16.toNat h0'
    rw [UInt16.toNat_ofNat_of_lt' (by rw [UInt16.size]; omega)] at this
    have hz : (0 : UInt16).toNat = 0 := rfl
    omega
  rw [nInodes_eq] at hfew
  rcases List.mem_cons.mp h with rfl | h
  · exact hmake _ _ (by decide) (by decide)
  rcases List.mem_cons.mp h with rfl | h
  · exact hmake _ _ (by decide) (by decide)
  obtain ⟨⟨f, n⟩, hmem, rfl⟩ := List.mem_map.mp h
  have hle := List.le_snd_of_mem_zipIdx hmem
  have hlt := List.snd_lt_add_of_mem_zipIdx hmem
  simp only at hle hlt
  apply hmake
  · omega
  · omega

section Root

variable {s₀ : State} (hB : Built s₀ (rootBytes fs :: fs.map InputFile.bytes))

include hB

theorem root_mem : rootInodeNo ∈ sb.validInodes s₀.img := hB.mem_valid (Nat.zero_lt_succ _)

theorem root_numBytes :
    (sb.diskEntry s₀.img rootInodeNo).numBytes.toNat = 16 * (fs.length + 2) := by
  rw [← length_rootBytes]
  exact hB.numBytes (i := 0) rfl

/-- The size of the root directory at the end. -/
theorem root_size : (sb.diskEntry (finished s₀) rootInodeNo).numBytes.toNat =
    (16 * (fs.length + 2) / blockSize + 1) * blockSize := by
  have hmax := (hB.dense _ (root_mem hB)).1
  rw [root_numBytes hB, inodeMaxBytes_eq] at hmax
  rw [finished_root, rounded, root_numBytes hB]
  apply UInt32.toNat_ofNat_of_lt'
  rw [UInt32.size, blockSize_eq]
  omega

/-- The root directory begins with the entries. -/
theorem root_content : ∃ rest, content (finished s₀) (sb.diskEntry (finished s₀) rootInodeNo) =
    rootBytes fs ++ rest := by
  have hcontent : content s₀.img (sb.diskEntry s₀.img rootInodeNo) = rootBytes fs :=
    hB.content 0 _ rfl
  have hsize := root_size hB
  rw [blockSize_eq] at hsize
  generalize hl : content (finished s₀) (sb.diskEntry (finished s₀) rootInodeNo) = l
  refine ⟨l.drop (rootBytes fs).length, ?_⟩
  have htake : l.take (rootBytes fs).length = rootBytes fs := by
    have hlen : (rootBytes fs).length ≤ l.length := by
      rw [← hl, length_content, hsize, length_rootBytes]
      omega
    apply List.ext_getElem
    · rw [List.length_take, Nat.min_eq_left hlen]
    · intro i h₁ h₂
      have hi : i < (sb.diskEntry s₀.img rootInodeNo).numBytes.toNat := by
        rw [root_numBytes hB, ← length_rootBytes]
        exact h₂
      have hgot : l.getD i 0 = (rootBytes fs).getD i 0 := by
        rw [← hl, getD_content, finished_root, byteAt_rounded, finished_byteAt hB (root_mem hB),
          ← getD_content hi, hcontent]
        rw [← length_content (finished s₀), hl]
        omega
      rw [List.getElem_take]
      rwa [List.getD_eq_getElem _ _ (by omega), List.getD_eq_getElem _ _ h₂] at hgot
  nth_rewrite 1 [← List.take_append_drop (rootBytes fs).length l]
  rw [htake]

/-- `inode_lookup` finds the first entry with a name. -/
theorem lookup_root (c : BlockAlloc) (hfew : fs.length + 1 ≤ nInodes) {name : List UInt8} {j : ℕ}
    {de : DirEntry} (hj : (rootEntries fs)[j]? = some de)
    (hname : de.name = strncpy fileNameMaxLength name)
    (hfirst : ∀ i, i < j → ∀ de', (rootEntries fs)[i]? = some de' →
      de'.name ≠ strncpy fileNameMaxLength name) :
    inodeLookup c (finished s₀) (sb.diskEntry (finished s₀) rootInodeNo) name =
      some (de.inodeNo.toNat, some (16 * j), sb.diskEntry (finished s₀) rootInodeNo,
        finished s₀) := by
  have hlt : j < fs.length + 2 := by
    rw [← length_rootEntries fs]
    exact (List.getElem?_eq_some_iff.mp hj).1
  obtain ⟨rest, hcontent⟩ := root_content hB
  have hsize := root_size hB
  have htype : (sb.diskEntry (finished s₀) rootInodeNo).type = inodeDirectory := by
    rw [finished_type (by decide), hB.types _ (root_mem hB), if_pos rfl]
  have hmap : ∀ i, i < 16 * j + 16 →
      blockAddr (finished s₀) (sb.diskEntry (finished s₀) rootInodeNo) (i / blockSize) ≠ 0 := by
    intro i hi
    have hi' : i < (sb.diskEntry s₀.img rootInodeNo).numBytes.toNat := by
      rw [root_numBytes hB]
      omega
    have hmax := (hB.dense _ (root_mem hB)).1
    have hk : i / blockSize < inodeMaxBlocks := by
      rw [inodeMaxBytes_eq] at hmax
      rw [inodeMaxBlocks_eq, blockSize_eq]
      omega
    rw [← slot_of_lt hk, finished_slot hB (root_mem hB), slot_of_lt hk]
    exact (hB.dense _ (root_mem hB)).blockAddr_ne_zero hi'
  generalize hm : finished s₀ = m at *
  generalize he : sb.diskEntry m rootInodeNo = e at *
  have hentry : ∀ i de', (rootEntries fs)[i]? = some de' → entryAt (content m e) i = de' := by
    intro i de' hi
    rw [hcontent]
    exact entryAt_flatMap _ _ hi
  rw [blockSize_eq] at hsize
  have hnamed : NamedAt (content m e) (strncpy fileNameMaxLength name) j := by
    obtain ⟨h0, hpad⟩ := rootEntries_mem hfew (List.mem_of_getElem? hj)
    rw [NamedAt, hentry j de hj]
    exact ⟨h0, hpad.trans hname⟩
  have hbefore : ∀ i, i < j → ¬ NamedAt (content m e) (strncpy fileNameMaxLength name) i := by
    intro i hi hnamed'
    have hlt' : i < (rootEntries fs).length := by
      rw [length_rootEntries]
      omega
    have hget := List.getElem?_eq_getElem hlt'
    rw [NamedAt, hentry i _ hget] at hnamed'
    obtain ⟨-, hpad⟩ := rootEntries_mem hfew (List.mem_of_getElem? hget)
    exact hfirst i hi _ hget (hpad.symm.trans hnamed'.2)
  have hloop := lookupLoop_found (c := c) (by omega) (by omega) hmap hnamed hbefore j 0
    (e.numBytes.toNat + 1) (by omega) (by omega)
  rw [Nat.mul_zero] at hloop
  rw [inodeLookup, if_pos htype, hloop, Option.bind_eq_bind, Option.bind_some, hentry j de hj]

end Root

/-! ## mkfs and the kernel -/

/-- The input files for which there is room. -/
structure Fits (fs : List InputFile) : Prop where
  size : ∀ f ∈ fs, f.bytes.length ≤ inodeMaxBytes
  inodes : fs.length + 1 < nInodes
  blocks : nmeta + cost (rootBytes fs :: fs.map InputFile.bytes) ≤ fsSize

/-- `inode_get` of the first inode. -/
theorem inodeGet_init (m : Disk) (h1 : 0 < no) (hno : no < nInodes) :
    InodeTree.inodeGet sb (InodeTree.init m) no =
      some ⟨m, [⟨0, no, 1, true, sb.diskEntry m no⟩], 1⟩ := by
  have hno' : no < sb.numInodes := hno
  rw [InodeTree.inodeGet, if_pos ⟨h1, hno'⟩]
  rfl

/-- **mkfs and the kernel agree on the format.**  Where the input files fit, mkfs comes to its end
and has used the blocks it should.  Then `inode_get` and `inode_read` give each file with its size,
and `inode_lookup` in the root directory gives the first entry with a name. -/
theorem mkfs_kernel_agree (c : BlockAlloc) (hfit : Fits fs) : ∃ s, main fs = some s ∧
    s.freeblock = nmeta + cost (rootBytes fs :: fs.map InputFile.bytes) ∧
    s.img 1 = sbSector ∧
    (∀ i f, fs[i]? = some f → ∃ ip, InodeTree.inodeGet sb (InodeTree.init s.img) (i + 2) =
        some ⟨s.img, [ip], 1⟩ ∧ ip.inodeNo = i + 2 ∧ ip.rc = 1 ∧ ip.valid = true ∧
        ip.entry.type = inodeRegular ∧ ip.entry.numBytes.toNat = f.bytes.length ∧
        ∀ offset count, offset + count ≤ f.bytes.length →
          inodeRead c s.img ip.entry offset count =
            some (0, (f.bytes.drop offset).take count, ip.entry, s.img)) ∧
    ∃ ip, InodeTree.inodeGet sb (InodeTree.init s.img) rootInodeNo = some ⟨s.img, [ip], 1⟩ ∧
      ip.inodeNo = rootInodeNo ∧ ip.rc = 1 ∧ ip.valid = true ∧
      ∀ name ∈ dot :: dotDot :: fs.map InputFile.name, ∃ (j : ℕ) (de : DirEntry), (rootEntries fs)[j]? = some de ∧
        de.name = strncpy fileNameMaxLength name ∧
        (∀ i, i < j → ∀ de', (rootEntries fs)[i]? = some de' →
          de'.name ≠ strncpy fileNameMaxLength name) ∧
        inodeLookup c s.img ip.entry name =
          some (de.inodeNo.toNat, some (16 * j), ip.entry, s.img) := by
  have hfew : fs.length + 1 ≤ nInodes := hfit.inodes.le
  obtain ⟨s, hs⟩ := Option.isSome_iff_exists.mp (main_isSome hfit.size hfew hfit.blocks)
  obtain ⟨s₀, -, hB, rfl⟩ := built_of_main hs hfew
  refine ⟨_, hs, hB.free, ?_, ?_, ?_⟩
  · show finished s₀ 1 = sbSector
    have hno : 1 ∉ sb.inodeBlocks := by
      rw [mem_inodeBlocks]
      omega
    rw [finished_of_ne (by decide) (by decide), hB.fixed 1 (by decide) hno]
    show Function.update (fun _ => Bytes.zero) 1 sbSector 1 = sbSector
    rw [Function.update_self]
  · intro i f hf
    have hlt := (List.getElem?_eq_some_iff.mp hf).1
    have hlt' : i + 2 < nInodes := by
      have := hfit.inodes
      omega
    refine ⟨_, inodeGet_init _ (Nat.zero_lt_succ _) hlt', rfl, rfl, rfl, ?_⟩
    show (sb.diskEntry (finished s₀) (i + 2)).type = inodeRegular ∧ _
    have hget : (rootBytes fs :: fs.map InputFile.bytes)[i + 1]? = some f.bytes := by
      rw [List.getElem?_cons_succ, List.getElem?_map, hf]
      rfl
    have hmem : i + 2 ∈ sb.validInodes s₀.img := hB.mem_valid (List.getElem?_eq_some_iff.mp hget).1
    have hentry : sb.diskEntry (finished s₀) (i + 2) = sb.diskEntry s₀.img (i + 2) :=
      finished_entry (by rw [rootInodeNo]; omega) hlt'.le
    have hdata : ∀ b ∈ blocks s₀.img (sb.diskEntry s₀.img (i + 2)),
        finished s₀ b = s₀.img b := fun b hb => finished_data (hB.block_bounds hmem hb).1
    have hcontent : content (finished s₀) (sb.diskEntry s₀.img (i + 2)) = f.bytes := by
      rw [content_congr hdata]
      exact hB.content (i + 1) _ hget
    have hnum := hB.numBytes hget
    rw [hentry]
    refine ⟨?_, hnum, ?_⟩
    · rw [hB.types _ hmem, if_neg (by rw [rootInodeNo]; omega)]
    · intro offset count hle
      rw [← hcontent]
      apply inodeRead_window ((hB.dense _ hmem).congr hdata)
      rw [hnum]
      exact hle
  · refine ⟨_, inodeGet_init _ (by decide) (by decide), rfl, rfl, rfl, ?_⟩
    intro name hname
    -- the first entry with the name
    have hex : ∃ j : ℕ, ∃ de : DirEntry, (rootEntries fs)[j]? = some de ∧
        de.name = strncpy fileNameMaxLength name := by
      have hmem : ∃ de ∈ rootEntries fs, de.name = strncpy fileNameMaxLength name := by
        rcases List.mem_cons.mp hname with rfl | hname
        · exact ⟨_, List.mem_cons_self, rfl⟩
        rcases List.mem_cons.mp hname with rfl | hname
        · exact ⟨_, List.mem_cons_of_mem _ List.mem_cons_self, rfl⟩
        obtain ⟨f, hf, rfl⟩ := List.mem_map.mp hname
        obtain ⟨i, hi⟩ := List.mem_iff_getElem?.mp hf
        refine ⟨DirEntry.make f.name (2 + i), ?_, rfl⟩
        refine List.mem_cons_of_mem _ (List.mem_cons_of_mem _ (List.mem_map.mpr ⟨(f, 2 + i), ?_, rfl⟩))
        exact List.mk_add_mem_zipIdx_iff_getElem?.mpr hi
      obtain ⟨de, hde, hn⟩ := hmem
      obtain ⟨j, hj⟩ := List.mem_iff_getElem?.mp hde
      exact ⟨j, de, hj, hn⟩
    classical
    obtain ⟨de, hj, hn⟩ := Nat.find_spec hex
    have hfirst : ∀ i, i < Nat.find hex → ∀ de', (rootEntries fs)[i]? = some de' →
        de'.name ≠ strncpy fileNameMaxLength name := by
      intro i hi de' hde' heq
      exact Nat.find_min hex hi ⟨de', hde', heq⟩
    exact ⟨_, de, hj, hn, hfirst, lookup_root hB c hfew hj hn hfirst⟩

/-- A file of three bytes. -/
def smallFile : InputFile where
  path := [97, 47, 95, 98]
  chunks := [[1, 2], [3]]
  isPath := by simp
  isChunk := by decide

theorem fits_small : Fits [smallFile] where
  size := by decide
  inodes := by decide
  blocks := by decide

theorem mkfs_kernel_agree_small : Fits [smallFile] ∧ ∃ s, main [smallFile] = some s ∧
    s.freeblock = 94 := by
  refine ⟨fits_small, ?_⟩
  obtain ⟨s, hs, hfree, -⟩ := mkfs_kernel_agree (bcacheAlloc sb) fits_small
  refine ⟨s, hs, ?_⟩
  rw [hfree]
  decide

/-! ## Images in order -/

/-- **The image is in order**: the inode numbers are below `NINODES`, every block number stored is
that of a data block and stored once, each call and the last step wrote to their own inode and its
blocks only, and the bitmap has the blocks in use. -/
structure WellFormed (fs : List InputFile) (s : State) : Prop where
  inodes : ∀ no, 1 ≤ no → no < s.freeinode → no < nInodes
  placed : ∀ no, 1 ≤ no → no < s.freeinode → ∀ b ∈ blocks s.img (sb.diskEntry s.img no),
    nmeta ≤ b ∧ b < fsSize
  once : ∀ no no', 1 ≤ no → no < s.freeinode → 1 ≤ no' → no' < s.freeinode →
    ∀ i j, i ≤ inodeMaxBlocks → j ≤ inodeMaxBlocks →
      slot s.img (sb.diskEntry s.img no) i = slot s.img (sb.diskEntry s.img no') j →
      slot s.img (sb.diskEntry s.img no) i ≠ 0 → no = no' ∧ i = j
  calls : ∀ pre c post s₀ s₁, calls fs = pre ++ c :: post → runs Call.run start pre = some s₀ →
    c.run s₀ = some s₁ → Leaves s₀ s₁ (c.inum s₀)
  last : ∀ s₀ din s₁, runs Call.run start (Mkfs.calls fs) = some s₀ →
    rinode s₀ rootInodeNo = some din → winode s₀ rootInodeNo (rounded din) = some s₁ →
    Leaves s₀ s₁ rootInodeNo
  bitmap : ∀ b, b < bitPerBlock → (sb.used s.img b = true ↔
    b < nmeta ∨ ∃ no, 1 ≤ no ∧ no < s.freeinode ∧ b ∈ blocks s.img (sb.diskEntry s.img no))

/-- A call in the middle of the run. -/
private theorem leaves_of_calls (hfew : fs.length + 1 ≤ nInodes) {pre post : List Call} {c : Call}
    {s₀ s₁ : State} (hsplit : calls fs = pre ++ c :: post)
    (hpre : runs Call.run start pre = some s₀) (hc : c.run s₀ = some s₁) :
    Leaves s₀ s₁ (c.inum s₀) := by
  obtain ⟨hfine, -⟩ := calls_apply fs (by omega)
  rw [hsplit] at hfine
  exact ((built_start.runs hfine.left hpre).run hfine.right.1 hc).2

/-- The size of the root inode is written to the root inode. -/
private theorem leaves_of_last (hB : Built s files) {din : InodeEntry}
    (hw : winode s rootInodeNo (rounded din) = some s') : Leaves s s' rootInodeNo := by
  have hroot : rootInodeNo ≤ nInodes := by decide
  have harea := toBlockNo_mem hroot
  rw [winode_eq hB.size hroot] at hw
  cases hw
  refine ⟨?_, ?_, ?_⟩
  · intro b _ hb
    apply SuperBlock.putDiskEntry_of_ne
    rintro rfl
    exact hb harea
  · intro no' _ _ hne
    exact SuperBlock.diskEntry_putDiskEntry_of_ne hne
  · intro no' h1 hlt _ b hb
    apply SuperBlock.putDiskEntry_of_ne
    rintro rfl
    have hlo := (hB.block_bounds (hB.valid_of_lt h1 hlt) hb).1
    have harea' := mem_inodeBlocks.mp harea
    rw [nmeta_eq] at hlo
    omega

/-- The image is in order where the inodes are few enough. -/
private theorem wellFormed_of_few (h : main fs = some s) (hfew : fs.length + 1 < nInodes) :
    WellFormed fs s := by
  obtain ⟨s₀, hrun, hB, rfl⟩ := built_of_main h hfew.le
  have hvalid : ∀ no, 1 ≤ no → no < s₀.freeinode → no ∈ sb.validInodes s₀.img :=
    fun no h1 hlt => hB.valid_of_lt h1 hlt
  constructor
  case inodes =>
    intro no h1 hlt
    have hlt' : no < s₀.freeinode := hlt
    rw [hB.inodes, List.length_cons, List.length_map] at hlt'
    omega
  case placed =>
    intro no h1 hlt b hb
    have hb' : b ∈ blocks (finished s₀) (sb.diskEntry (finished s₀) no) := hb
    rw [finished_blocks hB (hvalid no h1 hlt)] at hb'
    have := hB.block_bounds (hvalid no h1 hlt) hb'
    have := hB.hi
    omega
  case once =>
    intro no no' h1 hlt h1' hlt' i j hi hj hij h0
    have hno := hvalid no h1 hlt
    have hno' := hvalid no' h1' hlt'
    have hij' : slot (finished s₀) (sb.diskEntry (finished s₀) no) i =
      slot (finished s₀) (sb.diskEntry (finished s₀) no') j := hij
    have h0' : slot (finished s₀) (sb.diskEntry (finished s₀) no) i ≠ 0 := h0
    rw [finished_slot hB hno, finished_slot hB hno'] at hij'
    rw [finished_slot hB hno] at h0'
    exact slot_unique hB hno hno' hi hj hij' h0'
  case calls =>
    intro pre c post s₁ s₂ hsplit hpre hc
    exact leaves_of_calls hfew.le hsplit hpre hc
  case last =>
    intro s₁ din s₂ hrun' _ hw
    rw [hrun] at hrun'
    cases hrun'
    exact leaves_of_last hB hw
  case bitmap =>
    intro b hb
    show sb.used (finished s₀) b = true ↔ b < nmeta ∨ ∃ no, 1 ≤ no ∧ no < s₀.freeinode ∧
      b ∈ blocks (finished s₀) (sb.diskEntry (finished s₀) no)
    have hlo := hB.lo
    rw [finished_used hB hb]
    constructor
    · intro hlt
      by_cases hmeta : b < nmeta
      · exact Or.inl hmeta
      · obtain ⟨no, hno, hb'⟩ := (hB.blocks b).mpr ⟨by omega, hlt⟩
        have hno' := (hB.valid no).mp hno
        refine Or.inr ⟨no, hno'.1, by rw [hB.inodes]; omega, ?_⟩
        rw [finished_blocks hB hno]
        exact hb'
    · rintro (hlt | ⟨no, h1, hlt, hb'⟩)
      · omega
      · rw [finished_blocks hB (hvalid no h1 hlt)] at hb'
        exact (hB.block_bounds (hvalid no h1 hlt) hb').2

theorem finish_freeinode (h : finish s = some s') : s'.freeinode = s.freeinode := by
  rw [finish, Option.bind_eq_bind, Option.bind_eq_some_iff] at h
  obtain ⟨din, -, h⟩ := h
  rw [Option.bind_eq_bind, Option.bind_eq_some_iff] at h
  obtain ⟨s₁, hw, h⟩ := h
  rw [balloc] at h
  split at h
  · cases h
    show s₁.freeinode = s.freeinode
    exact winode_freeinode hw
  · cases h

/-- **When mkfs leaves an image in order**: it does not look at the number of inodes, and at
everything else it does. -/
theorem wellFormed_iff (h : main fs = some s) : WellFormed fs s ↔ fs.length + 1 < nInodes := by
  constructor
  · intro hW
    have hfree : s.freeinode = fs.length + 2 := by
      rw [main_eq, Option.bind_eq_some_iff] at h
      obtain ⟨s₀, hrun, hfin⟩ := h
      rw [finish_freeinode hfin, freeinode_of_calls hrun]
    exact hW.inodes (fs.length + 1) (by omega) (by omega)
  · exact wellFormed_of_few h

theorem wellFormed_small : ∃ s, main [smallFile] = some s ∧ WellFormed [smallFile] s := by
  obtain ⟨s, hs⟩ := Option.isSome_iff_exists.mp
    (main_isSome fits_small.size fits_small.inodes.le fits_small.blocks)
  exact ⟨s, hs, (wellFormed_iff hs).mpr fits_small.inodes⟩

/-- An empty file. -/
def emptyFile : InputFile where
  path := [97]
  chunks := []
  isPath := by simp
  isChunk := by decide

/-- The blocks of the root directory. -/
theorem cost_replicate_empty (n : ℕ) : cost (rootBytes (List.replicate n emptyFile) ::
    (List.replicate n emptyFile).map InputFile.bytes) = total (blocksFor (16 * (n + 2))) := by
  have hbytes : InputFile.bytes emptyFile = [] := rfl
  have hnil : total (blocksFor ([] : List UInt8).length) = 0 := rfl
  rw [cost, List.map_cons, List.sum_cons, length_rootBytes, List.length_replicate,
    List.map_replicate, List.map_replicate, List.sum_replicate, hbytes, hnil, nsmul_zero, add_zero]

/-- With 199 empty files mkfs comes to its end, and uses inode 200. -/
theorem inode_past_the_end : ∃ s, main (List.replicate 199 emptyFile) = some s ∧
    s.freeinode = 201 ∧ ¬ WellFormed (List.replicate 199 emptyFile) s := by
  have hcost : nmeta + cost (rootBytes (List.replicate 199 emptyFile) ::
      (List.replicate 199 emptyFile).map InputFile.bytes) ≤ fsSize := by
    rw [cost_replicate_empty]
    decide
  have hsome : (main (List.replicate 199 emptyFile)).isSome := by
    apply main_isSome _ _ hcost
    · intro f hf
      rw [List.eq_of_mem_replicate hf]
      decide
    · rw [List.length_replicate]
      decide
  obtain ⟨s, hs⟩ := Option.isSome_iff_exists.mp hsome
  have hfree : s.freeinode = 201 := by
    rw [main_eq, Option.bind_eq_some_iff] at hs
    obtain ⟨s₀, hrun, hfin⟩ := hs
    rw [finish_freeinode hfin, freeinode_of_calls hrun, List.length_replicate]
  refine ⟨s, hs, hfree, ?_⟩
  intro hW
  have hlt := hW.inodes 200 (by decide) (by rw [hfree]; decide)
  exact absurd hlt (by decide)

end OsLab.Mkfs
