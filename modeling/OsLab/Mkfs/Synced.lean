import OsLab.Mkfs.Format

/-!
# Writes on an image of mkfs

`inode_write` stores the entry of an inode only where the file gets longer, and does
not look at the `modified` flag of `inode_map`.  That is enough as long as every block
below the size of a file is mapped, which holds of the images of mkfs except for the
root directory: where its entries fill whole blocks, its size is rounded up by a block
that is not there.

## Main definitions

* `sound_of_main` — the other images are sound, so the operations keep them sound.
* `write_reaches_disk` — what a write changes reaches the disk.
* `write_into_hole` — a write into the missing block does not.
-/

namespace OsLab.Mkfs

theorem wellLaid : sb.WellLaid where
  pos := by decide
  boot := by decide
  inodes := by decide
  bitmap := by
    intro b hb
    have hb' : b < 1000 := hb
    show b / 4096 + 91 < 92
    omega

variable {fs : List InputFile} {s : State} {files : List (List UInt8)}

section Image

variable (h : Built s files)

include h

/-- No block is used twice. -/
theorem finished_inUse : InUse sb.inodeBlocks (sb.validInodes (finished s))
    (sb.diskEntry (finished s)) (finished s) := by
  rw [finished_valid]
  intro no hno
  refine ⟨?_, ?_⟩
  · intro i j hi hj hij h0
    rw [finished_slot h hno] at hij h0
    rw [finished_slot h hno] at hij
    exact (slot_unique h hno hno hi hj hij h0).2
  · intro b hb
    rw [finished_blocks h hno] at hb
    rintro (harea | ⟨no', hno', hne, hb'⟩)
    · have harea' := mem_inodeBlocks.mp harea
      have hlo := (h.block_bounds hno hb).1
      rw [nmeta_eq] at hlo
      omega
    · rw [finished_blocks h hno'] at hb'
      exact (h.inUse no hno).off b hb (Or.inr ⟨no', hno', hne, hb'⟩)

/-- The bits are those of the blocks in use. -/
theorem finished_exact : sb.Exact sb.metaBlocks (fsSize - s.freeblock)
    (blocksInUse sb.inodeBlocks (sb.validInodes (finished s)) (sb.diskEntry (finished s))
      (finished s)) (finished s) := by
  have hlo := h.lo
  have hhi := h.hi
  have hbit : ∀ b, b < fsSize → (sb.used (finished s) b = true ↔ b < s.freeblock) := by
    intro b hb
    apply finished_used h
    rw [fsSize_eq] at hb
    rw [bitPerBlock_eq]
    omega
  have hin : ∀ b, b ∈ blocksInUse sb.inodeBlocks (sb.validInodes (finished s))
      (sb.diskEntry (finished s)) (finished s) ↔
        b ∈ sb.inodeBlocks ∨ nmeta ≤ b ∧ b < s.freeblock := by
    intro b
    rw [← h.blocks b, finished_valid]
    constructor
    · rintro (hb | ⟨no, hno, hb⟩)
      · exact Or.inl hb
      · rw [finished_blocks h hno] at hb
        exact Or.inr ⟨no, hno, hb⟩
    · rintro (hb | ⟨no, hno, hb⟩)
      · exact Or.inl hb
      · rw [← finished_blocks h hno] at hb
        exact Or.inr ⟨no, hno, hb⟩
  have harea : ∀ b ∈ sb.inodeBlocks, b < nmeta := by
    intro b hb
    have := mem_inodeBlocks.mp hb
    rw [nmeta_eq]
    omega
  refine ⟨?_, ?_, ?_, ?_⟩
  · intro b hb
    rw [hbit b hb, hin]
    constructor
    · intro hlt
      by_cases hmeta : b < nmeta
      · by_cases hA : b ∈ sb.inodeBlocks
        · exact Or.inl (Or.inl hA)
        · exact Or.inr ⟨hmeta, hA⟩
      · exact Or.inl (Or.inr ⟨by omega, hlt⟩)
    · rintro ((hA | hb') | hK)
      · have := harea b hA
        omega
      · exact hb'.2
      · have hK' : b < nmeta := hK.1
        omega
  · intro b hb
    show b < fsSize
    rcases (hin b).mp hb with hA | hb'
    · have := harea b hA
      omega
    · omega
  · intro b hb hK
    rcases (hin b).mp hb with hA | hb'
    · exact hK.2 hA
    · have hK' : b < nmeta := hK.1
      omega
  · rw [← Nat.card_Ico]
    apply Finset.card_le_card
    intro b hb
    rw [Finset.mem_Ico] at hb
    rw [Finset.mem_filter, Finset.mem_range]
    refine ⟨hb.2, ?_⟩
    rw [Bool.eq_false_iff, Ne, hbit b hb.2]
    omega

end Image

/-- The image is sound where the root directory has all its blocks. -/
theorem sound_of_main (h : main fs = some s) (hfew : fs.length + 1 ≤ nInodes)
    (hmod : (fs.length + 2) % 32 ≠ 0) : SoundImage sb sb.metaBlocks s.img := by
  obtain ⟨s₀, -, hB, rfl⟩ := built_of_main h hfew
  refine ⟨?_, finished_inUse hB, (finished_exact hB).mono (Nat.zero_le _)⟩
  intro no hno
  show Dense (finished s₀) (sb.diskEntry (finished s₀) no)
  have hno' : no ∈ sb.validInodes (finished s₀) := hno
  rw [finished_valid] at hno'
  have hD := hB.dense no hno'
  by_cases hroot : no = rootInodeNo
  · -- the last entry is in the last block
    subst hroot
    have hnum := root_numBytes hB
    obtain ⟨hmax, hM⟩ := hD
    rw [hnum] at hmax hM
    have hcount : blocksFor ((16 * (fs.length + 2) / blockSize + 1) * blockSize) =
        blocksFor (16 * (fs.length + 2)) := by
      simp only [blocksFor, blockSize_eq]
      omega
    rw [Dense, root_size hB, hcount]
    refine ⟨?_, ?_⟩
    · rw [inodeMaxBytes_eq] at hmax ⊢
      rw [blockSize_eq]
      omega
    · intro k hk
      rw [← slot_of_lt hk, finished_slot hB hno', slot_of_lt hk]
      exact hM k hk
  · rw [finished_entry hroot hno'.2.1]
    exact hD.congr fun b hb => finished_data (hB.block_bounds hno' hb).1

end OsLab.Mkfs

namespace OsLab.InodeTree

/-! ## Numbers in memory -/

variable {c : BlockAlloc} {sb : SuperBlock} {s s' : InodeTree} {ip : Inode} {id : ℕ}

/-- The inodes in memory have numbers that `inode_get` takes. -/
def Numbered (sb : SuperBlock) (s : InodeTree) : Prop :=
  ∀ ip ∈ s.head, 0 < ip.inodeNo ∧ ip.inodeNo < sb.numInodes

private theorem Numbered.modify (h : Numbered sb s) {f : Inode → Inode}
    (hf : ∀ ip, (f ip).inodeNo = ip.inodeNo) : Numbered sb (s.modify id f) := by
  intro jp hjp
  obtain ⟨ip, hip, rfl⟩ := mem_modify hjp
  split
  · rw [hf]
    exact h ip hip
  · exact h ip hip

private theorem Numbered.get (h : Numbered sb s) {no : ℕ} (hr : inodeGet sb s no = some s') :
    Numbered sb s' := by
  rw [inodeGet] at hr
  split at hr
  case isFalse => cases hr
  rename_i hno
  split at hr
  · cases hr
    exact h.modify fun _ => rfl
  · split at hr
    · cases hr
      intro jp hjp
      obtain ⟨ip, hip, rfl⟩ := mem_modify hjp
      split
      · exact hno
      · exact h ip hip
    · cases hr
      intro jp hjp
      rcases List.mem_cons.mp hjp with rfl | hjp
      · exact hno
      · exact h jp hjp

private theorem Numbered.store (h : Numbered sb s) (e : InodeEntry) (m : Disk) :
    Numbered sb (s.store id e m) := h.modify (s := s) (f := fun ip => { ip with entry := e }) fun _ => rfl

private theorem Numbered.put (h : Numbered sb s) (hr : inodePut c sb s ip = some s') :
    Numbered sb s' := by
  rw [inodePut] at hr
  split at hr
  · cases hr
  · split at hr
    · rw [Option.bind_eq_bind, Option.bind_eq_some_iff] at hr
      obtain ⟨⟨e, m⟩, -, hr⟩ := hr
      cases hr
      intro jp hjp
      exact h jp (List.mem_of_mem_filter hjp)
    · cases hr
      exact h.modify fun _ => rfl

theorem Numbered.step (h : Numbered sb s) {call : InodeCall} (hr : s.step c sb call = some s') :
    Numbered sb s' := by
  cases call with
  | get no => exact h.get hr
  | alloc type =>
      rw [InodeTree.step, Option.bind_eq_bind, Option.bind_eq_some_iff] at hr
      obtain ⟨⟨no, m⟩, -, hr⟩ := hr
      cases hr
      exact h
  | share id =>
      rw [InodeTree.step, Option.bind_eq_bind, Option.bind_eq_some_iff] at hr
      obtain ⟨ip, -, hr⟩ := hr
      cases hr
      exact h.modify fun _ => rfl
  | put id =>
      rw [InodeTree.step, Option.bind_eq_bind, Option.bind_eq_some_iff] at hr
      obtain ⟨ip, -, hr⟩ := hr
      exact h.put hr
  | setLinks id n =>
      rw [InodeTree.step, Option.bind_eq_bind, Option.bind_eq_some_iff] at hr
      obtain ⟨ip, -, hr⟩ := hr
      cases hr
      exact h.store _ _
  | clear id | read id offset count | write id offset src | lookup id name | insert id name inodeNo
  | remove id index =>
      rw [InodeTree.step, Option.bind_eq_bind, Option.bind_eq_some_iff] at hr
      obtain ⟨ip, -, hr⟩ := hr
      rw [Option.bind_eq_bind, Option.bind_eq_some_iff] at hr
      obtain ⟨r, -, hr⟩ := hr
      cases hr
      exact h.store _ _

/-- The inode after an operation on its entry. -/
theorem find_store (hf : s.find id = some ip) (e : InodeEntry) (m : Disk) :
    (s.store id e m).find id = some { ip with entry := e } := by
  obtain ⟨-, hid, -⟩ := find_eq_some hf
  show (s.head.map fun ip => if ip.id = id then { ip with entry := e } else ip).find? _ = _
  rw [List.find?_map]
  have hsame : ((fun ip : Inode => decide (ip.id = id ∧ 0 < ip.rc)) ∘
      fun ip => if ip.id = id then { ip with entry := e } else ip) =
        fun ip => decide (ip.id = id ∧ 0 < ip.rc) := by
    funext jp
    rw [Function.comp]
    split <;> rfl
  rw [hsame]
  rw [find] at hf
  rw [hf, Option.map_some, if_pos hid]

end OsLab.InodeTree

namespace OsLab.Mkfs

/-! ## Writes -/

variable {fs : List InputFile} {s : State}

/-- **What a write changes reaches the disk inode**, from every image of mkfs whose inodes are not
too many and whose root directory does not end with a block: after an `inode_write` the entry on
the disk is the one in memory, and `inode_get` and `inode_read` after a restart give the bytes
written. -/
theorem write_reaches_disk (h : main fs = some s) (hfew : fs.length + 1 ≤ nInodes)
    (hmod : (fs.length + 2) % 32 ≠ 0) {t t' : InodeTree}
    (hr : Reach (fun s => s.step (bcacheAlloc sb) sb) (InodeTree.Legal sb) (InodeTree.init s.img) t)
    (id offset : ℕ) (src : List UInt8) (hleg : InodeTree.Legal sb t (.write id offset src))
    (hw : t.step (bcacheAlloc sb) sb (.write id offset src) = some t') :
    ∃ ip, t'.find id = some ip ∧ sb.diskEntry t'.disk ip.inodeNo = ip.entry ∧
      ∃ jp u, InodeTree.inodeGet sb (InodeTree.init t'.disk) ip.inodeNo = some ⟨t'.disk, [jp], u⟩ ∧
        jp.entry = ip.entry ∧ inodeRead (bcacheAlloc sb) t'.disk jp.entry offset src.length =
          some (0, src, jp.entry, t'.disk) := by
  have hlay := wellLaid.layout
  have hI := InodeTree.Inv.of_reach hlay (sound_of_main h hfew hmod) hr
  have hN : InodeTree.Numbered sb t := hr.invariant (fun _ hip => absurd hip List.not_mem_nil)
    fun _ _ _ hN _ hs => hN.step hs
  rw [InodeTree.step, Option.bind_eq_bind, Option.bind_eq_some_iff] at hw
  obtain ⟨ip, hf, hw⟩ := hw
  rw [Option.bind_eq_bind, Option.bind_eq_some_iff] at hw
  obtain ⟨⟨r, e, m⟩, hw, ht'⟩ := hw
  cases ht'
  obtain ⟨hip, -, hpos⟩ := InodeTree.find_eq_some hf
  obtain ⟨-, hno, he⟩ := hI.live ip hip hpos
  rw [he] at hw
  obtain ⟨hD, hA, hE⟩ := hI.image.at hno
  have hoff := (inodeWrite_cases hleg hw).2.1
  obtain ⟨-, hW, -⟩ := inodeWrite_spec (cacheAlloc_lawful hlay.reserved) hA hD
    (Or.inl ⟨ip.inodeNo, hno.2.1, rfl⟩) hE hleg hw
  have hsync := hW.synced rfl
  refine ⟨_, InodeTree.find_store hf e m, hsync, _, _,
    inodeGet_init m (hN ip hip).1 (hN ip hip).2, hsync, ?_⟩
  show inodeRead _ m (sb.diskEntry m ip.inodeNo) offset src.length =
    some (0, src, sb.diskEntry m ip.inodeNo, m)
  have hlen : offset + src.length ≤ e.numBytes.toNat := by
    rw [hW.size]
    exact Nat.le_max_right _ _
  rw [hsync, inodeRead_window hW.dense hlen, hW.content hoff, replaceAt, List.append_assoc,
    List.drop_left' (by rw [List.length_take, length_content]; omega), List.take_left' rfl]

/-- The first `inode_get` after a restart. -/
theorem reach_get {m : Disk} {no : ℕ} (h1 : 0 < no) (hno : no < nInodes)
    (ht : (sb.diskEntry m no).type ≠ inodeInvalid) :
    Reach (fun s => s.step (bcacheAlloc sb) sb) (InodeTree.Legal sb) (InodeTree.init m)
      ⟨m, [⟨0, no, 1, true, sb.diskEntry m no⟩], 1⟩ :=
  Reach.init.step (i := .get no) ht (inodeGet_init m h1 hno)

private theorem step_write {m m' : Disk} {no offset r : ℕ} {e' : InodeEntry} {src : List UInt8}
    (hw : inodeWrite (bcacheAlloc sb) sb m no (sb.diskEntry m no) offset src = some (r, e', m')) :
    InodeTree.step (bcacheAlloc sb) sb ⟨m, [⟨0, no, 1, true, sb.diskEntry m no⟩], 1⟩
      (.write 0 offset src) = some ⟨m', [⟨0, no, 1, true, e'⟩], 1⟩ := by
  have hfind : InodeTree.find ⟨m, [⟨0, no, 1, true, sb.diskEntry m no⟩], 1⟩ 0 =
      some ⟨0, no, 1, true, sb.diskEntry m no⟩ := rfl
  rw [InodeTree.step, hfind, Option.bind_eq_bind, Option.bind_some]
  simp only [hw]
  rfl

theorem write_reaches_disk_small : ∃ s t t', main [smallFile] = some s ∧
    Reach (fun s => s.step (bcacheAlloc sb) sb) (InodeTree.Legal sb) (InodeTree.init s.img) t ∧
    t.step (bcacheAlloc sb) sb (.write 0 0 [7]) = some t' ∧
    ∃ ip, t'.find 0 = some ip ∧ sb.diskEntry t'.disk ip.inodeNo = ip.entry := by
  obtain ⟨s, hs⟩ := Option.isSome_iff_exists.mp
    (main_isSome fits_small.size fits_small.inodes.le fits_small.blocks)
  obtain ⟨s₀, -, hB, hs₀⟩ := built_of_main hs (by decide)
  have hget : (rootBytes [smallFile] :: [smallFile].map InputFile.bytes)[1]? =
    some smallFile.bytes := rfl
  have hmem : 2 ∈ sb.validInodes (finished s₀) := by
    rw [finished_valid]
    exact hB.mem_valid (List.getElem?_eq_some_iff.mp hget).1
  have hnum : (sb.diskEntry (finished s₀) 2).numBytes.toNat = 3 := by
    rw [finished_entry (by decide) (by decide)]
    exact hB.numBytes hget
  have hfree : s₀.freeblock = 94 := hB.free
  have hS := sound_of_main hs (by decide) (by decide)
  have hE := finished_exact hB
  rw [hfree] at hE
  rw [hs₀] at hs hS
  obtain ⟨hD, hA, -⟩ := hS.at hmem
  rw [blocksInUse_eq hmem] at hE
  have hw : (inodeWrite (bcacheAlloc sb) sb (finished s₀) 2 (sb.diskEntry (finished s₀) 2) 0
      [7]).isSome := by
    apply inodeWrite_isSome (cacheAlloc_lawful wellLaid.layout.reserved) hA hD (Nat.zero_le _)
      (by decide)
    rw [hnum]
    exact hE.mono (by decide)
  obtain ⟨⟨r, e', m'⟩, hw⟩ := Option.isSome_iff_exists.mp hw
  have hreach := reach_get (m := finished s₀) (by decide) (by decide) hmem.2.2
  obtain ⟨ip, hip, hsync, -⟩ := write_reaches_disk hs (by decide) (by decide) hreach 0 0 [7]
    (show [7].length < 2 ^ 64 by decide) (step_write hw)
  exact ⟨_, _, _, hs, hreach, step_write hw, ip, hip, hsync⟩

/-- **The block that is missing.**  Where the entries of the root directory fill whole blocks and
there is room on the disk, the first byte written after them goes to a block that only the entry in
memory knows. -/
theorem write_into_hole (h : main fs = some s) (hfew : fs.length + 1 ≤ nInodes)
    (hmod : (fs.length + 2) % 32 = 0) (hroom : s.freeblock + 2 ≤ fsSize) (x : UInt8) :
    ∃ t t' ip,
      Reach (fun s => s.step (bcacheAlloc sb) sb) (InodeTree.Legal sb) (InodeTree.init s.img) t ∧
      t.step (bcacheAlloc sb) sb (.write 0 (16 * (fs.length + 2)) [x]) = some t' ∧
      t'.find 0 = some ip ∧ sb.diskEntry t'.disk ip.inodeNo ≠ ip.entry := by
  obtain ⟨s₀, -, hB, rfl⟩ := built_of_main h hfew
  have hlaw := cacheAlloc_lawful wellLaid.layout.reserved
  have hmem : rootInodeNo ∈ sb.validInodes (finished s₀) := by
    rw [finished_valid]
    exact root_mem hB
  have hE := finished_exact hB
  rw [blocksInUse_eq hmem] at hE
  have hA := finished_inUse hB _ hmem
  have hsize := root_size hB
  have hlen : 16 * (fs.length + 2) ≤ 16 * 201 := by
    rw [nInodes_eq] at hfew
    omega
  have hM : Mapped (finished s₀) (sb.diskEntry (finished s₀) rootInodeNo)
      (blocksFor (16 * (fs.length + 2))) := by
    intro k hk
    rw [← slot_of_lt hk, finished_slot hB (root_mem hB), slot_of_lt hk, ← root_numBytes hB]
    exact (hB.dense _ (root_mem hB)).2 k hk
  obtain ⟨k, hk⟩ : ∃ k, 16 * (fs.length + 2) = k * 512 := ⟨(fs.length + 2) / 32, by omega⟩
  have hfor : blocksFor (16 * (fs.length + 2)) = k := by
    rw [hk]
    simp only [blocksFor, blockSize_eq]
    omega
  have hk' : k < inodeMaxBlocks := by
    rw [inodeMaxBlocks_eq]
    omega
  have hmax : k * 512 + [x].length ≤ inodeMaxBytes := by
    rw [inodeMaxBytes_eq, List.length_singleton]
    omega
  have hroom' : s₀.freeblock + 2 ≤ fsSize := hroom
  clear hroom
  rw [hfor] at hM
  rw [hk] at hsize hlen ⊢
  rw [blockSize_eq] at hsize
  -- block `k` is not mapped before the write and is after it
  have hdir := hM k hk'
  generalize hm : finished s₀ = m at *
  generalize he : sb.diskEntry m rootInodeNo = e at *
  have hk512 : k * 512 ≤ k * blockSize := by rw [blockSize_eq]
  have hl : (writeLoop (bcacheAlloc sb) [x].length m e (k * 512) [x]).isSome := by
    apply writeLoop_isSome hlaw _ _ _ _ _ k 2 hA hM (hE.mono (by omega)) hk512 (le_refl _) hmax
    rw [writeCost, List.length_singleton]
    simp only [blocksFor, blockSize_eq]
    split <;> omega
  obtain ⟨⟨e₁, m₁⟩, hl⟩ := Option.isSome_iff_exists.mp hl
  obtain ⟨hW, -⟩ := writeLoop_spec hlaw (k * 512) [x] m e k 2 hA hM (hE.mono (by omega)) hk512 hl
  have hnum : e₁.numBytes.toNat = (k + 1) * 512 := by
    rw [hW.same.2.2.2.2, hsize]
    omega
  have hw : inodeWrite (bcacheAlloc sb) sb m rootInodeNo e (k * 512) [x] = some (1, e₁, m₁) := by
    have hmodk : (k * 512 + 1) % 2 ^ 64 = k * 512 + 1 := by omega
    rw [inodeWrite, List.length_singleton, hmodk, if_pos, ← List.length_singleton (a := x), hl]
    · rw [Option.bind_eq_bind, Option.bind_some, List.length_singleton]
      simp only
      rw [if_neg]
      rw [hnum]
      omega
    · rw [hsize, inodeMaxBytes_eq]
      omega
  rw [← he] at hw
  have htype : (sb.diskEntry m rootInodeNo).type ≠ inodeInvalid := hmem.2.2
  refine ⟨_, _, _, reach_get (by decide) (by decide) htype, step_write hw, rfl, ?_⟩
  intro heq
  have hkeep : sb.diskEntry m₁ rootInodeNo = e := by
    rw [← he]
    apply SuperBlock.diskEntry_congr
    exact hW.others _ (Or.inl (toBlockNo_mem (by decide)))
  have hcontra : e₁ = e := heq.symm.trans hkeep
  have hdirect : k < inodeNumDirect := by
    rw [inodeNumDirect_eq]
    omega
  have hafter := (hW.mapped k hk').mpr (by
    rw [List.length_singleton]
    simp only [mappedAfter, blocksFor, blockSize_eq]
    omega)
  rw [blockAddr, if_pos hdirect, hcontra] at hafter
  rw [blockAddr, if_pos hdirect] at hdir
  exact absurd (hdir.mp hafter) (Nat.lt_irrefl k)

/-- The image of 30 empty files, with one data block for the root directory. -/
theorem main_thirty : ∃ s, main (List.replicate 30 emptyFile) = some s ∧
    (List.replicate 30 emptyFile).length + 1 ≤ nInodes ∧ s.freeblock = 93 := by
  have hfew : (List.replicate 30 emptyFile).length + 1 ≤ nInodes := by
    rw [List.length_replicate]
    decide
  have hbytes : ∀ f ∈ List.replicate 30 emptyFile, f.bytes.length ≤ inodeMaxBytes := by
    intro f hf
    rw [List.eq_of_mem_replicate hf]
    decide
  have hcost := cost_replicate_empty 30
  obtain ⟨s, hs⟩ := Option.isSome_iff_exists.mp
    (main_isSome hbytes hfew (by rw [hcost]; decide))
  refine ⟨s, hs, hfew, ?_⟩
  obtain ⟨s₀, -, hB, rfl⟩ := built_of_main hs hfew
  have hfree := hB.free
  rw [cost] at hcost
  rw [hcost] at hfree
  exact hfree

/-- With 30 empty files the root directory has 32 entries, and its second block is missing. -/
theorem hole_after_thirty_files : ∃ s t t' ip, main (List.replicate 30 emptyFile) = some s ∧
    Reach (fun s => s.step (bcacheAlloc sb) sb) (InodeTree.Legal sb) (InodeTree.init s.img) t ∧
    t.step (bcacheAlloc sb) sb (.write 0 512 [7]) = some t' ∧
    t'.find 0 = some ip ∧ sb.diskEntry t'.disk ip.inodeNo ≠ ip.entry := by
  obtain ⟨s, hs, hfew, hfree⟩ := main_thirty
  obtain ⟨t, t', ip, hr, hw, hf, hne⟩ := write_into_hole hs hfew
    (by rw [List.length_replicate]) (by rw [hfree]; decide) 7
  rw [List.length_replicate] at hw
  exact ⟨s, t, t', ip, hs, hr, hw, hf, hne⟩

end OsLab.Mkfs
