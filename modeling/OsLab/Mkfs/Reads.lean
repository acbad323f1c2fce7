import OsLab.Mkfs.Synced

/-!
# Reads on an image of mkfs

`inode_read` and `inode_lookup` find their blocks with the `inode_map` that
`inode_write` uses, which allocates a block that is missing.  On an image whose root
directory has all its blocks no block is ever missing below the size of a file; on the
others the first read behind the entries of the root directory allocates one.

## Main definitions

* `InodeTree.ReadsKeep` — reads change neither the disk nor an entry.
* `reads_keep` — they do not, except for the missing block of the root directory.
-/

namespace OsLab

/-- No `inode_read` and no `inode_lookup` on an inode in memory changes the disk or the entry. -/
structure InodeTree.ReadsKeep (sb : SuperBlock) (t : InodeTree) : Prop where
  read : ∀ id ip offset count r dest e m, t.find id = some ip → count < 2 ^ 64 →
    inodeRead (bcacheAlloc sb) t.disk ip.entry offset count = some (r, dest, e, m) →
    e = ip.entry ∧ m = t.disk
  lookup : ∀ id ip name inum index e m, t.find id = some ip →
    inodeLookup (bcacheAlloc sb) t.disk ip.entry name = some (inum, index, e, m) →
    e = ip.entry ∧ m = t.disk

theorem InodeTree.Inv.readsKeep {sb : SuperBlock} {K : Set ℕ} {t : InodeTree}
    (h : InodeTree.Inv sb K t) : t.ReadsKeep sb where
  read := fun _ _ _ _ _ _ _ _ hf hc hr => inodeRead_keeps (h.dense hf) hc hr
  lookup := fun _ _ _ _ _ _ _ hf hr => inodeLookup_keeps (h.dense hf) hr

/-- A read of one byte of a block that is missing takes a new block. -/
theorem inodeRead_missing {c : BlockAlloc} {m m' : Disk} {e : InodeEntry} {k b : ℕ}
    (hk : k < inodeNumDirect) (h0 : e.addr k = 0) (hsize : k * 512 < e.numBytes.toNat)
    (ha : c.alloc m = some (b, m')) : ∃ dest,
      inodeRead c m e (k * 512) 1 = some (0, dest, e.setAddr k b, m') := by
  have hlt := e.numBytes.toNat_lt
  have hsum : (1 + k * 512) % 2 ^ 64 = k * 512 + 1 := by omega
  have hstop : (k * 512 + 1) % 2 ^ 64 = k * 512 + 1 := by omega
  have hdiv : k * 512 / blockSize = k := by
    rw [blockSize_eq]
    omega
  have hmin : 1 - min 1 (blockSize - k * 512 % blockSize) = 0 := by
    rw [blockSize_eq]
    omega
  refine ⟨(m' b).slice (k * 512 % blockSize) (min 1 (blockSize - k * 512 % blockSize)), ?_⟩
  have hfit : ¬ k * 512 + 1 > e.numBytes.toNat := by omega
  simp only [inodeRead]
  rw [hsum, if_neg hfit, hstop, if_pos ⟨by omega, by omega, by omega⟩, readLoop,
    if_neg (by decide), hdiv, inodeMap, if_pos hk, if_pos h0, ha]
  simp only [Option.bind_eq_bind, Option.bind_some, hmin, readLoop, if_true, List.append_nil]

namespace Mkfs

variable {fs : List InputFile} {s : State}

/-- The root directory as it is on the image: its entries fill the blocks that are mapped, and
its size is rounded up by a block that is not. -/
theorem root_hole (hB : Built s (rootBytes fs :: fs.map InputFile.bytes))
    (hfew : fs.length + 1 ≤ nInodes) {k : ℕ} (hk : fs.length + 2 = 32 * k) :
    k < inodeNumDirect ∧ (sb.diskEntry (finished s) rootInodeNo).addr k = 0 ∧
      (sb.diskEntry (finished s) rootInodeNo).numBytes.toNat = (k + 1) * 512 := by
  have hk12 : k < inodeNumDirect := by
    rw [nInodes_eq] at hfew
    rw [inodeNumDirect_eq]
    omega
  have hkmax : k < inodeMaxBlocks := by
    rw [inodeNumDirect_eq] at hk12
    rw [inodeMaxBlocks_eq]
    omega
  refine ⟨hk12, ?_, ?_⟩
  · have hM := (hB.dense _ (root_mem hB)).2 k hkmax
    have hfor : blocksFor (16 * (fs.length + 2)) = k := by
      rw [hk]
      simp only [blocksFor, blockSize_eq]
      omega
    rw [root_numBytes hB, hfor] at hM
    have h0 : blockAddr (finished s) (sb.diskEntry (finished s) rootInodeNo) k = 0 := by
      rw [← slot_of_lt hkmax, finished_slot hB (root_mem hB), slot_of_lt hkmax]
      exact not_not.mp fun h => absurd (hM.mp h) (Nat.lt_irrefl k)
    rwa [blockAddr, if_pos hk12] at h0
  · rw [root_size hB, hk, blockSize_eq]
    omega

/-- A read behind the entries of such a root directory allocates a block. -/
theorem read_into_hole (h : main fs = some s) (hfew : fs.length + 1 ≤ nInodes)
    (hmod : (fs.length + 2) % 32 = 0) (hroom : s.freeblock < fsSize) : ∃ t,
      Reach (fun s => s.step (bcacheAlloc sb) sb) (InodeTree.Legal sb) (InodeTree.init s.img) t ∧
        ¬ t.ReadsKeep sb := by
  obtain ⟨s₀, -, hB, rfl⟩ := built_of_main h hfew
  obtain ⟨k, hk⟩ : ∃ k, fs.length + 2 = 32 * k := ⟨(fs.length + 2) / 32, by omega⟩
  obtain ⟨hdirect, h0, hsize⟩ := root_hole hB hfew hk
  have hmem : rootInodeNo ∈ sb.validInodes (finished s₀) := by
    rw [finished_valid]
    exact root_mem hB
  have hlaw := cacheAlloc_lawful wellLaid.layout.reserved
  have hE := finished_exact hB
  have hroom' : s₀.freeblock < fsSize := hroom
  obtain ⟨⟨b, m'⟩, ha⟩ := Option.isSome_iff_exists.mp (hlaw.returns (n := 0) (hE.mono (by omega)))
  obtain ⟨-, hb0, hb, -⟩ := hlaw.fresh hE ha
  obtain ⟨dest, hread⟩ := inodeRead_missing hdirect h0 (by omega) ha
  refine ⟨_, reach_get (by decide) (by decide) hmem.2.2, ?_⟩
  intro hkeep
  -- the entry has an address it did not have
  have he := (hkeep.read 0 _ _ _ _ _ _ _ rfl (by decide) hread).1
  have haddr := congrArg (fun e : InodeEntry => e.addr k) he
  simp only [addr_setAddr hdirect hb, if_true, h0] at haddr
  exact hb0 haddr

/-- **Reads change nothing**, in every state reachable from an image of mkfs whose inodes are not
too many and whose root directory does not end with a block.  On the other images, as long as a
block is free, some read changes the disk. -/
theorem reads_keep (h : main fs = some s) (hfew : fs.length + 1 ≤ nInodes) :
    ((fs.length + 2) % 32 ≠ 0 → ∀ t,
      Reach (fun s => s.step (bcacheAlloc sb) sb) (InodeTree.Legal sb) (InodeTree.init s.img) t →
        t.ReadsKeep sb) ∧
    ((fs.length + 2) % 32 = 0 → s.freeblock < fsSize → ∃ t,
      Reach (fun s => s.step (bcacheAlloc sb) sb) (InodeTree.Legal sb) (InodeTree.init s.img) t ∧
        ¬ t.ReadsKeep sb) := by
  refine ⟨?_, read_into_hole h hfew⟩
  intro hmod t hr
  exact (InodeTree.Inv.of_reach wellLaid.layout (sound_of_main h hfew hmod) hr).readsKeep

/-- On the image of one small file. -/
theorem reads_keep_small : ∃ s, main [smallFile] = some s ∧ ∀ t,
    Reach (fun s => s.step (bcacheAlloc sb) sb) (InodeTree.Legal sb) (InodeTree.init s.img) t →
      t.ReadsKeep sb := by
  obtain ⟨s, hs⟩ := Option.isSome_iff_exists.mp
    (main_isSome fits_small.size fits_small.inodes.le fits_small.blocks)
  exact ⟨s, hs, (reads_keep hs (by decide)).1 (by decide)⟩

/-- With 30 empty files the root directory has 32 entries, and a read finds its second block
missing. -/
theorem read_writes_after_thirty_files : ∃ s t, main (List.replicate 30 emptyFile) = some s ∧
    Reach (fun s => s.step (bcacheAlloc sb) sb) (InodeTree.Legal sb) (InodeTree.init s.img) t ∧
    ¬ t.ReadsKeep sb := by
  obtain ⟨s, hs, hfew, hfree⟩ := main_thirty
  obtain ⟨t, hr, hne⟩ := read_into_hole hs hfew (by rw [List.length_replicate])
    (by rw [hfree]; decide)
  exact ⟨s, t, hs, hr, hne⟩

end Mkfs

end OsLab
