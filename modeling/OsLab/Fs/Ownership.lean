import OsLab.Fs.InodeTree

/-!
# Block ownership over runs

Every serialised run of the inode operations keeps the image sound: no block is leaked
and none is shared.  The invariant that carries this adds what the memory holds: the
entry of an inode that somebody has a reference to is the one on the disk, and there
is one such inode for each number.

An operation on the entry of an inode stores the entry on the disk whenever it changes
it, which for `inode_write` rests on density: a write that does not make the file grow
finds its blocks mapped.

## Main definitions

* `InodeTree.Inv` — the invariant.
* `no_leak_no_share` — it holds in every reachable state.
-/

namespace OsLab

/-! ## Reading changes nothing -/

section Keeps

variable {c : BlockAlloc} {sb : SuperBlock} {m m' : Disk} {e e' : InodeEntry}

theorem inodeRead_keeps {offset count r : ℕ} {dest : List UInt8} (hD : Dense m e)
    (hc : count < 2 ^ 64) (hr : inodeRead c m e offset count = some (r, dest, e', m')) :
    e' = e ∧ m' = m := by
  have hlt := e.numBytes.toNat_lt
  rw [inodeRead] at hr
  simp only at hr
  generalize hn : (if (count + offset) % 2 ^ 64 > e.numBytes.toNat then
    (e.numBytes.toNat + 2 ^ 64 - offset) % 2 ^ 64 else count) = n at hr
  split at hr
  case isFalse => cases hr
  rename_i hcond
  obtain ⟨hoff, hstop, hle⟩ := hcond
  have hin : offset + n ≤ e.numBytes.toNat := by
    split at hn <;> omega
  rw [readLoop_spec offset n (le_refl _) fun i _ hi => hD.blockAddr_ne_zero (by omega)] at hr
  cases hr
  exact ⟨rfl, rfl⟩

private theorem readEntry_keeps {off : ℕ} {de : DirEntry} (hD : Dense m e)
    (hr : readEntry c m e off = some (de, e', m')) : e' = e ∧ m' = m := by
  rw [readEntry] at hr
  rcases hread : inodeRead c m e off 16 with - | ⟨r, dest, e₁, m₁⟩
  · rw [hread] at hr
    cases hr
  · rw [hread] at hr
    simp only [Option.bind_eq_bind, Option.bind_some] at hr
    split at hr
    · cases hr
    · cases hr
      exact inodeRead_keeps hD (by decide) hread

private theorem lookupLoop_keeps {name : List UInt8} {fuel : ℕ} (off : ℕ) {r : Option (ℕ × ℕ)}
    (hD : Dense m e) (hr : lookupLoop c name fuel m e off = some (r, e', m')) :
    e' = e ∧ m' = m := by
  induction fuel generalizing off with
  | zero => cases hr
  | succ fuel ih =>
      rw [lookupLoop] at hr
      split at hr
      · rcases hread : readEntry c m e off with - | ⟨de, e₁, m₁⟩
        · rw [hread] at hr
          cases hr
        · obtain ⟨rfl, rfl⟩ := readEntry_keeps hD hread
          rw [hread] at hr
          simp only [Option.bind_eq_bind, Option.bind_some] at hr
          split at hr
          · exact ih _ hr
          · split at hr
            · cases hr
              exact ⟨rfl, rfl⟩
            · exact ih _ hr
      · cases hr
        exact ⟨rfl, rfl⟩

private theorem freeLoop_keeps {fuel : ℕ} (off : ℕ) {r : ℕ} (hD : Dense m e)
    (hr : freeLoop c fuel m e off = some (r, e', m')) : e' = e ∧ m' = m := by
  induction fuel generalizing off with
  | zero => cases hr
  | succ fuel ih =>
      rw [freeLoop] at hr
      split at hr
      · rcases hread : readEntry c m e off with - | ⟨de, e₁, m₁⟩
        · rw [hread] at hr
          cases hr
        · obtain ⟨rfl, rfl⟩ := readEntry_keeps hD hread
          rw [hread] at hr
          simp only [Option.bind_eq_bind, Option.bind_some] at hr
          split at hr
          · cases hr
            exact ⟨rfl, rfl⟩
          · exact ih _ hr
      · cases hr
        exact ⟨rfl, rfl⟩

theorem inodeLookup_keeps {name : List UInt8} {inum : ℕ} {index : Option ℕ} (hD : Dense m e)
    (hr : inodeLookup c m e name = some (inum, index, e', m')) : e' = e ∧ m' = m := by
  rw [inodeLookup] at hr
  split at hr
  case isFalse => cases hr
  rcases hl : lookupLoop c name (e.numBytes.toNat + 1) m e 0 with - | ⟨r, e₁, m₁⟩
  · rw [hl] at hr
    cases hr
  · obtain ⟨rfl, rfl⟩ := lookupLoop_keeps 0 hD hl
    rw [hl] at hr
    simp only [Option.bind_eq_bind, Option.bind_some] at hr
    split at hr
    · cases hr
      exact ⟨rfl, rfl⟩
    · cases hr
      exact ⟨rfl, rfl⟩

/-- `inode_insert` changes nothing, or writes one entry. -/
theorem inodeInsert_cases {name : List UInt8} {no inodeNo r : ℕ} (hD : Dense m e)
    (hr : inodeInsert c sb m no e name inodeNo = some (r, e', m')) :
    e' = e ∧ m' = m ∨ ∃ n, inodeWrite c sb m no e r (DirEntry.make name inodeNo).bytes =
      some (n, e', m') := by
  rw [inodeInsert] at hr
  split at hr
  case isFalse => cases hr
  rcases hl : inodeLookup c m e name with - | ⟨inum, index, e₁, m₁⟩
  · rw [hl] at hr
    cases hr
  · obtain ⟨rfl, rfl⟩ := inodeLookup_keeps hD hl
    rw [hl] at hr
    simp only [Option.bind_eq_bind, Option.bind_some] at hr
    split at hr
    · cases hr
      exact Or.inl ⟨rfl, rfl⟩
    · rcases hf : freeLoop c (e₁.numBytes.toNat + 1) m₁ e₁ 0 with - | ⟨off, e₂, m₂⟩
      · rw [hf] at hr
        cases hr
      · obtain ⟨rfl, rfl⟩ := freeLoop_keeps 0 hD hf
        rw [hf, Option.bind_some] at hr
        rcases hw : inodeWrite c sb m₂ no e₂ off (DirEntry.make name inodeNo).bytes with
          - | ⟨n, e₃, m₃⟩
        · rw [hw] at hr
          cases hr
        · rw [hw] at hr
          cases hr
          exact Or.inr ⟨n, hw⟩

theorem inodeRemove_cases {no index : ℕ}
    (hr : inodeRemove c sb m no e index = some (e', m')) :
    ∃ n, inodeWrite c sb m no e index DirEntry.zero.bytes = some (n, e', m') := by
  rw [inodeRemove] at hr
  split at hr
  case isFalse => cases hr
  rcases hw : inodeWrite c sb m no e index DirEntry.zero.bytes with - | ⟨n, e₁, m₁⟩
  · rw [hw] at hr
    cases hr
  · rw [hw] at hr
    cases hr
    exact ⟨n, rfl⟩

end Keeps

/-! ## The invariant -/

namespace InodeTree

/-- The image is sound, and what is in memory agrees with it. -/
structure Inv (sb : SuperBlock) (K : Set ℕ) (s : InodeTree) : Prop where
  image : SoundImage sb K s.disk
  live : ∀ ip ∈ s.head, 0 < ip.rc → ip.valid = true ∧ ip.inodeNo ∈ sb.validInodes s.disk ∧
    ip.entry = sb.diskEntry s.disk ip.inodeNo
  single : ∀ ip ∈ s.head, ∀ jp ∈ s.head, 0 < ip.rc → 0 < jp.rc → ip.inodeNo = jp.inodeNo → ip = jp
  ids : ∀ ip ∈ s.head, ∀ jp ∈ s.head, ip.id = jp.id → ip = jp
  next : ∀ ip ∈ s.head, ip.id < s.next

variable {sb : SuperBlock} {K : Set ℕ} {s s' : InodeTree} {ip jp : Inode} {id no : ℕ}
  {f : Inode → Inode} {e : InodeEntry} {m : Disk}

theorem find_eq_some (h : s.find id = some ip) : ip ∈ s.head ∧ ip.id = id ∧ 0 < ip.rc := by
  have hmem := List.mem_of_find?_eq_some h
  have hp := List.find?_some h
  rw [decide_eq_true_eq] at hp
  exact ⟨hmem, hp.1, hp.2⟩

theorem mem_modify (h : jp ∈ (s.modify id f).head) :
    ∃ ip ∈ s.head, jp = if ip.id = id then f ip else ip := by
  obtain ⟨ip, hip, hjp⟩ := List.mem_map.mp h
  exact ⟨ip, hip, hjp.symm⟩

/-- A change of one inode in memory that keeps its address. -/
private theorem modify_ids (id : ℕ) (f : Inode → Inode) (h : Inv sb K s) (hf : ∀ ip, (f ip).id = ip.id) :
    (∀ ip ∈ (s.modify id f).head, ∀ jp ∈ (s.modify id f).head, ip.id = jp.id → ip = jp) ∧
      ∀ ip ∈ (s.modify id f).head, ip.id < s.next := by
  have hid : ∀ ip : Inode, (if ip.id = id then f ip else ip).id = ip.id := by
    intro ip
    split
    · exact hf ip
    · rfl
  constructor
  · intro ip' hip' jp' hjp' hij
    obtain ⟨ip, hip, rfl⟩ := mem_modify hip'
    obtain ⟨jp, hjp, rfl⟩ := mem_modify hjp'
    rw [hid, hid] at hij
    rw [h.ids ip hip jp hjp hij]
  · intro ip' hip'
    obtain ⟨ip, hip, rfl⟩ := mem_modify hip'
    rw [hid]
    exact h.next ip hip

/-- Counting references up or down. -/
theorem Inv.count (h : Inv sb K s) (n : ℕ → ℕ) (hn : ∀ ip ∈ s.head, ip.id = id →
    0 < n ip.rc → 0 < ip.rc) : Inv sb K (s.modify id fun ip => { ip with rc := n ip.rc }) := by
  obtain ⟨hids, hnext⟩ := modify_ids id (fun ip => { ip with rc := n ip.rc }) h fun _ => rfl
  have hsame : ∀ ip ∈ s.head, ∀ jp, (jp = if ip.id = id then { ip with rc := n ip.rc } else ip) →
      0 < jp.rc → 0 < ip.rc ∧ jp.valid = ip.valid ∧ jp.inodeNo = ip.inodeNo ∧
        jp.entry = ip.entry := by
    rintro ip hip jp rfl hrc
    split at hrc
    · rename_i hid
      rw [if_pos hid]
      exact ⟨hn ip hip hid hrc, rfl, rfl, rfl⟩
    · rename_i hid
      rw [if_neg hid]
      exact ⟨hrc, rfl, rfl, rfl⟩
  refine ⟨h.image, ?_, ?_, hids, hnext⟩
  · intro jp hjp hrc
    obtain ⟨ip, hip, hjp⟩ := mem_modify hjp
    obtain ⟨hpos, hv, hno, he⟩ := hsame ip hip jp hjp hrc
    rw [hv, hno, he]
    exact h.live ip hip hpos
  · intro jp hjp jp' hjp' hrc hrc' heq
    obtain ⟨ip, hip, hjp⟩ := mem_modify hjp
    obtain ⟨ip', hip', hjp'⟩ := mem_modify hjp'
    obtain ⟨hpos, -, hno, -⟩ := hsame ip hip jp hjp hrc
    obtain ⟨hpos', -, hno', -⟩ := hsame ip' hip' jp' hjp' hrc'
    rw [hno, hno'] at heq
    rw [hjp, hjp', h.single ip hip ip' hip' hpos hpos' heq]

/-- **An operation on the entry of one inode**, which ends with the entry on the disk. -/
theorem Inv.store (h : Inv sb K s) (hf : s.find id = some ip) (hS : SoundImage sb K m)
    (he : sb.diskEntry m ip.inodeNo = e) (ht : e.type ≠ inodeInvalid)
    (hents : ∀ no', no' ≠ ip.inodeNo → no' ≤ sb.numInodes →
      sb.diskEntry m no' = sb.diskEntry s.disk no') : Inv sb K (s.store id e m) := by
  obtain ⟨hip, hid, hpos⟩ := find_eq_some hf
  obtain ⟨hv, hno, -⟩ := h.live ip hip hpos
  obtain ⟨hids, hnext⟩ := modify_ids id (fun ip => { ip with entry := e }) h fun _ => rfl
  have hsame : ∀ kp ∈ s.head, ∀ jp, (jp = if kp.id = id then { kp with entry := e } else kp) →
      jp.rc = kp.rc ∧ jp.inodeNo = kp.inodeNo := by
    rintro kp - jp rfl
    split
    · exact ⟨rfl, rfl⟩
    · exact ⟨rfl, rfl⟩
  refine ⟨hS, ?_, ?_, hids, hnext⟩
  · intro jp hjp hrc
    obtain ⟨kp, hkp, hjp⟩ := mem_modify hjp
    by_cases hk : kp.id = id
    · -- the inode itself
      obtain rfl : kp = ip := h.ids kp hkp ip hip (hk.trans hid.symm)
      rw [if_pos hk] at hjp
      rw [hjp]
      refine ⟨hv, ⟨hno.1, hno.2.1, ?_⟩, he.symm⟩
      show (sb.diskEntry m kp.inodeNo).type ≠ inodeInvalid
      rw [he]
      exact ht
    · -- another one, for another number
      rw [if_neg hk] at hjp
      rw [hjp] at hrc ⊢
      obtain ⟨hv', hno', he'⟩ := h.live kp hkp hrc
      have hne : kp.inodeNo ≠ ip.inodeNo := by
        intro heq
        have := h.single kp hkp ip hip hrc hpos heq
        rw [this] at hk
        exact hk hid
      have hent : sb.diskEntry m kp.inodeNo = sb.diskEntry s.disk kp.inodeNo :=
        hents kp.inodeNo hne hno'.2.1
      refine ⟨hv', ⟨hno'.1, hno'.2.1, ?_⟩, ?_⟩
      · show (sb.diskEntry m kp.inodeNo).type ≠ inodeInvalid
        rw [hent]
        exact hno'.2.2
      · show kp.entry = sb.diskEntry m kp.inodeNo
        rw [hent]
        exact he'
  · intro jp hjp jp' hjp' hrc hrc' heq
    obtain ⟨kp, hkp, hjp⟩ := mem_modify hjp
    obtain ⟨kp', hkp', hjp'⟩ := mem_modify hjp'
    obtain ⟨hr, hn⟩ := hsame kp hkp jp hjp
    obtain ⟨hr', hn'⟩ := hsame kp' hkp' jp' hjp'
    rw [hr] at hrc
    rw [hr'] at hrc'
    rw [hn, hn'] at heq
    rw [hjp, hjp', h.single kp hkp kp' hkp' hrc hrc' heq]

/-- The disk changes at a number nobody has in memory. -/
theorem Inv.disk (no : ℕ) (h : Inv sb K s) (hS : SoundImage sb K m)
    (hfree : ∀ ip ∈ s.head, 0 < ip.rc → ip.inodeNo ≠ no)
    (hents : ∀ no', no' ≠ no → no' ≤ sb.numInodes → sb.diskEntry m no' = sb.diskEntry s.disk no') :
    Inv sb K { s with disk := m } := by
  refine ⟨hS, ?_, h.single, h.ids, h.next⟩
  intro ip hip hpos
  obtain ⟨hv, hno, he⟩ := h.live ip hip hpos
  have hent : sb.diskEntry m ip.inodeNo = sb.diskEntry s.disk ip.inodeNo :=
    hents ip.inodeNo (hfree ip hip hpos) hno.2.1
  refine ⟨hv, ⟨hno.1, hno.2.1, ?_⟩, ?_⟩
  · show (sb.diskEntry m ip.inodeNo).type ≠ inodeInvalid
    rw [hent]
    exact hno.2.2
  · show ip.entry = sb.diskEntry m ip.inodeNo
    rw [hent]
    exact he

/-- Unlinking inodes. -/
theorem Inv.filter (h : Inv sb K s) (p : Inode → Bool) :
    Inv sb K { s with head := s.head.filter p } := by
  have hsub : ∀ ip ∈ s.head.filter p, ip ∈ s.head := fun ip hip => (List.mem_filter.mp hip).1
  exact ⟨h.image, fun ip hip => h.live ip (hsub ip hip),
    fun ip hip jp hjp => h.single ip (hsub ip hip) jp (hsub jp hjp),
    fun ip hip jp hjp => h.ids ip (hsub ip hip) jp (hsub jp hjp),
    fun ip hip => h.next ip (hsub ip hip)⟩

/-! ## The operations -/

/-- `inode_get` -/
theorem Inv.get (h : Inv sb K s) (ht : (sb.diskEntry s.disk no).type ≠ inodeInvalid)
    (hr : inodeGet sb s no = some s') : Inv sb K s' := by
  rw [inodeGet] at hr
  split at hr
  case isFalse => cases hr
  rename_i hrange
  have hno : no ∈ sb.validInodes s.disk := ⟨hrange.1, hrange.2.le, ht⟩
  rcases hfind : s.head.find? fun ip => ip.inodeNo = no ∧ 0 < ip.rc with - | ip
  · -- nobody has it
    have hnone : ∀ ip ∈ s.head, 0 < ip.rc → ip.inodeNo ≠ no := by
      intro ip hip hpos heq
      rw [List.find?_eq_none] at hfind
      exact hfind ip hip (decide_eq_true ⟨heq, hpos⟩)
    rw [hfind] at hr
    rcases hempty : s.head.find? fun ip => ip.rc = 0 with - | ip
    · -- a new in-memory inode
      rw [hempty] at hr
      cases hr
      have hcases : ∀ jp ∈ load sb s.disk no ⟨s.next, 0, 0, false, InodeEntry.zero⟩ :: s.head,
          jp = load sb s.disk no ⟨s.next, 0, 0, false, InodeEntry.zero⟩ ∨ jp ∈ s.head :=
        fun jp hjp => List.mem_cons.mp hjp
      refine ⟨h.image, ?_, ?_, ?_, ?_⟩
      · intro jp hjp hpos
        rcases hcases jp hjp with rfl | hjp
        · exact ⟨rfl, hno, rfl⟩
        · exact h.live jp hjp hpos
      · intro jp hjp kp hkp hpos hpos' heq
        rcases hcases jp hjp with rfl | hjp
        · rcases hcases kp hkp with rfl | hkp
          · rfl
          · exact absurd heq.symm (hnone kp hkp hpos')
        · rcases hcases kp hkp with rfl | hkp
          · exact absurd heq (hnone jp hjp hpos)
          · exact h.single jp hjp kp hkp hpos hpos' heq
      · intro jp hjp kp hkp heq
        rcases hcases jp hjp with rfl | hjp
        · rcases hcases kp hkp with rfl | hkp
          · rfl
          · exact absurd heq.symm (Nat.ne_of_lt (h.next kp hkp))
        · rcases hcases kp hkp with rfl | hkp
          · exact absurd heq (Nat.ne_of_lt (h.next jp hjp))
          · exact h.ids jp hjp kp hkp heq
      · intro jp hjp
        rcases hcases jp hjp with rfl | hjp
        · exact Nat.lt_succ_self _
        · exact Nat.lt_succ_of_lt (h.next jp hjp)
    · -- an unused one is taken over
      have hip := List.mem_of_find?_eq_some hempty
      have hrc := List.find?_some hempty
      rw [decide_eq_true_eq] at hrc
      rw [hempty] at hr
      cases hr
      obtain ⟨hids, hnext⟩ := modify_ids ip.id (load sb s.disk no) h fun _ => rfl
      have hcases : ∀ jp ∈ (s.modify ip.id (load sb s.disk no)).head,
          jp = load sb s.disk no ip ∨ jp ∈ s.head ∧ jp.id ≠ ip.id := by
        intro jp hjp
        obtain ⟨kp, hkp, rfl⟩ := mem_modify hjp
        by_cases hk : kp.id = ip.id
        · rw [if_pos hk, h.ids kp hkp ip hip hk]
          exact Or.inl rfl
        · rw [if_neg hk]
          exact Or.inr ⟨hkp, hk⟩
      refine ⟨h.image, ?_, ?_, hids, hnext⟩
      · intro jp hjp hpos
        rcases hcases jp hjp with rfl | ⟨hjp, -⟩
        · exact ⟨rfl, hno, rfl⟩
        · exact h.live jp hjp hpos
      · intro jp hjp kp hkp hpos hpos' heq
        rcases hcases jp hjp with rfl | ⟨hjp, -⟩
        · rcases hcases kp hkp with rfl | ⟨hkp, -⟩
          · rfl
          · exact absurd heq.symm (hnone kp hkp hpos')
        · rcases hcases kp hkp with rfl | ⟨hkp, -⟩
          · exact absurd heq (hnone jp hjp hpos)
          · exact h.single jp hjp kp hkp hpos hpos' heq
  · -- one more reference
    rw [hfind] at hr
    cases hr
    have hip := List.mem_of_find?_eq_some hfind
    have hp := List.find?_some hfind
    rw [decide_eq_true_eq] at hp
    apply h.count (· + 1)
    intro jp hjp hid _
    rw [h.ids jp hjp ip hip hid]
    exact hp.2

/-- `inode_write` -/
theorem Inv.write (hlay : sb.Layout K) (h : Inv sb K s) (hf : s.find id = some ip) {offset r : ℕ}
    {src : List UInt8} (hlen : src.length < 2 ^ 64)
    (hr : inodeWrite (bcacheAlloc sb) sb s.disk ip.inodeNo ip.entry offset src = some (r, e, m)) :
    Inv sb K (s.store id e m) := by
  obtain ⟨hip, -, hpos⟩ := find_eq_some hf
  obtain ⟨-, hno, he⟩ := h.live ip hip hpos
  rw [he] at hr
  obtain ⟨hS, hent, htype, hents⟩ := h.image.write hlay hno hlen hr
  refine h.store hf hS hent ?_ hents
  rw [htype]
  exact hno.2.2

theorem Inv.dense (h : Inv sb K s) (hf : s.find id = some ip) : Dense s.disk ip.entry := by
  obtain ⟨hip, -, hpos⟩ := find_eq_some hf
  obtain ⟨-, hno, he⟩ := h.live ip hip hpos
  rw [he]
  exact h.image.dense _ hno

/-- An operation that only reads. -/
theorem Inv.keep (h : Inv sb K s) (hf : s.find id = some ip) :
    Inv sb K (s.store id ip.entry s.disk) := by
  obtain ⟨hip, -, hpos⟩ := find_eq_some hf
  obtain ⟨-, hno, he⟩ := h.live ip hip hpos
  refine h.store hf h.image he.symm ?_ fun _ _ _ => rfl
  rw [he]
  exact hno.2.2

theorem cleared_blocks (e : InodeEntry) (type : UInt16) (m : Disk) :
    blocks m { e.cleared with type := type } = ∅ := by
  apply blocks_eq_empty
  · intro k
    rw [InodeEntry.addr]
    split <;> rfl
  · rfl

/-- `inode_clear`: exactly the bits of the blocks of the inode are cleared. -/
theorem Inv.clear (hlay : sb.Layout K) (h : Inv sb K s) (hf : s.find id = some ip)
    (hr : inodeClear (bcacheAlloc sb) sb s.disk ip.inodeNo ip.entry = some (e, m)) :
    Inv sb K (s.store id e m) ∧ ∀ b, b < sb.numBlocks →
      (sb.used m b = true ↔ sb.used s.disk b = true ∧ b ∉ blocks s.disk ip.entry) := by
  obtain ⟨hip, -, hpos⟩ := find_eq_some hf
  obtain ⟨-, hno, he⟩ := h.live ip hip hpos
  rw [he] at hr ⊢
  obtain ⟨m₁, hr₁, hall⟩ := h.image.clear hlay hno
  rw [hr] at hr₁
  cases hr₁
  obtain ⟨hS, hents, hused⟩ := hall _ (cleared_blocks (sb.diskEntry s.disk ip.inodeNo) _) rfl
  exact ⟨h.store hf hS (SuperBlock.diskEntry_putDiskEntry_self ..) hno.2.2 hents, hused⟩

/-- The `inode_put` that frees the inode. -/
theorem Inv.put_last (hlay : sb.Layout K) (h : Inv sb K s) (hf : s.find id = some ip)
    (hlast : ip.rc = 1 ∧ ip.entry.numLinks = 0) (hr : inodePut (bcacheAlloc sb) sb s ip = some s') :
    Inv sb K s' ∧ (sb.diskEntry s'.disk ip.inodeNo).type = inodeInvalid ∧
      ∀ b, b < sb.numBlocks →
        (sb.used s'.disk b = true ↔ sb.used s.disk b = true ∧ b ∉ blocks s.disk ip.entry) := by
  obtain ⟨hip, -, hpos⟩ := find_eq_some hf
  obtain ⟨hv, hno, he⟩ := h.live ip hip hpos
  obtain ⟨m₁, hr₁, hall⟩ := h.image.clear hlay hno
  rw [← he] at hr₁ hall
  rw [inodePut, hv, if_neg (by decide), if_pos hlast, hr₁] at hr
  cases hr
  -- the entry is stored twice in the same place
  have htwice : ∀ e₁ e₂ : InodeEntry, sb.putDiskEntry (sb.putDiskEntry m₁ ip.inodeNo e₁) ip.inodeNo
      e₂ = sb.putDiskEntry m₁ ip.inodeNo e₂ := sb.putDiskEntry_putDiskEntry m₁ ip.inodeNo
  obtain ⟨hS, hents, hused⟩ := hall _ (cleared_blocks ip.entry inodeInvalid) rfl
  have hS' : SoundImage sb K (sb.putDiskEntry (sb.putDiskEntry m₁ ip.inodeNo ip.entry.cleared)
      ip.inodeNo { ip.entry.cleared with type := inodeInvalid }) := by
    rw [htwice]
    exact hS
  refine ⟨?_, ?_, ?_⟩
  · have hrest := h.filter fun jp => jp.id ≠ ip.id
    refine hrest.disk ip.inodeNo hS' ?_ ?_
    · intro jp hjp hpos' heq
      rw [List.mem_filter, decide_eq_true_eq] at hjp
      exact hjp.2 (by rw [h.single jp hjp.1 ip hip hpos' hpos heq])
    · intro no' hne hle
      rw [htwice]
      exact hents no' hne hle
  · show (sb.diskEntry (sb.putDiskEntry _ ip.inodeNo _) ip.inodeNo).type = inodeInvalid
    rw [SuperBlock.diskEntry_putDiskEntry_self]
  · intro b hb
    show sb.used (sb.putDiskEntry (sb.putDiskEntry m₁ ip.inodeNo ip.entry.cleared) ip.inodeNo
      { ip.entry.cleared with type := inodeInvalid }) b = true ↔ _
    rw [htwice]
    exact hused b hb

theorem Inv.put (hlay : sb.Layout K) (h : Inv sb K s) (hf : s.find id = some ip)
    (hr : inodePut (bcacheAlloc sb) sb s ip = some s') : Inv sb K s' := by
  obtain ⟨hip, -, hpos⟩ := find_eq_some hf
  obtain ⟨hv, -, -⟩ := h.live ip hip hpos
  by_cases hlast : ip.rc = 1 ∧ ip.entry.numLinks = 0
  · exact (h.put_last hlay hf hlast hr).1
  · rw [inodePut, hv, if_neg (by decide), if_neg hlast] at hr
    cases hr
    apply h.count (· - 1)
    intro jp _ _ hrc
    omega

/-- Take the inode a call is made on out of its `do` block. -/
private theorem bind_find {g : Inode → Option InodeTree} (h : (s.find id >>= g) = some s') :
    ∃ ip, s.find id = some ip ∧ g ip = some s' := by
  rw [Option.bind_eq_bind, Option.bind_eq_some_iff] at h
  exact h

/-- **One call.** -/
theorem Inv.step (hlay : sb.Layout K) (h : Inv sb K s) {call : InodeCall}
    (hleg : Legal sb s call) (hr : s.step (bcacheAlloc sb) sb call = some s') : Inv sb K s' := by
  cases call with
  | alloc type =>
      rw [InodeTree.step] at hr
      rcases ha : inodeAlloc sb s.disk type with - | ⟨no, m⟩
      · rw [ha] at hr
        cases hr
      · rw [ha] at hr
        cases hr
        obtain ⟨hS, hfree, -, -, -, hents⟩ := h.image.alloc hlay ha
        refine h.disk no hS ?_ hents
        intro ip hip hpos heq
        exact hfree (heq ▸ (h.live ip hip hpos).2.1)
  | get no => exact h.get hleg hr
  | share id =>
      obtain ⟨ip, hf, hr⟩ := bind_find hr
      cases hr
      obtain ⟨hip, hid, hpos⟩ := find_eq_some hf
      apply h.count (· + 1)
      intro jp hjp hjd _
      rw [h.ids jp hjp ip hip hjd]
      exact hpos
  | put id =>
      obtain ⟨ip, hf, hr⟩ := bind_find hr
      exact h.put hlay hf hr
  | clear id =>
      obtain ⟨ip, hf, hr⟩ := bind_find hr
      rcases hc : inodeClear (bcacheAlloc sb) sb s.disk ip.inodeNo ip.entry with - | ⟨e, m⟩
      · rw [hc] at hr
        cases hr
      · rw [hc] at hr
        cases hr
        exact (h.clear hlay hf hc).1
  | read id offset count =>
      obtain ⟨ip, hf, hr⟩ := bind_find hr
      rcases hc : inodeRead (bcacheAlloc sb) s.disk ip.entry offset count with
        - | ⟨r, dest, e, m⟩
      · rw [hc] at hr
        cases hr
      · rw [hc] at hr
        cases hr
        obtain ⟨rfl, rfl⟩ := inodeRead_keeps (h.dense hf) hleg hc
        exact h.keep hf
  | write id offset src =>
      obtain ⟨ip, hf, hr⟩ := bind_find hr
      rcases hc : inodeWrite (bcacheAlloc sb) sb s.disk ip.inodeNo ip.entry offset src with
        - | ⟨r, e, m⟩
      · rw [hc] at hr
        cases hr
      · rw [hc] at hr
        cases hr
        exact h.write hlay hf hleg hc
  | lookup id name =>
      obtain ⟨ip, hf, hr⟩ := bind_find hr
      rcases hc : inodeLookup (bcacheAlloc sb) s.disk ip.entry name with - | ⟨r, index, e, m⟩
      · rw [hc] at hr
        cases hr
      · rw [hc] at hr
        cases hr
        obtain ⟨rfl, rfl⟩ := inodeLookup_keeps (h.dense hf) hc
        exact h.keep hf
  | insert id name inodeNo =>
      obtain ⟨ip, hf, hr⟩ := bind_find hr
      rcases hc : inodeInsert (bcacheAlloc sb) sb s.disk ip.inodeNo ip.entry name inodeNo with
        - | ⟨r, e, m⟩
      · rw [hc] at hr
        cases hr
      · rw [hc] at hr
        cases hr
        rcases inodeInsert_cases (h.dense hf) hc with ⟨rfl, rfl⟩ | ⟨n, hw⟩
        · exact h.keep hf
        · exact h.write hlay hf (by rw [DirEntry.length_bytes]; decide) hw
  | remove id index =>
      obtain ⟨ip, hf, hr⟩ := bind_find hr
      rcases hc : inodeRemove (bcacheAlloc sb) sb s.disk ip.inodeNo ip.entry index with
        - | ⟨e, m⟩
      · rw [hc] at hr
        cases hr
      · rw [hc] at hr
        cases hr
        obtain ⟨n, hw⟩ := inodeRemove_cases hc
        exact h.write hlay hf (by rw [DirEntry.length_bytes]; decide) hw
  | setLinks id n =>
      obtain ⟨ip, hf, hr⟩ := bind_find hr
      obtain ⟨hip, -, hpos⟩ := find_eq_some hf
      obtain ⟨hv, hno, he⟩ := h.live ip hip hpos
      simp only [inodeSync, hv, Bool.and_self, if_true] at hr
      cases hr
      rw [he]
      refine h.store hf (h.image.links hlay hno n) (SuperBlock.diskEntry_putDiskEntry_self ..)
        hno.2.2 ?_
      intro no' hne _
      exact SuperBlock.diskEntry_putDiskEntry_of_ne hne

theorem Inv.init {m : Disk} (hS : SoundImage sb K m) : Inv sb K (init m) where
  image := hS
  live := fun _ h => absurd h List.not_mem_nil
  single := fun _ h => absurd h List.not_mem_nil
  ids := fun _ h => absurd h List.not_mem_nil
  next := fun _ h => absurd h List.not_mem_nil

/-- The invariant holds in every reachable state. -/
theorem Inv.of_reach {m : Disk} (hlay : sb.Layout K) (hS : SoundImage sb K m)
    (hr : Reach (fun s => s.step (bcacheAlloc sb) sb) (Legal sb) (InodeTree.init m) s) :
    Inv sb K s :=
  hr.invariant (Inv.init hS) fun _ _ _ h hleg hs => h.step hlay hleg hs

end InodeTree

/-! ## Owned blocks -/

namespace SuperBlock

/-- The first data block. -/
def dataStart (sb : SuperBlock) : ℕ := sb.numBlocks - sb.numDataBlocks

/-- The inode blocks, the bitmap and the data blocks follow each other, after the boot block. -/
structure WellLaid (sb : SuperBlock) : Prop where
  pos : 0 < sb.numBlocks
  boot : 0 < sb.inodeStart
  inodes : sb.toBlockNo sb.numInodes < sb.bitmapStart
  bitmap : ∀ b, b < sb.numBlocks → sb.bblock b < sb.dataStart

/-- The blocks before the data blocks, without the inode blocks. -/
def metaBlocks (sb : SuperBlock) : Set ℕ := { b | b < sb.dataStart ∧ b ∉ sb.inodeBlocks }

end SuperBlock

/-- The image: every allocated inode is dense, the bits of the blocks before the data blocks are
set, and the bit of a data block is set exactly where the block is referenced, once. -/
structure Owned (sb : SuperBlock) (m : Disk) : Prop where
  dense : ∀ no ∈ sb.validInodes m, Dense m (sb.diskEntry m no)
  metadata : ∀ b, b < sb.dataStart → sb.used m b = true
  data : ∀ no ∈ sb.validInodes m, ∀ b ∈ blocks m (sb.diskEntry m no),
    sb.dataStart ≤ b ∧ b < sb.numBlocks
  bits : ∀ b, sb.dataStart ≤ b → b < sb.numBlocks →
    (sb.used m b = true ↔ ∃ no ∈ sb.validInodes m, ∃ i, i ≤ inodeMaxBlocks ∧
      slot m (sb.diskEntry m no) i = b)
  once : ∀ no ∈ sb.validInodes m, ∀ no' ∈ sb.validInodes m, ∀ i j, i ≤ inodeMaxBlocks →
    j ≤ inodeMaxBlocks → slot m (sb.diskEntry m no) i = slot m (sb.diskEntry m no') j →
    slot m (sb.diskEntry m no) i ≠ 0 → no = no' ∧ i = j

section Owned

variable {sb : SuperBlock} {m : Disk}

theorem SuperBlock.WellLaid.inodeBlocks_lt (hw : sb.WellLaid) {b : ℕ}
    (hb : b ∈ sb.inodeBlocks) : 0 < b ∧ b < sb.bitmapStart ∧ b < sb.dataStart := by
  obtain ⟨no, hle, rfl⟩ := hb
  have h0 := hw.boot
  have hin := hw.inodes
  have hbit := hw.bitmap 0 hw.pos
  simp only [SuperBlock.toBlockNo, SuperBlock.bblock, inodePerBlock_eq, bitPerBlock_eq] at hin hbit ⊢
  omega

theorem SuperBlock.WellLaid.layout (hw : sb.WellLaid) :
    sb.Layout sb.metaBlocks := by
  have hdata : 0 < sb.dataStart := by
    have := hw.bitmap 0 hw.pos
    omega
  refine ⟨⟨⟨hdata, ?_⟩, ?_⟩, ?_⟩
  · intro h
    have := (hw.inodeBlocks_lt h).1
    omega
  · rintro a ⟨b, hb, rfl⟩
    refine ⟨hw.bitmap b hb, ?_⟩
    intro h
    have := (hw.inodeBlocks_lt h).2.1
    simp only [SuperBlock.bblock, bitPerBlock_eq] at this
    omega
  · intro b hb
    refine ⟨?_, fun h => h.2 hb⟩
    have := (hw.inodeBlocks_lt hb).2.2
    simp only [SuperBlock.dataStart] at this
    omega

private theorem mem_blocks_iff {e : InodeEntry} {b : ℕ} (h0 : b ≠ 0) :
    b ∈ blocks m e ↔ ∃ i, i ≤ inodeMaxBlocks ∧ slot m e i = b := by
  constructor
  · rintro ⟨-, h⟩
    exact h
  · intro h
    exact ⟨h0, h⟩

/-- A data block in use is a block of an inode. -/
theorem SuperBlock.WellLaid.inUse_iff (hw : sb.WellLaid) {b : ℕ} (hge : sb.dataStart ≤ b) :
    b ∈ blocksInUse sb.inodeBlocks (sb.validInodes m) (sb.diskEntry m) m ∨ b ∈ sb.metaBlocks ↔
      ∃ no ∈ sb.validInodes m, ∃ i, i ≤ inodeMaxBlocks ∧ slot m (sb.diskEntry m no) i = b := by
  have hb0 : b ≠ 0 := by
    have := hw.bitmap 0 hw.pos
    omega
  constructor
  · rintro ((hA | ⟨no, hno, hb⟩) | hK)
    · have := (hw.inodeBlocks_lt hA).2.2
      omega
    · exact ⟨no, hno, (mem_blocks_iff hb0).mp hb⟩
    · have := hK.1
      omega
  · rintro ⟨no, hno, hslot⟩
    exact Or.inl (Or.inr ⟨no, hno, (mem_blocks_iff hb0).mpr hslot⟩)

/-- The two ways to say it are one. -/
theorem owned_iff (hw : sb.WellLaid) :
    Owned sb m ↔ SoundImage sb sb.metaBlocks m := by
  have hle : sb.dataStart ≤ sb.numBlocks := Nat.sub_le _ _
  constructor
  · intro h
    refine ⟨h.dense, ?_, ?_, ?_, ?_, Nat.zero_le _⟩
    · intro no hno
      refine ⟨fun i j hi hj hij h0 => (h.once no hno no hno i j hi hj hij h0).2, ?_⟩
      rintro b hb (hA | ⟨no', hno', hne, hb'⟩)
      · have := (hw.inodeBlocks_lt hA).2.2
        have := (h.data no hno b hb).1
        omega
      · obtain ⟨h0, i, hi, hib⟩ := hb
        obtain ⟨-, j, hj, hjb⟩ := hb'
        have := (h.once no hno no' hno' i j hi hj (hib.trans hjb.symm) (hib ▸ h0)).1
        exact hne this.symm
    · intro b hb
      rcases Nat.lt_or_ge b sb.dataStart with hlt | hge
      · refine iff_of_true (h.metadata b hlt) ?_
        by_cases hA : b ∈ sb.inodeBlocks
        · exact Or.inl (Or.inl hA)
        · exact Or.inr ⟨hlt, hA⟩
      · rw [h.bits b hge hb, hw.inUse_iff hge]
    · rintro b (hA | ⟨no, hno, hb⟩)
      · have := (hw.inodeBlocks_lt hA).2.2
        omega
      · exact (h.data no hno b hb).2
    · rintro b (hA | ⟨no, hno, hb⟩) hK
      · exact hK.2 hA
      · have := (h.data no hno b hb).1
        have := hK.1
        omega
  · intro h
    have hin : ∀ no ∈ sb.validInodes m, ∀ b ∈ blocks m (sb.diskEntry m no),
        b ∈ blocksInUse sb.inodeBlocks (sb.validInodes m) (sb.diskEntry m) m :=
      fun no hno b hb => Or.inr ⟨no, hno, hb⟩
    have hdataBlock : ∀ no ∈ sb.validInodes m, ∀ b ∈ blocks m (sb.diskEntry m no),
        sb.dataStart ≤ b ∧ b < sb.numBlocks := by
      intro no hno b hb
      refine ⟨?_, h.exact.lt b (hin no hno b hb)⟩
      by_contra hlt
      have hA : b ∉ sb.inodeBlocks := fun hA => (h.inUse no hno).off b hb (Or.inl hA)
      exact h.exact.off b (hin no hno b hb) ⟨by omega, hA⟩
    refine ⟨h.dense, ?_, hdataBlock, ?_, ?_⟩
    · intro b hb
      rw [h.exact.bits b (by omega)]
      by_cases hA : b ∈ sb.inodeBlocks
      · exact Or.inl (Or.inl hA)
      · exact Or.inr ⟨hb, hA⟩
    · intro b hge hb
      rw [h.exact.bits b hb, hw.inUse_iff hge]
    · intro no hno no' hno' i j hi hj hij h0
      have heq : no = no' := by
        by_contra hne
        refine (h.inUse no hno).off _ (mem_blocks_of_slot hi h0) (Or.inr ⟨no', hno', Ne.symm hne, ?_⟩)
        rw [hij] at h0 ⊢
        exact mem_blocks_of_slot hj h0
      subst heq
      exact ⟨rfl, (h.inUse no hno).inj i j hi hj hij h0⟩

/-- **No block is leaked or shared.**  Every serialised run of the operations keeps the image owned.
`inode_clear` clears the bits of the blocks of that inode and no others, and so does the
`inode_put` that drops the last reference of an inode without links, which also makes the inode
free. -/
theorem no_leak_no_share (hw : sb.WellLaid) (hO : Owned sb m) {s : InodeTree}
    (hr : Reach (fun s => s.step (bcacheAlloc sb) sb) (InodeTree.Legal sb) (InodeTree.init m) s) :
    Owned sb s.disk ∧
      (∀ id ip, s.find id = some ip → ∃ s', s.step (bcacheAlloc sb) sb (.clear id) = some s' ∧
        ∀ b, b < sb.numBlocks → (sb.used s'.disk b = true ↔
          sb.used s.disk b = true ∧ b ∉ blocks s.disk (sb.diskEntry s.disk ip.inodeNo))) ∧
      ∀ id ip, s.find id = some ip → ip.rc = 1 → ip.entry.numLinks = 0 →
        ∃ s', s.step (bcacheAlloc sb) sb (.put id) = some s' ∧
          (sb.diskEntry s'.disk ip.inodeNo).type = inodeInvalid ∧
          ∀ b, b < sb.numBlocks → (sb.used s'.disk b = true ↔
            sb.used s.disk b = true ∧ b ∉ blocks s.disk (sb.diskEntry s.disk ip.inodeNo)) := by
  have hlay := hw.layout
  have hI := InodeTree.Inv.of_reach hlay ((owned_iff hw).mp hO) hr
  refine ⟨(owned_iff hw).mpr hI.image, ?_, ?_⟩
  · intro id ip hf
    obtain ⟨hip, -, hpos⟩ := InodeTree.find_eq_some hf
    obtain ⟨-, hno, he⟩ := hI.live ip hip hpos
    obtain ⟨m₁, hc, -⟩ := hI.image.clear hlay hno
    rw [← he] at hc ⊢
    have hsome : (inodeClear (bcacheAlloc sb) sb s.disk ip.inodeNo ip.entry).isSome := by
      rw [hc]
      rfl
    obtain ⟨⟨e, m'⟩, hc⟩ := Option.isSome_iff_exists.mp hsome
    refine ⟨s.store id e m', ?_, (hI.clear hlay hf hc).2⟩
    rw [InodeTree.step, hf, Option.bind_eq_bind, Option.bind_some, hc]
    rfl
  · intro id ip hf hrc hlinks
    obtain ⟨hip, -, hpos⟩ := InodeTree.find_eq_some hf
    obtain ⟨hv, hno, he⟩ := hI.live ip hip hpos
    obtain ⟨m₁, hc, -⟩ := hI.image.clear hlay hno
    rw [← he] at hc ⊢
    have hput : (InodeTree.inodePut (bcacheAlloc sb) sb s ip).isSome := by
      rw [InodeTree.inodePut, hv, if_neg (by decide), if_pos ⟨hrc, hlinks⟩, hc]
      rfl
    obtain ⟨s', hput⟩ := Option.isSome_iff_exists.mp hput
    obtain ⟨-, htype, hused⟩ := hI.put_last hlay hf ⟨hrc, hlinks⟩ hput
    refine ⟨s', ?_, htype, hused⟩
    rw [InodeTree.step, hf, Option.bind_eq_bind, Option.bind_some, hput]

end Owned

/-! ## A small image -/

namespace Small

/-- A boot block, a super block, a log block, an inode block, a bitmap block and three data
blocks. -/
def sb : SuperBlock where
  numBlocks := 8
  numDataBlocks := 3
  numInodes := 3
  numLogBlocks := 1
  logStart := 2
  inodeStart := 3
  bitmapStart := 4
  isU32 := by decide

/-- A one byte file in block 5. -/
def entry : InodeEntry :=
  { InodeEntry.zero with
    type := inodeRegular, numLinks := 1, numBytes := 1
    addrs := fun i => if i = 0 then 5 else 0 }

/-- Inode 1 has block 5, inode 2 is empty, and the first `n` bits are set. -/
def disk (n : ℕ) : Disk := fun b =>
  if b = 3 then
    (Bytes.zero.putEntry 1 entry).putEntry 2 { InodeEntry.zero with type := inodeRegular, numLinks := 1 }
  else if b = 4 then (List.range n).foldl Bytes.setBit Bytes.zero
  else Bytes.zero

/-- Inode 2 gets a byte. -/
def calls : List InodeCall := [.get 2, .write 0 0 [7]]

theorem wellLaid : sb.WellLaid where
  pos := by decide
  boot := by decide
  inodes := by decide
  bitmap := by decide

end Small

instance (sb : SuperBlock) (s : InodeTree) :
    (call : InodeCall) → Decidable (InodeTree.Legal sb s call)
  | .get _ => inferInstanceAs (Decidable (_ ≠ _))
  | .read _ _ _ => inferInstanceAs (Decidable (_ < _))
  | .write _ _ _ => inferInstanceAs (Decidable (_ < _))
  | .alloc _ => isTrue trivial
  | .share _ => isTrue trivial
  | .put _ => isTrue trivial
  | .clear _ => isTrue trivial
  | .lookup _ _ => isTrue trivial
  | .insert _ _ _ => isTrue trivial
  | .remove _ _ => isTrue trivial
  | .setLinks _ _ => isTrue trivial

/-- The run of a list of calls that are all legal. -/
theorem InodeTree.reach_of_runs {sb : SuperBlock} {m : Disk} {s : InodeTree} (calls : List InodeCall)
    (hr : runs (fun s call => if decide (InodeTree.Legal sb s call) then
      s.step (bcacheAlloc sb) sb call else none) (InodeTree.init m) calls = some s) :
    Reach (fun s => s.step (bcacheAlloc sb) sb) (InodeTree.Legal sb) (InodeTree.init m) s :=
  Reach.init.of_tested (fun _ _ h => of_decide_eq_true h) calls hr

/-- Every allocated inode is dense, and a data block whose bit is set is referenced exactly once. -/
def SetBitsOwned (sb : SuperBlock) (m : Disk) : Prop :=
  (∀ no ∈ sb.validInodes m, Dense m (sb.diskEntry m no)) ∧
    ∀ b, sb.dataStart ≤ b → b < sb.numBlocks → sb.used m b = true →
      ∃! p : ℕ × ℕ, p.1 ∈ sb.validInodes m ∧ p.2 ≤ inodeMaxBlocks ∧
        slot m (sb.diskEntry m p.1) p.2 = b

/-- Without the bit of a block that is referenced, the block is handed out a second time. -/
theorem shared_without_bit : Small.sb.WellLaid ∧ SetBitsOwned Small.sb (Small.disk 5) ∧
    ∃ s, Reach (fun s => s.step (bcacheAlloc Small.sb) Small.sb) (InodeTree.Legal Small.sb)
      (InodeTree.init (Small.disk 5)) s ∧ ¬ SetBitsOwned Small.sb s.disk := by
  refine ⟨Small.wellLaid, ⟨?_, ?_⟩, ?_⟩
  · rintro no ⟨h1, hle, ht⟩
    have hle' : no ≤ 3 := hle
    obtain rfl | rfl | rfl : no = 1 ∨ no = 2 ∨ no = 3 := by omega
    · exact ⟨by decide +kernel, by unfold Mapped; decide +kernel⟩
    · exact ⟨by decide +kernel, by unfold Mapped; decide +kernel⟩
    · exact absurd (by decide +kernel) ht
  · intro b hge hlt hused
    have hge' : 5 ≤ b := hge
    have hlt' : b < 8 := hlt
    obtain rfl | rfl | rfl : b = 5 ∨ b = 6 ∨ b = 7 := by omega
    · exact absurd hused (by decide +kernel)
    · exact absurd hused (by decide +kernel)
    · exact absurd hused (by decide +kernel)
  · have hrun : (runs (fun s call => if decide (InodeTree.Legal Small.sb s call) then
        s.step (bcacheAlloc Small.sb) Small.sb call else none) (InodeTree.init (Small.disk 5))
          Small.calls).map (fun s => (Small.sb.used s.disk 5,
            [1, 2].map fun no => ((Small.sb.diskEntry s.disk no).type,
              slot s.disk (Small.sb.diskEntry s.disk no) 0))) =
        some (true, [(2, 5), (2, 5)]) := by decide +kernel
    obtain ⟨s, hs, hval⟩ := Option.map_eq_some_iff.mp hrun
    refine ⟨s, InodeTree.reach_of_runs _ hs, ?_⟩
    simp only [List.map_cons, List.map_nil, Prod.mk.injEq, List.cons.injEq, and_true] at hval
    obtain ⟨hused, ⟨ht₁, hs₁⟩, ht₂, hs₂⟩ := hval
    intro hO
    obtain ⟨p, -, hall⟩ := hO.2 5 (by decide) (by decide) hused
    have h₁ := hall (1, 0) ⟨⟨by decide, by decide, by rw [ht₁]; decide⟩, by decide, hs₁⟩
    have h₂ := hall (2, 0) ⟨⟨by decide, by decide, by rw [ht₂]; decide⟩, by decide, hs₂⟩
    rw [← h₂] at h₁
    cases h₁

theorem no_leak_no_share_small : ∃ s, (runs (fun s call => if decide (InodeTree.Legal Small.sb s call)
      then s.step (bcacheAlloc Small.sb) Small.sb call else none) (InodeTree.init (Small.disk 6))
        Small.calls) = some s ∧ Owned Small.sb s.disk := by
  have hvalid : ∀ no ∈ Small.sb.validInodes (Small.disk 6), no = 1 ∨ no = 2 := by
    rintro no ⟨h1, hle, ht⟩
    have hle' : no ≤ 3 := hle
    obtain rfl | rfl | rfl : no = 1 ∨ no = 2 ∨ no = 3 := by omega
    · exact Or.inl rfl
    · exact Or.inr rfl
    · exact absurd (by decide +kernel) ht
  -- the one address there is
  have hslot : ∀ no ∈ Small.sb.validInodes (Small.disk 6), ∀ i, i ≤ inodeMaxBlocks →
      slot (Small.disk 6) (Small.sb.diskEntry (Small.disk 6) no) i =
        if no = 1 ∧ i = 0 then 5 else 0 := by
    intro no hno i hi
    have h₁ : ∀ i, i < 141 → slot (Small.disk 6) (Small.sb.diskEntry (Small.disk 6) 1) i =
        if 1 = 1 ∧ i = 0 then 5 else 0 := by decide +kernel
    have h₂ : ∀ i, i < 141 → slot (Small.disk 6) (Small.sb.diskEntry (Small.disk 6) 2) i =
        if 2 = 1 ∧ i = 0 then 5 else 0 := by decide +kernel
    rw [inodeMaxBlocks_eq] at hi
    rcases hvalid no hno with rfl | rfl
    · exact h₁ i (by omega)
    · exact h₂ i (by omega)
  have hone : ∀ no ∈ Small.sb.validInodes (Small.disk 6), ∀ i, i ≤ inodeMaxBlocks →
      slot (Small.disk 6) (Small.sb.diskEntry (Small.disk 6) no) i ≠ 0 → no = 1 ∧ i = 0 := by
    intro no hno i hi h0
    rw [hslot no hno i hi] at h0
    by_contra h
    rw [if_neg h] at h0
    exact h0 rfl
  have hO : Owned Small.sb (Small.disk 6) := by
    refine ⟨?_, ?_, ?_, ?_, ?_⟩
    · intro no hno
      rcases hvalid no hno with rfl | rfl
      · exact ⟨by decide +kernel, by unfold Mapped; decide +kernel⟩
      · exact ⟨by decide +kernel, by unfold Mapped; decide +kernel⟩
    · show ∀ b, b < 5 → _
      decide +kernel
    · rintro no hno b ⟨h0, i, hi, rfl⟩
      obtain ⟨rfl, rfl⟩ := hone no hno i hi h0
      rw [hslot 1 hno 0 hi]
      decide
    · intro b hge hlt
      have hge' : 5 ≤ b := hge
      have hlt' : b < 8 := hlt
      have hbits : ∀ b, b < 8 → (Small.sb.used (Small.disk 6) b = true ↔ b < 6) := by
        decide +kernel
      rw [hbits b hlt']
      constructor
      · intro h
        refine ⟨1, ⟨by decide, by decide, by decide +kernel⟩, 0, Nat.zero_le _, ?_⟩
        rw [hslot 1 ⟨by decide, by decide, by decide +kernel⟩ 0 (Nat.zero_le _)]
        simp only [and_self, if_true]
        omega
      · rintro ⟨no, hno, i, hi, rfl⟩
        obtain ⟨rfl, rfl⟩ := hone no hno i hi (by omega)
        rw [hslot 1 hno 0 hi]
        decide
    · intro no hno no' hno' i j hi hj hij h0
      obtain ⟨rfl, rfl⟩ := hone no hno i hi h0
      rw [hij] at h0
      obtain ⟨rfl, rfl⟩ := hone no' hno' j hj h0
      exact ⟨rfl, rfl⟩
  obtain ⟨s, hs⟩ : ∃ s, (runs (fun s call => if decide (InodeTree.Legal Small.sb s call)
      then s.step (bcacheAlloc Small.sb) Small.sb call else none) (InodeTree.init (Small.disk 6))
        Small.calls) = some s := Option.isSome_iff_exists.mp (by decide +kernel)
  exact ⟨s, hs, (no_leak_no_share Small.wellLaid hO (InodeTree.reach_of_runs _ hs)).1⟩

end OsLab
