import OsLab.Fs.InodeTree

/-!
# Allocating inodes

The loop of `inode_alloc`, on any super block and any disk.  It looks at the inodes from 1
up to `num_inodes`, that one included, while `inode_get` accepts numbers below `num_inodes`
only.  The two agree until all inodes below `num_inodes` are in use.

## Main definitions

* `inodeAllocLoop`, `inodeAllocRun` — the loop, with the disk also where it panics.
* `AllocUsable` — what callers rely on.
* `inode_alloc_usable` — when they can.
-/

namespace OsLab

/-- The loop of `inode_alloc` from `no` on: the number that is returned, `none` where the loop
ends without one, and the disk. -/
def inodeAllocLoop (sb : SuperBlock) (type : UInt16) : ℕ → ℕ → Disk → Option ℕ × Disk
  | 0, _, m => (none, m)
  | fuel + 1, no, m =>
      if no ≤ sb.numInodes then
        if (sb.diskEntry m no).type = inodeInvalid then
          (some no, sb.putDiskEntry m no { InodeEntry.zero with type := type })
        else inodeAllocLoop sb type fuel (no + 1) m
      else (none, m)

/-- `inode_alloc`: the number, `none` for a panic, and the disk then. -/
def inodeAllocRun (sb : SuperBlock) (m : Disk) (type : UInt16) : Option ℕ × Disk :=
  if type = inodeInvalid then (none, m) else inodeAllocLoop sb type sb.numInodes 1 m

/-- The inode is free. -/
def SuperBlock.FreeInode (sb : SuperBlock) (m : Disk) (no : ℕ) : Prop :=
  (sb.diskEntry m no).type = inodeInvalid

/-- **What callers rely on.** -/
structure AllocUsable (sb : SuperBlock) (m : Disk) (type : UInt16) : Prop where
  /-- the number is good for `inode_get`, and was free -/
  usable : ∀ n m', inodeAllocRun sb m type = (some n, m') →
    0 < n ∧ n < sb.numInodes ∧ (∀ s, (InodeTree.inodeGet sb s n).isSome) ∧ sb.FreeInode m n
  /-- its entry is new -/
  entry : ∀ n m', inodeAllocRun sb m type = (some n, m') →
    sb.diskEntry m' n = { InodeEntry.zero with type := type }
  /-- nothing else changes -/
  frame : ∀ n m', inodeAllocRun sb m type = (some n, m') →
    (∀ no, no ≠ n → sb.diskEntry m' no = sb.diskEntry m no) ∧
      ∀ b, b ≠ sb.toBlockNo n → m' b = m b
  /-- it panics when no inode is free -/
  panic_iff : (inodeAllocRun sb m type).1 = none ↔
    ∀ n, 1 ≤ n → n < sb.numInodes → ¬ sb.FreeInode m n
  panic_frame : (inodeAllocRun sb m type).1 = none → (inodeAllocRun sb m type).2 = m

section Alloc

variable {sb : SuperBlock} {m m' : Disk} {type : UInt16} {fuel no n : ℕ}

/-- **What the loop finds**: the first free inode. -/
theorem inodeAllocLoop_some (h : inodeAllocLoop sb type fuel no m = (some n, m')) :
    no ≤ n ∧ n ≤ sb.numInodes ∧ sb.FreeInode m n ∧ (∀ k, no ≤ k → k < n → ¬ sb.FreeInode m k) ∧
      m' = sb.putDiskEntry m n { InodeEntry.zero with type := type } := by
  induction fuel generalizing no with
  | zero => cases h
  | succ fuel ih =>
      rw [inodeAllocLoop] at h
      split_ifs at h with hle hfree
      · cases h
        exact ⟨le_refl _, hle, hfree, fun k h₁ h₂ => absurd h₂ (by omega), rfl⟩
      · obtain ⟨h₁, h₂, h₃, h₄, h₅⟩ := ih h
        refine ⟨by omega, h₂, h₃, ?_, h₅⟩
        intro k hk hkn
        rcases Nat.eq_or_lt_of_le hk with rfl | hlt
        · exact hfree
        · exact h₄ k hlt hkn
      · cases h

/-- Where the loop ends, no inode was free. -/
theorem inodeAllocLoop_none (hfuel : sb.numInodes < no + fuel)
    (h : (inodeAllocLoop sb type fuel no m).1 = none) :
    (∀ k, no ≤ k → k ≤ sb.numInodes → ¬ sb.FreeInode m k) ∧
      (inodeAllocLoop sb type fuel no m).2 = m := by
  induction fuel generalizing no with
  | zero => exact ⟨fun k h₁ h₂ => absurd h₂ (by omega), rfl⟩
  | succ fuel ih =>
      rw [inodeAllocLoop] at h ⊢
      split_ifs at h ⊢ with hle hfree
      · obtain ⟨h₁, h₂⟩ := ih (by omega) h
        refine ⟨?_, h₂⟩
        intro k hk hkn
        rcases Nat.eq_or_lt_of_le hk with rfl | hlt
        · exact hfree
        · exact h₁ k hlt hkn
      · exact ⟨fun k h₁ h₂ => absurd h₂ (by omega), rfl⟩

/-- The loop is the search of `inodeAlloc`. -/
theorem inodeAllocLoop_eq (hfuel : no + fuel = sb.numInodes + 1) :
    inodeAllocLoop sb type fuel no m =
      match (List.range' no fuel).find? fun no => (sb.diskEntry m no).type = inodeInvalid with
      | some n => (some n, sb.putDiskEntry m n { InodeEntry.zero with type := type })
      | none => (none, m) := by
  induction fuel generalizing no with
  | zero => rfl
  | succ fuel ih =>
      rw [inodeAllocLoop, if_pos (by omega), List.range'_succ]
      by_cases hfree : (sb.diskEntry m no).type = inodeInvalid
      · rw [if_pos hfree, List.find?_cons_of_pos (by simpa using hfree)]
      · rw [if_neg hfree, List.find?_cons_of_neg (by simpa using hfree)]
        exact ih (by omega)

/-- **`inodeAlloc` is this loop**, without the disk where it panics. -/
theorem inodeAlloc_eq_run : inodeAlloc sb m type =
    (inodeAllocRun sb m type).1.map fun n => (n, (inodeAllocRun sb m type).2) := by
  rw [inodeAlloc, inodeAllocRun]
  split_ifs with htype
  · rfl
  · rw [inodeAllocLoop_eq (by omega)]
    cases (List.range' 1 sb.numInodes).find? fun no => (sb.diskEntry m no).type = inodeInvalid with
    | none => rfl
    | some n => rfl

theorem inodeGet_isSome (s : InodeTree) (h0 : 0 < n) (hn : n < sb.numInodes) :
    (InodeTree.inodeGet sb s n).isSome := by
  rw [InodeTree.inodeGet, if_pos ⟨h0, hn⟩]
  split
  · rfl
  · split
    · rfl
    · rfl

theorem inodeAllocRun_of_ne (htype : type ≠ inodeInvalid) :
    inodeAllocRun sb m type = inodeAllocLoop sb type sb.numInodes 1 m := by
  rw [inodeAllocRun, if_neg htype]

/-- A free inode that `inode_get` accepts is found before the last one. -/
theorem inodeAllocRun_lt (htype : type ≠ inodeInvalid) {k : ℕ} (hk : 1 ≤ k)
    (hlt : k < sb.numInodes) (hfree : sb.FreeInode m k) :
    ∃ n, n < sb.numInodes ∧ inodeAllocRun sb m type =
      (some n, sb.putDiskEntry m n { InodeEntry.zero with type := type }) := by
  rw [inodeAllocRun_of_ne htype]
  cases hr : inodeAllocLoop sb type sb.numInodes 1 m with
  | mk r m' =>
      cases r with
      | none =>
          have hnone := (inodeAllocLoop_none (by omega) (congrArg Prod.fst hr)).1
          exact absurd hfree (hnone k hk (by omega))
      | some n =>
          obtain ⟨-, -, -, hfirst, rfl⟩ := inodeAllocLoop_some hr
          refine ⟨n, ?_, rfl⟩
          by_contra hge
          exact hfirst k hk (by omega) hfree

/-- When the others are in use, the inode behind the last one is taken if it is free. -/
theorem inodeAllocRun_last (htype : type ≠ inodeInvalid) (h0 : sb.numInodes ≠ 0)
    (hfull : ∀ n, 1 ≤ n → n < sb.numInodes → ¬ sb.FreeInode m n)
    (hfree : sb.FreeInode m sb.numInodes) :
    (inodeAllocRun sb m type).1 = some sb.numInodes := by
  rw [inodeAllocRun_of_ne htype]
  cases hr : inodeAllocLoop sb type sb.numInodes 1 m with
  | mk r m' =>
      cases r with
      | none =>
          have hnone := (inodeAllocLoop_none (by omega) (congrArg Prod.fst hr)).1
          exact absurd hfree (hnone _ (by omega) (le_refl _))
      | some n =>
          obtain ⟨h1, hle, hn, -, -⟩ := inodeAllocLoop_some hr
          have hlast : n = sb.numInodes := by
            by_contra hne
            exact hfull n h1 (by omega) hn
          rw [hlast]

theorem inodeAllocRun_some (htype : type ≠ inodeInvalid)
    (h : inodeAllocRun sb m type = (some n, m')) :
    1 ≤ n ∧ n ≤ sb.numInodes ∧ sb.FreeInode m n ∧
      m' = sb.putDiskEntry m n { InodeEntry.zero with type := type } := by
  rw [inodeAllocRun_of_ne htype] at h
  obtain ⟨h1, hle, hfree, -, hm'⟩ := inodeAllocLoop_some h
  exact ⟨h1, hle, hfree, hm'⟩

/-- **The bound of `inode_get` is the only question.** -/
theorem AllocUsable.of_lt (htype : type ≠ inodeInvalid)
    (hlt : ∀ n m', inodeAllocRun sb m type = (some n, m') → n < sb.numInodes) :
    AllocUsable sb m type where
  usable n m' h := by
    obtain ⟨h1, -, hfree, -⟩ := inodeAllocRun_some htype h
    exact ⟨h1, hlt n m' h, fun s => inodeGet_isSome s h1 (hlt n m' h), hfree⟩
  entry n m' h := by
    obtain ⟨-, -, -, rfl⟩ := inodeAllocRun_some htype h
    exact SuperBlock.diskEntry_putDiskEntry_self ..
  frame n m' h := by
    obtain ⟨-, -, -, rfl⟩ := inodeAllocRun_some htype h
    exact ⟨fun _ hne => SuperBlock.diskEntry_putDiskEntry_of_ne hne,
      fun _ hne => SuperBlock.putDiskEntry_of_ne hne⟩
  panic_iff := by
    constructor
    · intro hnone n h1 hn
      rw [inodeAllocRun_of_ne htype] at hnone
      exact (inodeAllocLoop_none (by omega) hnone).1 n h1 (by omega)
    · intro hfull
      cases hr : inodeAllocRun sb m type with
      | mk r m' =>
          cases r with
          | none => rfl
          | some n =>
              obtain ⟨h1, -, hfree, -⟩ := inodeAllocRun_some htype hr
              exact absurd hfree (hfull n h1 (hlt n m' hr))
  panic_frame hnone := by
    rw [inodeAllocRun_of_ne htype] at hnone ⊢
    exact (inodeAllocLoop_none (by omega) hnone).2

theorem AllocUsable.lt (h : AllocUsable sb m type) (hr : (inodeAllocRun sb m type).1 = some n) :
    n < sb.numInodes :=
  (h.usable n _ (Prod.ext hr rfl)).2.1

end Alloc

/-- **Allocated numbers are usable** unless `num_inodes` is the first free inode of all. -/
theorem inode_alloc_usable (sb : SuperBlock) (m : Disk) (type : UInt16)
    (htype : type ≠ inodeInvalid) :
    AllocUsable sb m type ↔
      sb.numInodes = 0 ∨ ¬ sb.FreeInode m sb.numInodes ∨
        ∃ n, 1 ≤ n ∧ n < sb.numInodes ∧ sb.FreeInode m n := by
  constructor
  · intro h
    by_contra hcond
    push Not at hcond
    obtain ⟨h0, hfree, hfull⟩ := hcond
    have hlt := h.lt (inodeAllocRun_last htype h0 hfull hfree)
    omega
  · intro hcond
    apply AllocUsable.of_lt htype
    intro n m' hr
    obtain ⟨h1, hle, hfree, -⟩ := inodeAllocRun_some htype hr
    rcases hcond with h0 | hlast | ⟨k, hk, hkn, hkfree⟩
    · omega
    · have hne : n ≠ sb.numInodes := by
        rintro rfl
        exact hlast hfree
      omega
    · obtain ⟨n', hlt, hr'⟩ := inodeAllocRun_lt htype hk hkn hkfree
      rw [hr] at hr'
      cases hr'
      exact hlt

/-! ## A full disk -/

namespace FullDisk

/-- A block of regular files with one link each. -/
def files : Sector := Bytes.ofFn fun i => if i % 64 = 0 then 2 else if i % 64 = 6 then 1 else 0

/-- The disk of `mkfs` with all inodes below `num_inodes` in use. -/
def disk : Disk := fun b => if 65 ≤ b ∧ b < 90 then files else Bytes.zero

theorem type_files : ∀ k, k < 8 → (files.entry k).type = inodeRegular := by decide +kernel

theorem not_free {n : ℕ} (hn : n < 200) : ¬ Mkfs.sb.FreeInode disk n := by
  have hb : Mkfs.sb.toBlockNo n = 65 + n / 8 := rfl
  have hk : n % inodePerBlock < 8 := Nat.mod_lt _ (by decide)
  rw [SuperBlock.FreeInode, SuperBlock.diskEntry, hb, disk, if_pos (by omega), type_files _ hk]
  decide

theorem free_last : Mkfs.sb.FreeInode disk Mkfs.sb.numInodes := by
  rw [SuperBlock.FreeInode]
  decide +kernel

end FullDisk

/-- On a full disk `inode_alloc` returns 200. -/
theorem inode_alloc_usable_full : ¬ ∀ (sb : SuperBlock) (m : Disk) (type : UInt16),
    type ≠ inodeInvalid → AllocUsable sb m type := by
  intro h
  have hlast : (inodeAllocRun Mkfs.sb FullDisk.disk inodeRegular).1 = some Mkfs.sb.numInodes :=
    inodeAllocRun_last (by decide) (by decide) (fun n _ hn => FullDisk.not_free hn)
      FullDisk.free_last
  exact absurd ((h Mkfs.sb FullDisk.disk inodeRegular (by decide)).lt hlast) (Nat.lt_irrefl _)

/-- The full disk after the inode 100 has been freed -/
def FullDisk.freed : Disk := Mkfs.sb.putDiskEntry FullDisk.disk 100 InodeEntry.zero

/-- The freed number is given out again. -/
theorem inode_alloc_usable_freed : AllocUsable Mkfs.sb FullDisk.freed inodeRegular ∧
    (inodeAllocRun Mkfs.sb FullDisk.freed inodeRegular).1 = some 100 := by
  have hfree : Mkfs.sb.FreeInode FullDisk.freed 100 :=
    congrArg InodeEntry.type (SuperBlock.diskEntry_putDiskEntry_self ..)
  have huse := (inode_alloc_usable Mkfs.sb FullDisk.freed inodeRegular (by decide)).mpr
    (Or.inr (Or.inr ⟨100, by decide, by decide, hfree⟩))
  obtain ⟨n, hlt, hn⟩ := inodeAllocRun_lt (show inodeRegular ≠ inodeInvalid by decide)
    (show 1 ≤ 100 by decide) (show 100 < Mkfs.sb.numInodes by decide) hfree
  obtain ⟨-, -, -, hnfree⟩ := huse.usable n _ hn
  refine ⟨huse, ?_⟩
  rw [hn]
  by_contra hne
  -- the other numbers are in use
  rw [SuperBlock.FreeInode, FullDisk.freed,
    SuperBlock.diskEntry_putDiskEntry_of_ne fun h => hne (congrArg some h)] at hnfree
  exact FullDisk.not_free hlt hnfree

end OsLab
