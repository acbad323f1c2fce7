import OsLab.Fs.Ownership

/-!
# The range of a read

`inode_read` clamps `count` to the end of the file with sums of `usize`, and three
assertions throw out what the clamp gets wrong.  What it returns is not the number of
bytes it stored.

## Main definitions

* `readCount` — the number of bytes a read is to store.
* `ReadRange` — what `inode.h` says about `read`.
* `inodeRead_range` — where it holds.
-/

namespace OsLab

/-- The bytes between `offset` and the end of the file, at most `count`. -/
def readCount (e : InodeEntry) (offset count : ℕ) : ℕ := min count (e.numBytes.toNat - offset)

/-- The read panics exactly for an offset past the end and for a range that wraps around, and
otherwise stores the bytes of the file from `offset` on and returns their number. -/
structure ReadRange (c : BlockAlloc) (m : Disk) (e : InodeEntry) (offset count : ℕ) : Prop where
  panics : inodeRead c m e offset count = none ↔
    e.numBytes.toNat < offset ∨ 2 ^ 64 ≤ offset + count
  stores : ∀ r dest e' m', inodeRead c m e offset count = some (r, dest, e', m') →
    dest.length = readCount e offset count ∧
      dest = ((content m e).drop offset).take (readCount e offset count)
  returns : ∀ r dest e' m', inodeRead c m e offset count = some (r, dest, e', m') →
    r = readCount e offset count

section Range

variable {c : BlockAlloc} {m : Disk} {e : InodeEntry} {offset count : ℕ}

/-- The assertions fail where the offset lies past the end or the range wraps around. -/
theorem inodeRead_eq_none (hc : count < 2 ^ 64)
    (h : e.numBytes.toNat < offset ∨ 2 ^ 64 ≤ offset + count) :
    inodeRead c m e offset count = none := by
  have hlt := e.numBytes.toNat_lt
  simp only [inodeRead]
  refine if_neg ?_
  intro hassert
  obtain ⟨hoff, hstop, hle⟩ := hassert
  rcases h with h | h
  · omega
  · -- the sum is less than the offset, so nothing is clamped
    rw [if_neg (by omega)] at hle
    omega

/-- The clamp. -/
theorem inodeRead_clamp (hD : Dense m e) (hoff : offset ≤ e.numBytes.toNat)
    (hsum : offset + count < 2 ^ 64) : inodeRead c m e offset count =
      some (0, ((content m e).drop offset).take (readCount e offset count), e, m) := by
  rcases Nat.lt_or_ge e.numBytes.toNat (offset + count) with hout | hin
  · -- the same as a read up to the end
    have hlt := e.numBytes.toNat_lt
    have hcount : readCount e offset count = e.numBytes.toNat - offset := by
      rw [readCount]
      omega
    rw [hcount, ← inodeRead_window (c := c) hD (by omega)]
    have hclamp : (e.numBytes.toNat + 2 ^ 64 - offset) % 2 ^ 64 = e.numBytes.toNat - offset := by
      omega
    have hwrap : (count + offset) % 2 ^ 64 > e.numBytes.toNat := by omega
    have hstay : ¬ (e.numBytes.toNat - offset + offset) % 2 ^ 64 > e.numBytes.toNat := by omega
    simp only [inodeRead]
    rw [if_pos hwrap, if_neg hstay, hclamp]
  · have hcount : readCount e offset count = count := by
      rw [readCount]
      omega
    rw [hcount, inodeRead_window hD hin]

theorem length_window (hoff : offset ≤ e.numBytes.toNat) :
    (((content m e).drop offset).take (readCount e offset count)).length =
      readCount e offset count := by
  rw [List.length_take, List.length_drop, length_content, readCount]
  omega

end Range

/-- **The range of a read of a dense file.**  The read panics where it should and stores what it
should, and its value is 0, so that the contract holds exactly for the reads that panic and for
those of no bytes. -/
theorem inodeRead_range (c : BlockAlloc) {m : Disk} {e : InodeEntry} (hD : Dense m e)
    (offset count : ℕ) (hc : count < 2 ^ 64) :
    ReadRange c m e offset count ↔
      e.numBytes.toNat < offset ∨ 2 ^ 64 ≤ offset + count ∨ count = 0 ∨
        offset = e.numBytes.toNat := by
  by_cases hpanic : e.numBytes.toNat < offset ∨ 2 ^ 64 ≤ offset + count
  · have hnone := inodeRead_eq_none (c := c) (m := m) hc hpanic
    constructor
    · intro _
      tauto
    · intro _
      refine ⟨iff_of_true hnone hpanic, ?_, ?_⟩
      · intro r dest e' m' hr
        rw [hnone] at hr
        cases hr
      · intro r dest e' m' hr
        rw [hnone] at hr
        cases hr
  · have hread : inodeRead c m e offset count =
        some (0, ((content m e).drop offset).take (readCount e offset count), e, m) :=
      inodeRead_clamp hD (by omega) (by omega)
    have hzero : readCount e offset count = 0 ↔ count = 0 ∨ offset = e.numBytes.toNat := by
      rw [readCount]
      omega
    constructor
    · intro h
      have := h.returns _ _ _ _ hread
      rw [eq_comm, hzero] at this
      tauto
    · intro h
      have h0 : readCount e offset count = 0 := hzero.mpr (by tauto)
      refine ⟨?_, ?_, ?_⟩
      · rw [hread]
        simp only [reduceCtorEq, false_iff]
        exact hpanic
      · intro r dest e' m' hr
        rw [hread] at hr
        cases hr
        refine ⟨length_window ?_, rfl⟩
        omega
      · intro r dest e' m' hr
        rw [hread] at hr
        cases hr
        exact h0.symm

theorem Small.dense : Dense (Small.disk 6) Small.entry :=
  ⟨by decide +kernel, by unfold Mapped; decide +kernel⟩

/-- A read at the end of a one byte file. -/
theorem inodeRead_range_small :
    ReadRange (bcacheAlloc Small.sb) (Small.disk 6) Small.entry 1 5 :=
  (inodeRead_range _ Small.dense 1 5 (by decide)).mpr
    (Or.inr (Or.inr (Or.inr rfl)))

/-- The byte of a one byte file is stored, and the value is 0. -/
theorem inodeRead_returns_zero : Dense (Small.disk 6) Small.entry ∧
    (inodeRead (bcacheAlloc Small.sb) (Small.disk 6) Small.entry 0 1).map
      (fun r => (r.1, r.2.1)) = some (0, [0]) ∧
    ¬ ReadRange (bcacheAlloc Small.sb) (Small.disk 6) Small.entry 0 1 := by
  have hrun : (inodeRead (bcacheAlloc Small.sb) (Small.disk 6) Small.entry 0 1).map
      (fun r => (r.1, r.2.1)) = some (0, [0]) := by decide +kernel
  refine ⟨Small.dense, hrun, ?_⟩
  intro h
  obtain ⟨⟨r, dest, e', m'⟩, hread, hval⟩ := Option.map_eq_some_iff.mp hrun
  simp only [Prod.mk.injEq] at hval
  have hone := h.returns _ _ _ _ hread
  have hcount : readCount Small.entry 0 1 = 1 := by decide
  rw [hval.1, hcount] at hone
  cases hone

end OsLab
