import OsLab.Lib.Copies
import Mathlib.Algebra.Group.Nat.Defs
import Mathlib.Data.List.Range

/-!
# `memmove`

`memmove` of `common/string.c`, which copies upwards or downwards.  Pointers and `usize` are
words of 64 bits, and the memory has a byte at each address.

Whatever the overlap, the direction that it takes changes no byte of the source before that byte
is read: upwards `dest` is not inside the source, and downwards it is.

## Main definitions

* `copyUp`, `copyDown`, `memmove` — the code.
* `memmove_spec` — the bytes after it.
-/

namespace OsLab

/-- The memory, byte by byte. -/
abbrev ByteMem := UInt64 → UInt8

/-- `while (n-- > 0) *d++ = *s++;` -/
def copyUp : ℕ → ByteMem → UInt64 → UInt64 → ByteMem
  | 0, m, _, _ => m
  | n + 1, m, d, s => copyUp n (Function.update m d (m s)) (d + 1) (s + 1)

/-- `while (n-- > 0) *--d = *--s;` -/
def copyDown : ℕ → ByteMem → UInt64 → UInt64 → ByteMem
  | 0, m, _, _ => m
  | n + 1, m, d, s => copyDown n (Function.update m (d - 1) (m (s - 1))) (d - 1) (s - 1)

/-- `memmove`, with the pointer it returns. -/
def memmove (m : ByteMem) (dest src n : UInt64) : UInt64 × ByteMem :=
  if src < dest ∧ dest - src < n then (dest, copyDown n.toNat m (dest + n) (src + n))
  else (dest, copyUp n.toNat m dest src)

/-! ## The loops as lists of copies -/

/-- The copies of bytes `l` of the source. -/
def moves (dest src : UInt64) (l : List ℕ) : List (UInt64 × UInt64) :=
  l.map fun i => (dest + UInt64.ofNat i, src + UInt64.ofNat i)

theorem copyUp_eq (k : ℕ) (m : ByteMem) (d s : UInt64) :
    copyUp k m d s = copies (moves d s (List.range k)) m := by
  induction k generalizing m d s with
  | zero => rfl
  | succ k ih =>
      have hz : ∀ x : UInt64, x + UInt64.ofNat 0 = x := fun x => by simp
      have hs : ∀ (x : UInt64) (i : ℕ), x + 1 + UInt64.ofNat i = x + UInt64.ofNat (i + 1) := by
        intro x i
        rw [UInt64.ofNat_add, UInt64.add_comm (UInt64.ofNat i), ← UInt64.add_assoc]
        rfl
      rw [copyUp, ih, List.range_succ_eq_map, moves, moves, List.map_cons, List.map_map, copies_cons]
      simp only [hz, hs, Function.comp_def]

theorem copyDown_eq (k : ℕ) (m : ByteMem) (d s : UInt64) :
    copyDown k m (d + UInt64.ofNat k) (s + UInt64.ofNat k) =
      copies (moves d s (List.range k).reverse) m := by
  induction k generalizing m with
  | zero => rfl
  | succ k ih =>
      have hs : ∀ x : UInt64, x + UInt64.ofNat (k + 1) - 1 = x + UInt64.ofNat k := by
        intro x
        rw [UInt64.ofNat_add, ← UInt64.add_assoc]
        exact UInt64.add_sub_cancel _ _
      rw [copyDown, hs, hs, ih, List.range_succ, List.reverse_append, List.reverse_singleton,
        List.singleton_append, moves, moves, List.map_cons, copies_cons]

/-! ## Where the bytes are -/

section Addresses

variable {dest src n a : UInt64} {i j : ℕ}

/-- Byte `i` of a range of the address space. -/
theorem toNat_add_ofNat (h : dest.toNat + n.toNat ≤ 2 ^ 64) (hi : i < n.toNat) :
    (dest + UInt64.ofNat i).toNat = dest.toNat + i := by
  have hlt : i < 2 ^ 64 := hi.trans n.toNat_lt
  rw [UInt64.toNat_add, UInt64.toNat_ofNat_of_lt' hlt]
  exact Nat.mod_eq_of_lt (by omega)

/-- A copy upwards from byte `i` on disturbs a later one only if `dest` is inside the source. -/
theorem ne_of_up (hs : src.toNat + n.toNat ≤ 2 ^ 64) (hd : dest.toNat + n.toNat ≤ 2 ^ 64)
    (hdir : ¬ (src < dest ∧ dest - src < n)) (hj : j < n.toNat) (hij : i < j) :
    dest + UInt64.ofNat i ≠ dest + UInt64.ofNat j ∧
      dest + UInt64.ofNat i ≠ src + UInt64.ofNat j := by
  have hi := toNat_add_ofNat hd (hij.trans hj)
  refine ⟨?_, ?_⟩
  · intro heq
    have hval := congrArg UInt64.toNat heq
    rw [hi, toNat_add_ofNat hd hj] at hval
    omega
  · intro heq
    have hval := congrArg UInt64.toNat heq
    rw [hi, toNat_add_ofNat hs hj] at hval
    have hlt : src < dest := UInt64.lt_iff_toNat_lt.mpr (by omega)
    refine hdir ⟨hlt, UInt64.lt_iff_toNat_lt.mpr ?_⟩
    rw [UInt64.toNat_sub_of_le _ _ (UInt64.le_of_lt hlt)]
    omega

/-- A copy downwards disturbs none where `dest` is above `src`. -/
theorem ne_of_down (hs : src.toNat + n.toNat ≤ 2 ^ 64) (hd : dest.toNat + n.toNat ≤ 2 ^ 64)
    (hdir : src < dest) (hj : j < n.toNat) (hij : i < j) :
    dest + UInt64.ofNat j ≠ dest + UInt64.ofNat i ∧
      dest + UInt64.ofNat j ≠ src + UInt64.ofNat i := by
  have hlt := UInt64.lt_iff_toNat_lt.mp hdir
  have hval := toNat_add_ofNat hd hj
  refine ⟨?_, ?_⟩
  · intro heq
    rw [heq, toNat_add_ofNat hd (hij.trans hj)] at hval
    omega
  · intro heq
    rw [heq, toNat_add_ofNat hs (hij.trans hj)] at hval
    omega

end Addresses

/-- **The direction is right**: `memmove` is a list of copies of the `n` bytes, of which none
changes what a later one reads. -/
theorem memmove_copies (m : ByteMem) {dest src n : UInt64} (hs : src.toNat + n.toNat ≤ 2 ^ 64)
    (hd : dest.toNat + n.toNat ≤ 2 ^ 64) : ∃ l : List ℕ, (∀ i, i ∈ l ↔ i < n.toNat) ∧
      Undisturbed (moves dest src l) ∧ memmove m dest src n = (dest, copies (moves dest src l) m) := by
  by_cases hdir : src < dest ∧ dest - src < n
  · refine ⟨(List.range n.toNat).reverse, by simp, ?_, ?_⟩
    · refine List.pairwise_map.mpr (List.pairwise_reverse.mpr ?_)
      refine List.pairwise_lt_range.imp_of_mem ?_
      intro i j hi hj hij
      exact ne_of_down hs hd hdir.1 (List.mem_range.mp hj) hij
    · rw [memmove, if_pos hdir, ← copyDown_eq, UInt64.ofNat_toNat]
  · refine ⟨List.range n.toNat, by simp, ?_, ?_⟩
    · refine List.pairwise_map.mpr (List.pairwise_lt_range.imp_of_mem ?_)
      intro i j hi hj hij
      exact ne_of_up hs hd hdir (List.mem_range.mp hj) hij
    · rw [memmove, if_neg hdir, copyUp_eq]

/-- **`memmove` copies, whatever the overlap.**  It returns `dest`, byte `i` of `dest` is byte `i`
of `src` as it was before the call, and the bytes outside `dest` are as they were. -/
theorem memmove_spec (m : ByteMem) (dest src n : UInt64) (hs : src.toNat + n.toNat ≤ 2 ^ 64)
    (hd : dest.toNat + n.toNat ≤ 2 ^ 64) :
    (memmove m dest src n).1 = dest ∧
    (∀ i < n, (memmove m dest src n).2 (dest + i) = m (src + i)) ∧
    ∀ a : UInt64, ¬ (dest.toNat ≤ a.toNat ∧ a.toNat < dest.toNat + n.toNat) →
      (memmove m dest src n).2 a = m a := by
  obtain ⟨l, hl, hund, hmove⟩ := memmove_copies m hs hd
  rw [hmove]
  refine ⟨rfl, ?_, ?_⟩
  · intro i hi
    have hmem : (dest + i, src + i) ∈ moves dest src l := by
      refine List.mem_map.mpr ⟨i.toNat, (hl _).mpr (UInt64.lt_iff_toNat_lt.mp hi), ?_⟩
      rw [UInt64.ofNat_toNat]
    exact hund.copies_of_mem hmem
  · intro a ha
    refine copies_of_notMem ?_
    rintro p hp rfl
    obtain ⟨i, hi, rfl⟩ := List.mem_map.mp hp
    have hin := (hl i).mp hi
    rw [toNat_add_ofNat hd hin] at ha
    omega

/-- Four bytes moved up by one, and down again. -/
theorem memmove_spec_overlap :
    (∀ i < (4 : UInt64), (memmove (fun a => a.toUInt8) 11 10 4).2 (11 + i) = (10 + i).toUInt8) ∧
    ∀ i < (4 : UInt64), (memmove (fun a => a.toUInt8) 10 11 4).2 (10 + i) = (11 + i).toUInt8 :=
  ⟨(memmove_spec _ 11 10 4 (by decide) (by decide)).2.1,
    (memmove_spec _ 10 11 4 (by decide) (by decide)).2.1⟩

end OsLab
