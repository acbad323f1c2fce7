import Mathlib.Data.Nat.Bitwise

/-!
# Addresses and page table entries

The constants and the address arithmetic of `aarch64/mmu.h` and `driver/memlayout.h`.
The kernel sees physical memory at `KSPACE_MASK`.  A page table entry is a physical
address with flags in its low and high bits, and the four indices of a virtual
address are nine bits each, from bit 12 to bit 47.

## Main definitions

* `p2k`, `k2p`, `pageBase` — conversions of addresses.
* `pteAddress`, `vaPart0`, …, `vaPart3` — the fields of an entry and of an address.
* `GoodPage` — a page-aligned kernel address of a physical page below `2^48`.
-/

namespace OsLab

/-- `PAGE_SIZE` -/
def pageSize : ℕ := 4096

/-- `KSPACE_MASK` -/
def kspaceMask : ℕ := 0xffff000000000000

/-- `PHYSTOP` -/
def phystop : ℕ := 0x3f000000

/-- `P2K(addr)` -/
def p2k (addr : ℕ) : ℕ := addr + kspaceMask

/-- `PAGE_BASE(addr)` -/
def pageBase (p : ℕ) : ℕ := p / pageSize * pageSize

/-- `K2P(addr)`, an unsigned 64-bit subtraction. -/
def k2p (addr : ℕ) : ℕ := (addr + (2 ^ 64 - kspaceMask)) % 2 ^ 64

/-- `PTE_VALID` -/
def pteValid : ℕ := 0x1

/-- `PTE_TABLE` -/
def pteTable : ℕ := 0x3

/-- `PTE_ADDRESS(pte)` -/
def pteAddress (pte : ℕ) : ℕ := pte &&& (2 ^ 64 - 1 - 0xFFFF000000000FFF)

/-- `VA_PART0(va)` -/
def vaPart0 (va : ℕ) : ℕ := (va &&& 0xFF8000000000) >>> 39

/-- `VA_PART1(va)` -/
def vaPart1 (va : ℕ) : ℕ := (va &&& 0x7FC0000000) >>> 30

/-- `VA_PART2(va)` -/
def vaPart2 (va : ℕ) : ℕ := (va &&& 0x3FE00000) >>> 21

/-- `VA_PART3(va)` -/
def vaPart3 (va : ℕ) : ℕ := (va &&& 0x1FF000) >>> 12

/-! ## Address arithmetic -/

/-- A page-aligned kernel address of a physical page below `2^48`. -/
def GoodPage (p : ℕ) : Prop := ∃ n, n < 2 ^ 36 ∧ p = kspaceMask + 4096 * n

theorem vaPart0_eq (va : ℕ) : vaPart0 va = va / 2 ^ 39 % 512 := by
  rw [vaPart0, Nat.shiftRight_and_distrib, Nat.shiftRight_eq_div_pow]
  exact Nat.and_two_pow_sub_one_eq_mod _ 9

theorem vaPart1_eq (va : ℕ) : vaPart1 va = va / 2 ^ 30 % 512 := by
  rw [vaPart1, Nat.shiftRight_and_distrib, Nat.shiftRight_eq_div_pow]
  exact Nat.and_two_pow_sub_one_eq_mod _ 9

theorem vaPart2_eq (va : ℕ) : vaPart2 va = va / 2 ^ 21 % 512 := by
  rw [vaPart2, Nat.shiftRight_and_distrib, Nat.shiftRight_eq_div_pow]
  exact Nat.and_two_pow_sub_one_eq_mod _ 9

theorem vaPart3_eq (va : ℕ) : vaPart3 va = va / 2 ^ 12 % 512 := by
  rw [vaPart3, Nat.shiftRight_and_distrib, Nat.shiftRight_eq_div_pow]
  exact Nat.and_two_pow_sub_one_eq_mod _ 9

theorem pteAddress_eq (pte : ℕ) : pteAddress pte = pte / 2 ^ 12 % 2 ^ 36 * 2 ^ 12 := by
  apply Nat.eq_of_testBit_eq
  intro i
  have hmask : 2 ^ 64 - 1 - 0xFFFF000000000FFF = (2 ^ 36 - 1) <<< 12 := by decide
  rw [pteAddress, hmask, Nat.testBit_and, Nat.testBit_shiftLeft, Nat.testBit_two_pow_sub_one,
    ← Nat.shiftLeft_eq, Nat.testBit_shiftLeft, ← Nat.shiftRight_eq_div_pow,
    Nat.testBit_mod_two_pow, Nat.testBit_shiftRight]
  by_cases hi : 12 ≤ i
  · simp [hi, Bool.and_comm]
  · simp [hi]

/-- The low bits of an entry are flags. -/
theorem or_flags {n f : ℕ} (hf : f < 4096) : 4096 * n ||| f = 4096 * n + f := by
  have := Nat.two_pow_add_eq_or_of_lt (i := 12) hf n
  exact this.symm

namespace GoodPage

variable {p : ℕ}

theorem ne_zero (h : GoodPage p) : p ≠ 0 := by
  obtain ⟨n, -, rfl⟩ := h
  simp [kspaceMask]

theorem k2p_eq (h : GoodPage p) : ∃ n, n < 2 ^ 36 ∧ p = kspaceMask + 4096 * n ∧ k2p p = 4096 * n := by
  obtain ⟨n, hn, rfl⟩ := h
  refine ⟨n, hn, rfl, ?_⟩
  simp only [k2p, kspaceMask]
  omega

/-- **An entry leads back to the page it was made for**, whatever its flags. -/
theorem p2k_pteAddress (h : GoodPage p) {f : ℕ} (hf : f < 4096) :
    p2k (pteAddress (k2p p ||| f)) = p := by
  obtain ⟨n, hn, hp, hk⟩ := h.k2p_eq
  rw [hk, or_flags hf, pteAddress_eq, p2k, hp]
  omega

theorem entry_lt (h : GoodPage p) {f : ℕ} (hf : f < 4096) : k2p p ||| f < 2 ^ 64 := by
  obtain ⟨n, hn, hp, hk⟩ := h.k2p_eq
  rw [hk, or_flags hf]
  omega

/-- An entry made for a table is valid. -/
theorem entry_valid (h : GoodPage p) :
    ¬ (k2p p ||| pteTable = 0 ∨ (k2p p ||| pteTable) &&& pteValid = 0) := by
  obtain ⟨n, hn, hp, hk⟩ := h.k2p_eq
  have hone : ∀ x, x &&& pteValid = x % 2 := fun x => Nat.and_one_is_mod x
  rw [hone, hk, or_flags (by decide), pteTable]
  omega

end GoodPage

end OsLab
