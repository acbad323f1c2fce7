import Mathlib.Data.Nat.ModEq
import Mathlib.Tactic.Ring
import Mathlib.Tactic.Linarith

/-!
# Fixed-size byte buffers and little-endian fields

A `Bytes n` is the content of a memory or disk region of `n` bytes.  The two
accesses a C program makes to such a region are a copy of a run of bytes
(`memmove`) and a load or store of a little-endian integer field.  Both are
described by the byte at each index, so two buffers are compared byte by byte.

## Main definitions

* `Bytes.get` — the byte at an index; zero past the end.
* `Bytes.splice`, `Bytes.slice` — copying a run of bytes in and out.
* `Bytes.word`, `Bytes.setWord` — a `k`-byte little-endian field.
-/

namespace OsLab

/-- A buffer of exactly `n` bytes. -/
def Bytes (n : ℕ) := Fin n → UInt8

namespace Bytes

variable {n : ℕ}

/-- The byte at index `i`; zero past the end. -/
def get (s : Bytes n) (i : ℕ) : UInt8 := if h : i < n then s ⟨i, h⟩ else 0

/-- The buffer whose byte at each index is given by `f`. -/
def ofFn (f : ℕ → UInt8) : Bytes n := fun i => f i

/-- The all-zero buffer. -/
def zero : Bytes n := ofFn fun _ => 0

instance : Inhabited (Bytes n) := ⟨zero⟩

theorem get_ofFn (f : ℕ → UInt8) {i : ℕ} (h : i < n) : (ofFn f : Bytes n).get i = f i := by
  simp [get, ofFn, h]

theorem get_of_le (s : Bytes n) {i : ℕ} (h : n ≤ i) : s.get i = 0 := by
  simp [get, Nat.not_lt.mpr h]

@[simp] theorem get_zero (i : ℕ) : (zero : Bytes n).get i = 0 := by
  simp [get, zero, ofFn]

theorem ext_get {s t : Bytes n} (h : ∀ i, i < n → s.get i = t.get i) : s = t := by
  funext i
  have := h i i.isLt
  simpa [get] using this

instance : DecidableEq (Bytes n) :=
  fun s t => decidable_of_iff (∀ i, i < n → s.get i = t.get i)
    ⟨ext_get, fun h _ _ => by rw [h]⟩

/-! ## Runs of bytes -/

/-- `memmove(s + off, src, src.length)`, dropping what falls past the end. -/
def splice (s : Bytes n) (off : ℕ) (src : List UInt8) : Bytes n :=
  ofFn fun i => if off ≤ i ∧ i < off + src.length then src.getD (i - off) 0 else s.get i

/-- The `len` bytes from `off` on. -/
def slice (s : Bytes n) (off len : ℕ) : List UInt8 :=
  (List.range len).map fun i => s.get (off + i)

theorem get_splice_of_mem (s : Bytes n) {off i : ℕ} {src : List UInt8}
    (h₁ : off ≤ i) (h₂ : i < off + src.length) (h : i < n) :
    (s.splice off src).get i = src.getD (i - off) 0 := by
  simp [splice, get_ofFn _ h, h₁, h₂]

theorem get_splice_of_notMem (s : Bytes n) {off i : ℕ} {src : List UInt8}
    (h : i < off ∨ off + src.length ≤ i) : (s.splice off src).get i = s.get i := by
  by_cases hi : i < n
  · have : ¬(off ≤ i ∧ i < off + src.length) := by omega
    simp only [splice, get_ofFn _ hi, if_neg this]
  · rw [get_of_le _ (by omega), get_of_le _ (by omega)]

/-- Of two runs stored in the same place the second stays. -/
theorem splice_splice (s : Bytes n) (off : ℕ) {a b : List UInt8} (h : a.length = b.length) :
    (s.splice off a).splice off b = s.splice off b := by
  apply ext_get
  intro i hi
  by_cases hin : off ≤ i ∧ i < off + b.length
  · rw [get_splice_of_mem _ hin.1 hin.2 hi, get_splice_of_mem _ hin.1 hin.2 hi]
  · rw [get_splice_of_notMem _ (by omega), get_splice_of_notMem _ (by omega),
      get_splice_of_notMem _ (by omega)]

@[simp] theorem length_slice (s : Bytes n) (off len : ℕ) : (s.slice off len).length = len := by
  simp [slice]

theorem getD_slice (s : Bytes n) (off : ℕ) {len i : ℕ} (h : i < len) :
    (s.slice off len).getD i 0 = s.get (off + i) := by
  simp [slice, h]

/-! ## Little-endian fields -/

/-- Byte `k` of the little-endian representation of `x`. -/
def leByte (x k : ℕ) : UInt8 := UInt8.ofNat (x / 256 ^ k)

/-- The value of the first `k` bytes of `f`, least significant first. -/
def leNat (f : ℕ → UInt8) : ℕ → ℕ
  | 0 => 0
  | k + 1 => leNat f k + (f k).toNat * 256 ^ k

theorem leNat_lt (f : ℕ → UInt8) (k : ℕ) : leNat f k < 256 ^ k := by
  induction k with
  | zero => simp [leNat]
  | succ k ih =>
      have hb : (f k).toNat ≤ 255 := by have := (f k).toNat_lt; omega
      have hm : (f k).toNat * 256 ^ k ≤ 255 * 256 ^ k := Nat.mul_le_mul_right _ hb
      simp only [leNat, pow_succ]
      omega

theorem leNat_congr {f g : ℕ → UInt8} {k : ℕ} (h : ∀ i, i < k → f i = g i) :
    leNat f k = leNat g k := by
  induction k with
  | zero => rfl
  | succ k ih =>
      simp only [leNat]
      rw [ih fun i hi => h i (by omega), h k (by omega)]

/-- Reading back what was stored gives the value reduced to the field's width. -/
theorem leNat_leByte (x k : ℕ) : leNat (leByte x) k = x % 256 ^ k := by
  induction k with
  | zero => simp [leNat, Nat.mod_one]
  | succ k ih =>
      have hb : (leByte x k).toNat = x / 256 ^ k % 256 := by simp [leByte]
      simp only [leNat, ih, hb]
      rw [pow_succ, Nat.mod_mul]
      ring

/-- The `k`-byte little-endian field at `off`. -/
def word (s : Bytes n) (off k : ℕ) : ℕ := leNat (fun i => s.get (off + i)) k

/-- Store `x` in the `k`-byte little-endian field at `off`. -/
def setWord (s : Bytes n) (off k x : ℕ) : Bytes n :=
  ofFn fun i => if off ≤ i ∧ i < off + k then leByte x (i - off) else s.get i

theorem word_lt (s : Bytes n) (off k : ℕ) : s.word off k < 256 ^ k := leNat_lt _ _

theorem word_congr {s t : Bytes n} {off k : ℕ}
    (h : ∀ i, off ≤ i → i < off + k → s.get i = t.get i) : s.word off k = t.word off k :=
  leNat_congr fun i hi => h (off + i) (by omega) (by omega)

@[simp] theorem word_zero (off k : ℕ) : (zero : Bytes n).word off k = 0 := by
  induction k with
  | zero => rfl
  | succ k ih => simpa [word, leNat] using ih

theorem leNat_eq_zero_iff (f : ℕ → UInt8) (k : ℕ) : leNat f k = 0 ↔ ∀ i < k, f i = 0 := by
  induction k with
  | zero => simp [leNat]
  | succ k ih =>
      rw [leNat, Nat.add_eq_zero_iff, ih, Nat.mul_eq_zero]
      constructor
      · rintro ⟨h, hk⟩ i hi
        rcases Nat.lt_succ_iff_lt_or_eq.mp hi with hlt | rfl
        · exact h i hlt
        · rcases hk with hk | hk
          · exact UInt8.toNat_inj.mp hk
          · exact absurd hk (by positivity)
      · intro h
        refine ⟨fun i hi => h i (by omega), Or.inl ?_⟩
        rw [h k (by omega)]
        rfl

theorem word_eq_zero_iff (s : Bytes n) (off k : ℕ) :
    s.word off k = 0 ↔ ∀ i < k, s.get (off + i) = 0 := leNat_eq_zero_iff _ _

theorem get_setWord_of_notMem (s : Bytes n) {off k x i : ℕ} (h : i < off ∨ off + k ≤ i) :
    (s.setWord off k x).get i = s.get i := by
  by_cases hi : i < n
  · have : ¬(off ≤ i ∧ i < off + k) := by omega
    simp only [setWord, get_ofFn _ hi, if_neg this]
  · rw [get_of_le _ (by omega), get_of_le _ (by omega)]

theorem word_setWord_self (s : Bytes n) {off k : ℕ} (x : ℕ) (h : off + k ≤ n) :
    (s.setWord off k x).word off k = x % 256 ^ k := by
  rw [← leNat_leByte]
  refine leNat_congr fun i hi => ?_
  have hi' : off + i < n := by omega
  simp [setWord, get_ofFn _ hi', hi]

/-- A store leaves every field it does not overlap unchanged. -/
theorem word_setWord_of_disjoint (s : Bytes n) {off k x off' k' : ℕ}
    (h : off' + k' ≤ off ∨ off + k ≤ off') :
    (s.setWord off k x).word off' k' = s.word off' k' :=
  word_congr fun i h₁ h₂ => get_setWord_of_notMem s (by omega)

end Bytes

end OsLab
