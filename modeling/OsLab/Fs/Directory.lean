import OsLab.Fs.Files

/-!
# Directories

`inode_lookup`, `inode_insert` and `inode_remove` of `fs/inode.c`, with the `strncpy`
and `strncmp` of `common/string.c` they use.  A directory is a file of 16-byte entries;
an entry whose `inode_no` is zero is free.

A `const char *` is the list of its characters; past the end of the list there are
`'\0'`s.  The two string functions look at the characters up to the first `'\0'` only,
so what they identify is the padded name (`strncmp_eq_zero_iff`), and a directory is a
finite map from padded names.

## Main definitions

* `strncpy`, `strncmp`, `DirEntry` — names and entries.
* `inodeLookup`, `inodeInsert`, `inodeRemove` — the operations.
* `binding` — the map a directory stands for.
* `inodeLookup_spec`, `inodeInsert_spec`, `inodeRemove_spec` — the operations on the map.
-/

namespace OsLab

/-- `FILE_NAME_MAX_LENGTH` -/
def fileNameMaxLength : ℕ := 14

/-! ## Strings -/

/-- The bytes `strncpy` stores for the first `n` characters of `src`. -/
def strncpy : ℕ → List UInt8 → List UInt8
  | 0, _ => []
  | n + 1, [] => List.replicate (n + 1) 0
  | n + 1, c :: src => if c = 0 then List.replicate (n + 1) 0 else c :: strncpy n src

/-- `strncmp`; the differences are those of `char`. -/
def strncmp : ℕ → List UInt8 → List UInt8 → Int
  | 0, _, _ => 0
  | n + 1, s, t =>
      if s.headD 0 ≠ t.headD 0 then (s.headD 0).toNat - (t.headD 0).toNat
      else if s.headD 0 = 0 then 0
      else strncmp n s.tail t.tail

@[simp] theorem length_strncpy (n : ℕ) (s : List UInt8) : (strncpy n s).length = n := by
  induction n generalizing s with
  | zero => rfl
  | succ n ih =>
      cases s with
      | nil => simp [strncpy]
      | cons c s =>
          rw [strncpy]
          split
          · simp
          · rw [List.length_cons, ih]

private theorem strncpy_succ (n : ℕ) (s : List UInt8) : strncpy (n + 1) s =
    if s.headD 0 = 0 then List.replicate (n + 1) 0 else s.headD 0 :: strncpy n s.tail := by
  cases s with
  | nil => rfl
  | cons c s => rfl

private theorem head_strncpy_succ (n : ℕ) (s : List UInt8) :
    (strncpy (n + 1) s).headD 0 = s.headD 0 := by
  rw [strncpy_succ]
  split
  · rename_i h
    rw [h]
    rfl
  · rfl

/-- **The two string functions agree**: names compare equal where `strncpy` stores the same
bytes. -/
theorem strncmp_eq_zero_iff (n : ℕ) (s t : List UInt8) :
    strncmp n s t = 0 ↔ strncpy n s = strncpy n t := by
  induction n generalizing s t with
  | zero => simp [strncmp, strncpy]
  | succ n ih =>
      rw [strncmp]
      by_cases hne : s.headD 0 ≠ t.headD 0
      · rw [if_pos hne]
        constructor
        · intro h
          exact absurd (UInt8.toNat_inj.mp (by omega)) hne
        · intro h
          rw [← head_strncpy_succ n s, ← head_strncpy_succ n t, h] at hne
          exact absurd rfl hne
      · rw [if_neg hne, strncpy_succ, strncpy_succ]
        rw [not_not] at hne
        rw [← hne]
        split
        · simp
        · rw [ih, List.cons.injEq]
          simp

/-- A stored name is its own padding. -/
theorem strncpy_strncpy (n : ℕ) (s : List UInt8) : strncpy n (strncpy n s) = strncpy n s := by
  induction n generalizing s with
  | zero => rfl
  | succ n ih =>
      rw [strncpy_succ n (strncpy (n + 1) s), head_strncpy_succ]
      by_cases h : s.headD 0 = 0
      · rw [if_pos h, strncpy_succ, if_pos h]
      · rw [if_neg h, strncpy_succ n s, if_neg h, List.tail_cons, ih]

/-! ## Entries -/

/-- `DirEntry`; its name has `FILE_NAME_MAX_LENGTH` bytes. -/
structure DirEntry where
  inodeNo : UInt16
  name : List UInt8
  isName : name.length = fileNameMaxLength

namespace DirEntry

/-- The 16 bytes of the entry. -/
def bytes (de : DirEntry) : List UInt8 :=
  Bytes.leByte de.inodeNo.toNat 0 :: Bytes.leByte de.inodeNo.toNat 1 :: de.name

@[simp] theorem length_bytes (de : DirEntry) : de.bytes.length = 16 := by
  rw [bytes, List.length_cons, List.length_cons, de.isName]
  rfl

/-- The entry in 16 bytes. -/
def ofBytes (l : List UInt8) : DirEntry where
  inodeNo := UInt16.ofNat ((l.getD 0 0).toNat + 256 * (l.getD 1 0).toNat)
  name := (List.range fileNameMaxLength).map fun i => l.getD (2 + i) 0
  isName := by simp

@[ext] theorem ext {a b : DirEntry} (h : a.inodeNo = b.inodeNo) (h' : a.name = b.name) :
    a = b := by
  cases a
  cases b
  simp_all

theorem ofBytes_bytes (de : DirEntry) : ofBytes de.bytes = de := by
  apply ext
  · apply UInt16.toNat_inj.mp
    have hlt := de.inodeNo.toNat_lt
    have h0 : (Bytes.leByte de.inodeNo.toNat 0).toNat = de.inodeNo.toNat % 256 := by
      simp [Bytes.leByte]
    have h1 : (Bytes.leByte de.inodeNo.toNat 1).toNat = de.inodeNo.toNat / 256 % 256 := by
      simp [Bytes.leByte]
    simp only [ofBytes, bytes, List.getD_cons_zero, List.getD_cons_succ, h0, h1]
    rw [UInt16.toNat_ofNat_of_lt']
    · omega
    · show _ < 65536
      omega
  · apply List.ext_getElem
    · simp [ofBytes, de.isName]
    · intro i h₁ h₂
      simp [ofBytes, bytes, Nat.add_comm 2 i, List.getElem?_eq_getElem h₂]

/-- The free entry, all zero. -/
def zero : DirEntry := ⟨0, List.replicate 14 0, by simp [fileNameMaxLength]⟩

/-- The entry `inode_insert` stores. -/
def make (name : List UInt8) (inodeNo : ℕ) : DirEntry :=
  ⟨UInt16.ofNat inodeNo, strncpy fileNameMaxLength name, length_strncpy _ _⟩

end DirEntry

/-! ## The operations -/

/-- The entry that `inode_read(inode, &de, off, sizeof(de))` loads. -/
def readEntry (c : BlockAlloc) (m : Disk) (e : InodeEntry) (off : ℕ) :
    Option (DirEntry × InodeEntry × Disk) := do
  let (r, dest, e, m) ← inodeRead c m e off 16
  if r ≠ 0 then none else some (DirEntry.ofBytes dest, e, m)

/-- The loop of `inode_lookup` from `off` on: the inode number and the offset of the entry. -/
def lookupLoop (c : BlockAlloc) (name : List UInt8) : ℕ → Disk → InodeEntry → ℕ →
    Option (Option (ℕ × ℕ) × InodeEntry × Disk)
  | 0, _, _, _ => none
  | fuel + 1, m, e, off =>
      if off < e.numBytes.toNat then do
        let (de, e, m) ← readEntry c m e off
        if de.inodeNo = 0 then lookupLoop c name fuel m e (off + 16)
        else if strncmp fileNameMaxLength de.name name = 0 then
          some (some (de.inodeNo.toNat, off), e, m)
        else lookupLoop c name fuel m e (off + 16)
      else some (none, e, m)

/-- `inode_lookup`: the number it returns and the value it stores in `*index`. -/
def inodeLookup (c : BlockAlloc) (m : Disk) (e : InodeEntry) (name : List UInt8) :
    Option (ℕ × Option ℕ × InodeEntry × Disk) :=
  if e.type = inodeDirectory then do
    let (r, e, m) ← lookupLoop c name (e.numBytes.toNat + 1) m e 0
    match r with
    | some (inum, off) => some (inum, some off, e, m)
    | none => some (0, none, e, m)
  else none

/-- The loop of `inode_insert`: the offset of the first free entry, or the size. -/
def freeLoop (c : BlockAlloc) : ℕ → Disk → InodeEntry → ℕ → Option (ℕ × InodeEntry × Disk)
  | 0, _, _, _ => none
  | fuel + 1, m, e, off =>
      if off < e.numBytes.toNat then do
        let (de, e, m) ← readEntry c m e off
        if de.inodeNo = 0 then some (off, e, m) else freeLoop c fuel m e (off + 16)
      else some (off, e, m)

/-- `(usize)-1` -/
def minusOne : ℕ := 2 ^ 64 - 1

/-- `inode_insert` -/
def inodeInsert (c : BlockAlloc) (sb : SuperBlock) (m : Disk) (no : ℕ) (e : InodeEntry)
    (name : List UInt8) (inodeNo : ℕ) : Option (ℕ × InodeEntry × Disk) :=
  if e.type = inodeDirectory then do
    let (inum, _, e, m) ← inodeLookup c m e name
    if inum ≠ 0 then some (minusOne, e, m)
    else do
      let (off, e, m) ← freeLoop c (e.numBytes.toNat + 1) m e 0
      let (_, e, m) ← inodeWrite c sb m no e off (DirEntry.make name inodeNo).bytes
      some (off, e, m)
  else none

/-- `inode_remove` -/
def inodeRemove (c : BlockAlloc) (sb : SuperBlock) (m : Disk) (no : ℕ) (e : InodeEntry)
    (index : ℕ) : Option (InodeEntry × Disk) :=
  if e.type = inodeDirectory then do
    let (_, e, m) ← inodeWrite c sb m no e index DirEntry.zero.bytes
    some (e, m)
  else none

/-! ## The map a directory stands for -/

/-- Entry `j` of the directory with content `l`. -/
def entryAt (l : List UInt8) (j : ℕ) : DirEntry := DirEntry.ofBytes ((l.drop (16 * j)).take 16)

/-- Entry `j` is in use under the padded name `key`. -/
def NamedAt (l : List UInt8) (key : List UInt8) (j : ℕ) : Prop :=
  (entryAt l j).inodeNo ≠ 0 ∧ strncpy fileNameMaxLength (entryAt l j).name = key

instance (l key : List UInt8) (j : ℕ) : Decidable (NamedAt l key j) :=
  inferInstanceAs (Decidable (_ ∧ _))

/-- No two used entries have the same name. -/
def UniqueNames (l : List UInt8) : Prop :=
  ∀ key i j, 16 * i < l.length → 16 * j < l.length → NamedAt l key i → NamedAt l key j → i = j

/-- **The map**: the inode number and the index of a padded name. -/
def binding (l : List UInt8) (key : List UInt8) : Option (ℕ × ℕ) :=
  ((List.range (l.length / 16)).find? fun j => NamedAt l key j).map fun j =>
    ((entryAt l j).inodeNo.toNat, 16 * j)

section Binding

variable {l l' key : List UInt8} {i j n : ℕ}

theorem binding_eq_none (h : binding l key = none) (hj : j < l.length / 16) :
    ¬ NamedAt l key j := by
  rw [binding, Option.map_eq_none_iff, List.find?_eq_none] at h
  simpa using h j (List.mem_range.mpr hj)

theorem binding_eq_some {no idx : ℕ} (h : binding l key = some (no, idx)) :
    ∃ j, j < l.length / 16 ∧ NamedAt l key j ∧ (∀ i, i < j → ¬ NamedAt l key i) ∧
      no = (entryAt l j).inodeNo.toNat ∧ idx = 16 * j := by
  rw [binding, Option.map_eq_some_iff] at h
  obtain ⟨j, hj, hval⟩ := h
  rw [List.find?_range_eq_some] at hj
  simp only [decide_eq_true_eq, Bool.not_eq_true', decide_eq_false_iff_not, List.mem_range] at hj
  cases hval
  exact ⟨j, hj.2.1, hj.1, hj.2.2, rfl, rfl⟩

theorem binding_of_not (h : ∀ j, j < l.length / 16 → ¬ NamedAt l key j) : binding l key = none := by
  rw [binding, Option.map_eq_none_iff, List.find?_eq_none]
  intro j hj
  simpa using h j (List.mem_range.mp hj)

theorem binding_of_namedAt (hU : UniqueNames l) (hj : j < l.length / 16) (h : NamedAt l key j) :
    binding l key = some ((entryAt l j).inodeNo.toNat, 16 * j) := by
  rcases hb : binding l key with - | ⟨no, idx⟩
  · exact absurd h (binding_eq_none hb hj)
  · obtain ⟨i, hi, hn, -, rfl, rfl⟩ := binding_eq_some hb
    rw [hU key i j (by omega) (by omega) hn h]

end Binding

/-! ## Reading entries -/

section Read

variable {c : BlockAlloc} {m : Disk} {e : InodeEntry} {name : List UInt8} {j : ℕ}

/-- Where entry `j` lies in mapped blocks, it is read and nothing changes. -/
theorem readEntry_of_mapped (h : 16 * j + 16 ≤ e.numBytes.toNat)
    (hmap : ∀ i, 16 * j ≤ i → i < 16 * j + 16 → blockAddr m e (i / blockSize) ≠ 0) :
    readEntry c m e (16 * j) = some (entryAt (content m e) j, e, m) := by
  rw [readEntry, inodeRead_of_mapped h hmap]
  rfl

variable (hmult : 16 ∣ e.numBytes.toNat)

include hmult

private theorem slot_le (hj : 16 * j < e.numBytes.toNat) : 16 * j + 16 ≤ e.numBytes.toNat := by
  obtain ⟨n, hn⟩ := hmult
  omega

/-- The loop of `inode_lookup` stops at the first entry with the name. -/
theorem lookupLoop_found (hj : 16 * j < e.numBytes.toNat)
    (hmap : ∀ i, i < 16 * j + 16 → blockAddr m e (i / blockSize) ≠ 0)
    (hname : NamedAt (content m e) (strncpy fileNameMaxLength name) j)
    (hfirst : ∀ i, i < j → ¬ NamedAt (content m e) (strncpy fileNameMaxLength name) i)
    (d k fuel : ℕ) (hk : k + d = j) (hf : d < fuel) :
    lookupLoop c name fuel m e (16 * k) =
      some (some ((entryAt (content m e) j).inodeNo.toNat, 16 * j), e, m) := by
  induction d generalizing k fuel with
  | zero =>
      obtain ⟨fuel, rfl⟩ : ∃ f, fuel = f + 1 := ⟨fuel - 1, by omega⟩
      obtain rfl : k = j := hk
      rw [lookupLoop, if_pos hj, readEntry_of_mapped (slot_le hmult hj) fun i _ hi => hmap i hi]
      simp only [Option.bind_eq_bind, Option.bind_some, if_neg hname.1,
        if_pos ((strncmp_eq_zero_iff _ _ _).mpr hname.2)]
  | succ d ih =>
      obtain ⟨fuel, rfl⟩ : ∃ f, fuel = f + 1 := ⟨fuel - 1, by omega⟩
      have hk' : 16 * k < e.numBytes.toNat := by omega
      have hnot := hfirst k (by omega)
      rw [lookupLoop, if_pos hk', readEntry_of_mapped (slot_le hmult hk') fun i _ hi =>
        hmap i (by omega)]
      have hrest := ih (k + 1) fuel (by omega) (by omega)
      rw [Nat.mul_add, Nat.mul_one] at hrest
      simp only [Option.bind_eq_bind, Option.bind_some]
      by_cases h0 : (entryAt (content m e) k).inodeNo = 0
      · rw [if_pos h0, hrest]
      · rw [if_neg h0, if_neg, hrest]
        intro hcmp
        exact hnot ⟨h0, (strncmp_eq_zero_iff _ _ _).mp hcmp⟩

/-- The loop of `inode_lookup` where no entry has the name. -/
theorem lookupLoop_not_found (hmap : ∀ i, i < e.numBytes.toNat → blockAddr m e (i / blockSize) ≠ 0)
    (hnot : ∀ i, 16 * i < e.numBytes.toNat →
      ¬ NamedAt (content m e) (strncpy fileNameMaxLength name) i)
    (d k fuel : ℕ) (hk : 16 * (k + d) = e.numBytes.toNat) (hf : d < fuel) :
    lookupLoop c name fuel m e (16 * k) = some (none, e, m) := by
  induction d generalizing k fuel with
  | zero =>
      obtain ⟨fuel, rfl⟩ : ∃ f, fuel = f + 1 := ⟨fuel - 1, by omega⟩
      rw [lookupLoop, if_neg (by omega)]
  | succ d ih =>
      obtain ⟨fuel, rfl⟩ : ∃ f, fuel = f + 1 := ⟨fuel - 1, by omega⟩
      have hk' : 16 * k < e.numBytes.toNat := by omega
      have hle := slot_le hmult hk'
      rw [lookupLoop, if_pos hk', readEntry_of_mapped hle fun i _ hi => hmap i (by omega)]
      have hrest := ih (k + 1) fuel (by omega) (by omega)
      rw [Nat.mul_add, Nat.mul_one] at hrest
      simp only [Option.bind_eq_bind, Option.bind_some]
      by_cases h0 : (entryAt (content m e) k).inodeNo = 0
      · rw [if_pos h0, hrest]
      · rw [if_neg h0, if_neg, hrest]
        intro hcmp
        exact hnot k hk' ⟨h0, (strncmp_eq_zero_iff _ _ _).mp hcmp⟩

/-- The loop of `inode_insert` stops at the first free entry, or at the end. -/
theorem freeLoop_spec (hmap : ∀ i, i < e.numBytes.toNat → blockAddr m e (i / blockSize) ≠ 0)
    (d k fuel : ℕ) (hk : 16 * (k + d) = e.numBytes.toNat) (hf : d < fuel) :
    ∃ j, k ≤ j ∧ 16 * j ≤ e.numBytes.toNat ∧
      (16 * j < e.numBytes.toNat → (entryAt (content m e) j).inodeNo = 0) ∧
      (∀ i, k ≤ i → i < j → (entryAt (content m e) i).inodeNo ≠ 0) ∧
      freeLoop c fuel m e (16 * k) = some (16 * j, e, m) := by
  induction d generalizing k fuel with
  | zero =>
      obtain ⟨fuel, rfl⟩ : ∃ f, fuel = f + 1 := ⟨fuel - 1, by omega⟩
      refine ⟨k, le_refl _, by omega, fun h => absurd h (by omega), fun i _ _ => by omega, ?_⟩
      rw [freeLoop, if_neg (by omega)]
  | succ d ih =>
      obtain ⟨fuel, rfl⟩ : ∃ f, fuel = f + 1 := ⟨fuel - 1, by omega⟩
      have hk' : 16 * k < e.numBytes.toNat := by omega
      have hle := slot_le hmult hk'
      have hread : readEntry c m e (16 * k) = some (entryAt (content m e) k, e, m) :=
        readEntry_of_mapped hle fun i _ hi => hmap i (by omega)
      by_cases h0 : (entryAt (content m e) k).inodeNo = 0
      · refine ⟨k, le_refl _, by omega, fun _ => h0, fun i _ _ => by omega, ?_⟩
        rw [freeLoop, if_pos hk', hread]
        simp only [Option.bind_eq_bind, Option.bind_some, if_pos h0]
      · obtain ⟨j, hkj, hj, hfree, hused, hrest⟩ := ih (k + 1) fuel (by omega) (by omega)
        refine ⟨j, by omega, hj, hfree, ?_, ?_⟩
        · intro i hi hij
          rcases Nat.eq_or_lt_of_le hi with rfl | hi
          · exact h0
          · exact hused i hi hij
        · rw [freeLoop, if_pos hk', hread]
          rw [Nat.mul_add, Nat.mul_one] at hrest
          simp only [Option.bind_eq_bind, Option.bind_some, if_neg h0, hrest]

end Read

/-! ## Storing an entry -/

section Store

variable {l key : List UInt8} {i j k : ℕ} {de : DirEntry}

private theorem ofBytes_congr {l l' : List UInt8} (h : ∀ i, i < 16 → l.getD i 0 = l'.getD i 0) :
    DirEntry.ofBytes l = DirEntry.ofBytes l' := by
  apply DirEntry.ext
  · simp only [DirEntry.ofBytes, h 0 (by omega), h 1 (by omega)]
  · simp only [DirEntry.ofBytes]
    apply List.map_congr_left
    intro i hi
    rw [List.mem_range, fileNameMaxLength] at hi
    exact h (2 + i) (by omega)

private theorem getD_entry (hi : i < 16) :
    ((l.drop (16 * j)).take 16).getD i 0 = l.getD (16 * j + i) 0 := by
  simp only [List.getD_eq_getElem?_getD, List.getElem?_take, if_pos hi, List.getElem?_drop]

/-- **Storing an entry** changes that entry only. -/
theorem entryAt_replaceAt (hj : 16 * j ≤ l.length) (k : ℕ) :
    entryAt (replaceAt l (16 * j) de.bytes) k = if k = j then de else entryAt l k := by
  split
  · rename_i hk
    rw [hk, entryAt]
    rw [← DirEntry.ofBytes_bytes de]
    apply ofBytes_congr
    intro i hi
    rw [getD_entry hi, getD_replaceAt hj, DirEntry.ofBytes_bytes, DirEntry.length_bytes,
      if_pos (by omega), Nat.add_sub_cancel_left]
  · rename_i hk
    apply ofBytes_congr
    intro i hi
    rw [getD_entry hi, getD_entry hi, getD_replaceAt hj, DirEntry.length_bytes, if_neg (by omega)]

theorem namedAt_replaceAt (hj : 16 * j ≤ l.length) :
    NamedAt (replaceAt l (16 * j) de.bytes) key k ↔
      if k = j then de.inodeNo ≠ 0 ∧ strncpy fileNameMaxLength de.name = key
      else NamedAt l key k := by
  rw [NamedAt, entryAt_replaceAt hj]
  split
  · rfl
  · rfl

end Store

/-! ## The operations on the map -/

/-- A directory: dense, with whole entries and no name twice, apart from the blocks `V`. -/
structure IsDir (V : Set ℕ) (m : Disk) (e : InodeEntry) : Prop where
  type : e.type = inodeDirectory
  dense : Dense m e
  apart : Apart V m e
  whole : 16 ∣ e.numBytes.toNat
  unique : UniqueNames (content m e)

section Spec

variable {c : BlockAlloc} {Good : ℕ → Set ℕ → Disk → Prop} {sb : SuperBlock} {V : Set ℕ}
  {m m' : Disk} {e e' : InodeEntry} {no inodeNo N j : ℕ} {name : List UInt8}

/-- **`inode_lookup`** reads the map. -/
theorem inodeLookup_spec (hI : IsDir V m e) : inodeLookup c m e name =
    match binding (content m e) (strncpy fileNameMaxLength name) with
    | some (inum, index) => some (inum, some index, e, m)
    | none => some (0, none, e, m) := by
  have hlen := length_content m e
  have hmap : ∀ i, i < e.numBytes.toNat → blockAddr m e (i / blockSize) ≠ 0 :=
    fun i hi => hI.dense.blockAddr_ne_zero hi
  obtain ⟨n, hn⟩ := hI.whole
  rw [inodeLookup, if_pos hI.type]
  rcases hb : binding (content m e) (strncpy fileNameMaxLength name) with - | ⟨inum, index⟩
  · have hl : lookupLoop c name (e.numBytes.toNat + 1) m e (16 * 0) = some (none, e, m) := by
      refine lookupLoop_not_found hI.whole hmap ?_ n 0 _ (by omega) (by omega)
      intro i hi
      apply binding_eq_none hb
      rw [hlen]
      omega
    rw [Nat.mul_zero] at hl
    rw [hl]
    rfl
  · obtain ⟨j, hj, hname, hfirst, rfl, rfl⟩ := binding_eq_some hb
    rw [hlen] at hj
    have hl : lookupLoop c name (e.numBytes.toNat + 1) m e (16 * 0) =
        some (some ((entryAt (content m e) j).inodeNo.toNat, 16 * j), e, m) :=
      lookupLoop_found hI.whole (by omega) (fun i hi => hmap i (by omega)) hname hfirst j 0 _
        (by omega) (by omega)
    rw [Nat.mul_zero] at hl
    rw [hl]
    rfl

theorem inodeLookup_of_none (hI : IsDir V m e)
    (hb : binding (content m e) (strncpy fileNameMaxLength name) = none) :
    inodeLookup c m e name = some (0, none, e, m) := by
  rw [inodeLookup_spec hI, hb]

/-- The number in the map is not zero. -/
theorem binding_ne_zero {l key : List UInt8} {inum index : ℕ}
    (hb : binding l key = some (inum, index)) : inum ≠ 0 := by
  obtain ⟨j, -, hname, -, rfl, -⟩ := binding_eq_some hb
  intro h
  exact hname.1 (UInt16.toNat_inj.mp h)

/-- **`inode_insert` of a name that is present** changes nothing. -/
theorem inodeInsert_present {inum index : ℕ} (hI : IsDir V m e)
    (hb : binding (content m e) (strncpy fileNameMaxLength name) = some (inum, index)) :
    inodeInsert c sb m no e name inodeNo = some (minusOne, e, m) := by
  rw [inodeInsert, if_pos hI.type, inodeLookup_spec hI, hb]
  simp only [Option.bind_eq_bind, Option.bind_some, if_pos (binding_ne_zero hb)]

/-- What storing the entry `de` at slot `j` does to the directory. -/
structure Stored (V : Set ℕ) (m : Disk) (e : InodeEntry) (j : ℕ) (de : DirEntry) (m' : Disk)
    (e' : InodeEntry) : Prop where
  isDir : IsDir V m' e'
  content : content m' e' = replaceAt (content m e) (16 * j) de.bytes
  size : e'.numBytes.toNat = max e.numBytes.toNat (16 * j + 16)

/-- `inode_write` of one entry, free or with a name that no other entry has. -/
theorem store_entry {de : DirEntry} (hL : c.Lawful Good) (hI : IsDir V m e)
    (hno : sb.toBlockNo no ∈ V) (hG : Good (N + 2) (V ∪ blocks m e) m)
    (hj : 16 * j ≤ e.numBytes.toNat) (hmax : 16 * j + 16 ≤ inodeMaxBytes)
    (hfresh : de.inodeNo ≠ 0 → ∀ i, 16 * i < e.numBytes.toNat → i ≠ j →
      ¬ NamedAt (content m e) (strncpy fileNameMaxLength de.name) i) :
    ∃ e' m', inodeWrite c sb m no e (16 * j) de.bytes = some (16, e', m') ∧
      Stored V m e j de m' e' ∧ FileWrite sb V no m e (16 * j) de.bytes m' e' ∧
      Good N (V ∪ blocks m' e') m' := by
  have hlen := de.length_bytes
  have hcost : blocksFor (16 * j + de.bytes.length) - blocksFor e.numBytes.toNat + 1 ≤ 2 := by
    rw [hlen]
    simp only [blocksFor, blockSize_eq]
    omega
  have hsome : (inodeWrite c sb m no e (16 * j) de.bytes).isSome :=
    inodeWrite_isSome hL hI.apart hI.dense hj (by rw [hlen]; exact hmax)
      (hL.mono hG (by omega))
  obtain ⟨⟨r, e', m'⟩, hr⟩ := Option.isSome_iff_exists.mp hsome
  obtain ⟨rfl, hW, hG'⟩ := inodeWrite_spec hL hI.apart hI.dense hno hG (by rw [hlen]; decide) hr
  have hc := hW.content hj
  have hsize := hW.size
  rw [hlen] at hsize
  have hj' : 16 * j ≤ (content m e).length := by
    rw [length_content]
    exact hj
  refine ⟨e', m', by rw [hr, hlen], ⟨⟨hW.type.trans hI.type, hW.dense, hW.apart, ?_, ?_⟩, hc, hsize⟩,
    hW, hL.mono hG' (by omega)⟩
  · obtain ⟨n, hn⟩ := hI.whole
    rw [hsize, hn]
    exact ⟨max n (j + 1), by omega⟩
  · -- a second entry with the name of the new one would have been found
    intro key a b ha hb hna hnb
    rw [length_content, hsize] at ha hb
    obtain ⟨n, hn⟩ := hI.whole
    rw [hc, namedAt_replaceAt hj'] at hna hnb
    split at hna
    · rename_i haj
      split at hnb
      · rename_i hbj
        rw [haj, hbj]
      · rename_i hbj
        rw [← hna.2] at hnb
        exact absurd hnb (hfresh hna.1 b (by omega) hbj)
    · rename_i haj
      split at hnb
      · rw [← hnb.2] at hna
        exact absurd hna (hfresh hnb.1 a (by omega) haj)
      · refine hI.unique key a b ?_ ?_ hna hnb
        · rw [length_content]
          omega
        · rw [length_content]
          omega

/-- The map after an entry was stored. -/
theorem Stored.binding {de : DirEntry} (hS : Stored V m e j de m' e') (hI : IsDir V m e)
    (hj : 16 * j ≤ e.numBytes.toNat) (key : List UInt8) : binding (OsLab.content m' e') key =
      if de.inodeNo ≠ 0 ∧ strncpy fileNameMaxLength de.name = key then
        some (de.inodeNo.toNat, 16 * j)
      else match binding (OsLab.content m e) key with
        | some (inum, index) => if index = 16 * j then none else some (inum, index)
        | none => none := by
  have hlen := length_content m e
  have hlen' := length_content m' e'
  have hj' : 16 * j ≤ (OsLab.content m e).length := by
    rw [hlen]
    exact hj
  obtain ⟨n, hn⟩ := hI.whole
  have hsize := hS.size
  split
  · -- the name of the new entry
    rename_i hnew
    have hat : NamedAt (OsLab.content m' e') key j := by
      rw [hS.content, namedAt_replaceAt hj', if_pos rfl]
      exact hnew
    rw [binding_of_namedAt hS.isDir.unique (by rw [hlen', hsize]; omega) hat, hS.content,
      entryAt_replaceAt hj', if_pos rfl]
  · rename_i hnew
    rcases hb : OsLab.binding (OsLab.content m e) key with - | ⟨inum, index⟩
    · apply binding_of_not
      intro k hk
      rw [hS.content, namedAt_replaceAt hj']
      split
      · exact hnew
      · rename_i hkj
        apply binding_eq_none hb
        rw [hlen', hsize] at hk
        rw [hlen]
        omega
    · obtain ⟨k, hk, hname, -, rfl, rfl⟩ := binding_eq_some hb
      rw [hlen] at hk
      by_cases hkj : k = j
      · -- the entry that was there is gone
        simp only [hkj, if_pos]
        apply binding_of_not
        intro i hi
        rw [hS.content, namedAt_replaceAt hj']
        split
        · exact hnew
        · rename_i hij
          intro hni
          rw [hlen', hsize] at hi
          have := hI.unique key i k (by rw [hlen]; omega) (by rw [hlen]; omega) hni hname
          omega
      · have hkj' : ¬ 16 * k = 16 * j := by omega
        simp only [if_neg hkj']
        have hat : NamedAt (OsLab.content m' e') key k := by
          rw [hS.content, namedAt_replaceAt hj', if_neg hkj]
          exact hname
        rw [binding_of_namedAt hS.isDir.unique (by rw [hlen', hsize]; omega) hat, hS.content,
          entryAt_replaceAt hj', if_neg hkj]

/-- **`inode_insert` of a name that is absent**, in the first free entry or at the end. -/
theorem inodeInsert_absent (inodeNo : ℕ) (hL : c.Lawful Good) (hI : IsDir V m e) (hno : sb.toBlockNo no ∈ V)
    (hG : Good (N + 2) (V ∪ blocks m e) m)
    (hb : binding (content m e) (strncpy fileNameMaxLength name) = none)
    (hroom : e.numBytes.toNat + 16 ≤ inodeMaxBytes ∨
      ∃ i, 16 * i < e.numBytes.toNat ∧ (entryAt (content m e) i).inodeNo = 0) :
    ∃ j e' m', inodeInsert c sb m no e name inodeNo = some (16 * j, e', m') ∧
      16 * j ≤ e.numBytes.toNat ∧
      (16 * j < e.numBytes.toNat → (entryAt (content m e) j).inodeNo = 0) ∧
      (∀ i, i < j → (entryAt (content m e) i).inodeNo ≠ 0) ∧
      Stored V m e j (DirEntry.make name inodeNo) m' e' ∧
      FileWrite sb V no m e (16 * j) (DirEntry.make name inodeNo).bytes m' e' ∧
      Good N (V ∪ blocks m' e') m' := by
  have hmap : ∀ i, i < e.numBytes.toNat → blockAddr m e (i / blockSize) ≠ 0 :=
    fun i hi => hI.dense.blockAddr_ne_zero hi
  obtain ⟨n, hn⟩ := hI.whole
  obtain ⟨j, -, hj, hfree, hused, hl⟩ := freeLoop_spec (c := c) hI.whole hmap n 0
    (e.numBytes.toNat + 1) (by omega) (by omega)
  have hmax : 16 * j + 16 ≤ inodeMaxBytes := by
    rcases hroom with hroom | ⟨i, hi, hi0⟩
    · omega
    · -- a free entry stops the loop before the end
      have hle : j ≤ i := by
        by_contra hlt
        exact hused i (by omega) (by omega) hi0
      have := hI.dense.1
      omega
  have hfresh : (DirEntry.make name inodeNo).inodeNo ≠ 0 → ∀ i, 16 * i < e.numBytes.toNat →
      i ≠ j → ¬ NamedAt (content m e)
        (strncpy fileNameMaxLength (DirEntry.make name inodeNo).name) i := by
    intro _ i hi _
    rw [show strncpy fileNameMaxLength (DirEntry.make name inodeNo).name =
      strncpy fileNameMaxLength name from strncpy_strncpy _ _]
    apply binding_eq_none hb
    rw [length_content]
    omega
  obtain ⟨e', m', hw, hS, hW, hG'⟩ := store_entry hL hI hno hG hj hmax hfresh
  refine ⟨j, e', m', ?_, hj, hfree, fun i hi => hused i (Nat.zero_le _) hi, hS, hW, hG'⟩
  rw [Nat.mul_zero] at hl
  rw [inodeInsert, if_pos hI.type, inodeLookup_of_none hI hb]
  simp only [Option.bind_eq_bind, Option.bind_some, hl]
  rw [if_neg (by simp), hw]
  rfl

/-- **`inode_remove`** -/
theorem inodeRemove_spec (hL : c.Lawful Good) (hI : IsDir V m e) (hno : sb.toBlockNo no ∈ V)
    (hG : Good (N + 2) (V ∪ blocks m e) m) (hj : 16 * j < e.numBytes.toNat) :
    ∃ e' m', inodeRemove c sb m no e (16 * j) = some (e', m') ∧
      Stored V m e j DirEntry.zero m' e' ∧
      FileWrite sb V no m e (16 * j) DirEntry.zero.bytes m' e' ∧
      Good N (V ∪ blocks m' e') m' := by
  have hmax : 16 * j + 16 ≤ inodeMaxBytes := by
    have := hI.dense.1
    obtain ⟨n, hn⟩ := hI.whole
    omega
  obtain ⟨e', m', hw, hS, hW, hG'⟩ := store_entry hL hI hno hG hj.le hmax
    fun h : DirEntry.zero.inodeNo ≠ 0 => absurd rfl h
  refine ⟨e', m', ?_, hS, hW, hG'⟩
  rw [inodeRemove, if_pos hI.type, hw]
  rfl

end Spec

/-! ## Sequences of operations -/

/-- A call of one of the three operations. -/
inductive DirOp where
  | lookup (name : List UInt8)
  | insert (name : List UInt8) (inodeNo : ℕ)
  | remove (index : ℕ)

/-- What it returns. -/
inductive DirRes where
  | found (inum : ℕ) (index : Option ℕ)
  | inserted (r : ℕ)
  | removed
  deriving DecidableEq

/-- One operation on the directory `no`. -/
def dirStep (c : BlockAlloc) (sb : SuperBlock) (no : ℕ) (m : Disk) (e : InodeEntry) :
    DirOp → Option (DirRes × InodeEntry × Disk)
  | .lookup name => do
      let (inum, index, e, m) ← inodeLookup c m e name
      some (.found inum index, e, m)
  | .insert name inodeNo => do
      let (r, e, m) ← inodeInsert c sb m no e name inodeNo
      some (.inserted r, e, m)
  | .remove index => do
      let (e, m) ← inodeRemove c sb m no e index
      some (.removed, e, m)

/-- The indexes a result reports. -/
def DirRes.reported : DirRes → List ℕ
  | .found _ (some index) => [index]
  | .inserted r => if r = minusOne then [] else [r]
  | _ => []

/-- What callers promise, where `rep` are the indexes reported so far. -/
def Allowed (rep : List ℕ) (m : Disk) (e : InodeEntry) : DirOp → Prop
  | .lookup _ => True
  | .insert _ inodeNo => 1 ≤ inodeNo ∧ inodeNo ≤ 65535 ∧
      (e.numBytes.toNat + 16 ≤ inodeMaxBytes ∨
        ∃ i, 16 * i < e.numBytes.toNat ∧ (entryAt (content m e) i).inodeNo = 0)
  | .remove index => index ∈ rep

/-- The calls `tr`, with their results, lead from one state of the directory to another. -/
inductive DirRun (c : BlockAlloc) (sb : SuperBlock) (no : ℕ) :
    List ℕ → Disk → InodeEntry → List (DirOp × DirRes) → List ℕ → Disk → InodeEntry → Prop
  | nil (rep : List ℕ) (m : Disk) (e : InodeEntry) : DirRun c sb no rep m e [] rep m e
  | cons {rep rep' : List ℕ} {m m₁ m' : Disk} {e e₁ e' : InodeEntry} {op : DirOp} {res : DirRes}
      {tr : List (DirOp × DirRes)} (hop : Allowed rep m e op)
      (hstep : dirStep c sb no m e op = some (res, e₁, m₁))
      (hrest : DirRun c sb no (res.reported ++ rep) m₁ e₁ tr rep' m' e') :
      DirRun c sb no rep m e ((op, res) :: tr) rep' m' e'

/-- A finite map from padded names to inode numbers with their indexes. -/
abbrev DirMap := List UInt8 → Option (ℕ × ℕ)

namespace DirMap

/-- The padded name. -/
def key (name : List UInt8) : List UInt8 := strncpy fileNameMaxLength name

/-- The map after a call: an insertion that did not fail binds its name, and a removal unbinds the
name at its index. -/
def after (M : DirMap) : DirOp × DirRes → DirMap
  | (.insert name inodeNo, .inserted r) =>
      if r = minusOne then M else Function.update M (key name) (some (inodeNo, r))
  | (.remove index, _) => fun k => (M k).filter fun b => b.2 ≠ index
  | _ => M

/-- The results the map allows. -/
def Answers (M : DirMap) : DirOp → DirRes → Prop
  | .lookup name, .found inum index => (inum, index) =
      match M (key name) with
      | some (i, x) => (i, some x)
      | none => (0, none)
  | .insert name _, .inserted r =>
      if (M (key name)).isSome then r = minusOne
      else r ≠ minusOne ∧ ∀ k b, M k = some b → b.2 ≠ r
  | .remove _, .removed => True
  | _, _ => False

end DirMap

/-- Which entries a call may change. -/
def Slots (m : Disk) (e : InodeEntry) (m' : Disk) (e' : InodeEntry) : DirOp → DirRes → Prop
  | .insert name inodeNo, .inserted r =>
      if r = minusOne then e' = e ∧ m' = m
      else
        -- the first free entry, or a new one at the end where there is none
        (∀ i, 16 * i < r → (entryAt (content m e) i).inodeNo ≠ 0) ∧
        (r < e.numBytes.toNat ∧ 16 ∣ r ∧ (entryAt (content m e) (r / 16)).inodeNo = 0 ∧
            e'.numBytes = e.numBytes ∨
          r = e.numBytes.toNat ∧ e'.numBytes.toNat = e.numBytes.toNat + 16) ∧
        content m' e' = replaceAt (content m e) r (DirEntry.make name inodeNo).bytes
  | .remove index, _ => content m' e' = replaceAt (content m e) index DirEntry.zero.bytes
  | _, _ => e' = e ∧ m' = m

section Runs

variable {c : BlockAlloc} {Good : ℕ → Set ℕ → Disk → Prop} {sb : SuperBlock} {V : Set ℕ}
  {m m' : Disk} {e e' : InodeEntry} {no N : ℕ} {rep rep' : List ℕ} {op : DirOp} {res : DirRes}
  {tr : List (DirOp × DirRes)}

/-- The reported indexes are those of whole entries. -/
def Reported (rep : List ℕ) (e : InodeEntry) : Prop :=
  ∀ i ∈ rep, 16 ∣ i ∧ i < e.numBytes.toNat

private theorem reported_append {l : List ℕ} (hl : ∀ i ∈ l, 16 ∣ i ∧ i < e'.numBytes.toNat)
    (hrep : Reported rep e) (hle : e.numBytes.toNat ≤ e'.numBytes.toNat) :
    Reported (l ++ rep) e' := by
  intro i hi
  rcases List.mem_append.mp hi with hi | hi
  · exact hl i hi
  · exact ⟨(hrep i hi).1, Nat.lt_of_lt_of_le (hrep i hi).2 hle⟩

/-- A bound index is that of an entry in use. -/
private theorem index_of_binding {key : List UInt8} {b : ℕ × ℕ}
    (hb : binding (content m e) key = some b) :
    ∃ j, b.2 = 16 * j ∧ 16 * j < e.numBytes.toNat ∧ (entryAt (content m e) j).inodeNo ≠ 0 := by
  obtain ⟨no, index⟩ := b
  obtain ⟨j, hj, hname, -, -, rfl⟩ := binding_eq_some hb
  rw [length_content] at hj
  exact ⟨j, rfl, by omega, hname.1⟩

private theorem lookup_call (hI : IsDir V m e) (hG : Good (N + 2) (V ∪ blocks m e) m)
    (hL : c.Lawful Good) (hrep : Reported rep e) (name : List UInt8) :
    ∃ res e' m', dirStep c sb no m e (.lookup name) = some (res, e', m') ∧ IsDir V m' e' ∧
      Good N (V ∪ blocks m' e') m' ∧ Reported (res.reported ++ rep) e' ∧
      DirMap.Answers (binding (content m e)) (.lookup name) res ∧
      binding (content m' e') = DirMap.after (binding (content m e)) (.lookup name, res) ∧
      Slots m e m' e' (.lookup name) res := by
  have hG' : Good N (V ∪ blocks m e) m := hL.mono hG (by omega)
  have hl : inodeLookup c m e name = _ := inodeLookup_spec hI
  rcases hb : binding (content m e) (strncpy fileNameMaxLength name) with - | ⟨inum, index⟩
  · rw [hb] at hl
    refine ⟨.found 0 none, e, m, ?_, hI, hG', hrep, ?_, rfl, rfl, rfl⟩
    · simp only [dirStep, hl, Option.bind_eq_bind, Option.bind_some]
    · rw [DirMap.Answers, DirMap.key, hb]
  · rw [hb] at hl
    obtain ⟨j, hj, hlt, -⟩ := index_of_binding hb
    refine ⟨.found inum (some index), e, m, ?_, hI, hG', ?_, ?_, rfl, rfl, rfl⟩
    · simp only [dirStep, hl, Option.bind_eq_bind, Option.bind_some]
    · apply reported_append _ hrep (le_refl _)
      intro i hi
      rw [DirRes.reported, List.mem_singleton] at hi
      simp only at hj
      exact ⟨⟨j, by omega⟩, by omega⟩
    · rw [DirMap.Answers, DirMap.key, hb]

private theorem insert_call (hL : c.Lawful Good) (hno : sb.toBlockNo no ∈ V) (hI : IsDir V m e)
    (hG : Good (N + 2) (V ∪ blocks m e) m) (hrep : Reported rep e) (name : List UInt8)
    (inodeNo : ℕ) (hop : Allowed rep m e (.insert name inodeNo)) :
    ∃ res e' m', dirStep c sb no m e (.insert name inodeNo) = some (res, e', m') ∧ IsDir V m' e' ∧
      Good N (V ∪ blocks m' e') m' ∧ Reported (res.reported ++ rep) e' ∧
      DirMap.Answers (binding (content m e)) (.insert name inodeNo) res ∧
      binding (content m' e') = DirMap.after (binding (content m e)) (.insert name inodeNo, res) ∧
      Slots m e m' e' (.insert name inodeNo) res := by
  obtain ⟨h1, h2, hroom⟩ := hop
  rcases hb : binding (content m e) (strncpy fileNameMaxLength name) with - | ⟨inum, index⟩
  · obtain ⟨j, e', m', hr, hj, hfree, hused, hS, hW, hG'⟩ :=
      inodeInsert_absent inodeNo hL hI hno hG hb hroom
    have hne : 16 * j ≠ minusOne := by
      have := e.numBytes.toNat_lt
      simp only [minusOne]
      omega
    have hno' : (UInt16.ofNat inodeNo).toNat = inodeNo :=
      UInt16.toNat_ofNat_of_lt' (Nat.lt_of_le_of_lt h2 (by decide))
    have hno0 : (DirEntry.make name inodeNo).inodeNo ≠ 0 := by
      intro h
      have := congrArg UInt16.toNat h
      rw [DirEntry.make, hno'] at this
      simp at this
      omega
    -- no name is bound to the entry that is used
    have hnobody : ∀ k b, binding (content m e) k = some b → b.2 ≠ 16 * j := by
      intro k b hkb hbj
      obtain ⟨i, hi, hlt, hi0⟩ := index_of_binding hkb
      obtain rfl : i = j := by omega
      exact hi0 (hfree hlt)
    have hsize := hS.size
    obtain ⟨n, hn⟩ := hI.whole
    refine ⟨.inserted (16 * j), e', m', ?_, hS.isDir, hG', ?_, ?_, ?_, ?_⟩
    · simp only [dirStep, hr, Option.bind_eq_bind, Option.bind_some]
    · apply reported_append _ hrep (by omega)
      intro i hi
      rw [DirRes.reported, if_neg hne, List.mem_singleton] at hi
      exact ⟨⟨j, by omega⟩, by omega⟩
    · rw [DirMap.Answers, DirMap.key, hb, if_neg (by decide)]
      exact ⟨hne, hnobody⟩
    · ext1 k
      rw [hS.binding hI hj, DirMap.after, if_neg hne, DirMap.key]
      by_cases hk : strncpy fileNameMaxLength name = k
      · have hpad : strncpy fileNameMaxLength (DirEntry.make name inodeNo).name = k := by
          rw [← hk]
          exact strncpy_strncpy _ _
        rw [if_pos ⟨hno0, hpad⟩, hk, Function.update_self]
        simp only [DirEntry.make, hno']
      · have hpad : ¬ strncpy fileNameMaxLength (DirEntry.make name inodeNo).name = k := by
          rw [show strncpy fileNameMaxLength (DirEntry.make name inodeNo).name =
            strncpy fileNameMaxLength name from strncpy_strncpy _ _]
          exact hk
        rw [if_neg fun h => hpad h.2, Function.update_of_ne (Ne.symm hk)]
        rcases hkb : binding (content m e) k with - | ⟨inum, index⟩
        · rfl
        · simp only [if_neg (hnobody k _ hkb)]
    · rw [Slots, if_neg hne]
      refine ⟨fun i hi => hused i (by omega), ?_, hS.content⟩
      rcases Nat.lt_or_ge (16 * j) e.numBytes.toNat with hlt | hge
      · refine Or.inl ⟨hlt, ⟨j, rfl⟩, ?_, UInt32.toNat_inj.mp (by omega)⟩
        rw [Nat.mul_div_cancel_left _ (by decide)]
        exact hfree hlt
      · exact Or.inr ⟨by omega, by omega⟩
  · have hr : inodeInsert c sb m no e name inodeNo = _ := inodeInsert_present hI hb
    refine ⟨.inserted minusOne, e, m, ?_, hI, hL.mono hG (by omega), hrep, ?_, ?_, ?_⟩
    · simp only [dirStep, hr, Option.bind_eq_bind, Option.bind_some]
    · rw [DirMap.Answers, DirMap.key, hb, if_pos Option.isSome_some]
    · rw [DirMap.after, if_pos rfl]
    · rw [Slots, if_pos rfl]
      exact ⟨rfl, rfl⟩

private theorem remove_call (hL : c.Lawful Good) (hno : sb.toBlockNo no ∈ V) (hI : IsDir V m e)
    (hG : Good (N + 2) (V ∪ blocks m e) m) (hrep : Reported rep e) (index : ℕ)
    (hop : Allowed rep m e (.remove index)) :
    ∃ res e' m', dirStep c sb no m e (.remove index) = some (res, e', m') ∧ IsDir V m' e' ∧
      Good N (V ∪ blocks m' e') m' ∧ Reported (res.reported ++ rep) e' ∧
      DirMap.Answers (binding (content m e)) (.remove index) res ∧
      binding (content m' e') = DirMap.after (binding (content m e)) (.remove index, res) ∧
      Slots m e m' e' (.remove index) res := by
  obtain ⟨⟨j, rfl⟩, hlt⟩ := hrep index hop
  obtain ⟨e', m', hr, hS, -, hG'⟩ := inodeRemove_spec hL hI hno hG hlt
  have hsize := hS.size
  refine ⟨.removed, e', m', ?_, hS.isDir, hG', ?_, trivial, ?_, hS.content⟩
  · simp only [dirStep, hr, Option.bind_eq_bind, Option.bind_some]
  · apply reported_append _ hrep (by omega)
    intro i hi
    exact absurd hi (by simp [DirRes.reported])
  · ext1 k
    rw [hS.binding hI hlt.le, if_neg fun h => h.1 rfl, DirMap.after]
    simp only
    rcases binding (content m e) k with - | ⟨inum, index⟩
    · rfl
    · by_cases hi : index = 16 * j
      · simp [hi, Option.filter]
      · simp [hi, Option.filter]

/-- **One call**: it returns, as the map allows, and the directory stays one. -/
theorem dirStep_spec (hL : c.Lawful Good) (hno : sb.toBlockNo no ∈ V) (hI : IsDir V m e)
    (hG : Good (N + 2) (V ∪ blocks m e) m) (hrep : Reported rep e) (hop : Allowed rep m e op) :
    ∃ res e' m', dirStep c sb no m e op = some (res, e', m') ∧ IsDir V m' e' ∧
      Good N (V ∪ blocks m' e') m' ∧ Reported (res.reported ++ rep) e' ∧
      DirMap.Answers (binding (content m e)) op res ∧
      binding (content m' e') = DirMap.after (binding (content m e)) (op, res) ∧
      Slots m e m' e' op res := by
  cases op with
  | lookup name => exact lookup_call hI hG hL hrep name
  | insert name inodeNo => exact insert_call hL hno hI hG hrep name inodeNo hop
  | remove index => exact remove_call hL hno hI hG hrep index hop

/-- The directory after a run, where every call leaves two blocks fewer. -/
theorem DirRun.spec (hL : c.Lawful Good) (hno : sb.toBlockNo no ∈ V)
    (hrun : DirRun c sb no rep m e tr rep' m' e') (hI : IsDir V m e) (hrep : Reported rep e)
    (hG : Good (N + 2 * tr.length) (V ∪ blocks m e) m) :
    IsDir V m' e' ∧ Reported rep' e' ∧ Good N (V ∪ blocks m' e') m' ∧
      binding (content m' e') = tr.foldl DirMap.after (binding (content m e)) ∧
      ∀ pre op res post, tr = pre ++ (op, res) :: post →
        DirMap.Answers (pre.foldl DirMap.after (binding (content m e))) op res := by
  induction hrun with
  | nil rep m e =>
      refine ⟨hI, hrep, hL.mono hG (by omega), rfl, ?_⟩
      intro pre op res post h
      exact absurd h.symm (by simp)
  | cons hop hstep hrest ih =>
      rename_i rep rep' m m₁ m' e e₁ e' op res tr
      have hG₂ : Good (N + 2 * tr.length + 2) (V ∪ blocks m e) m := by
        apply hL.mono hG
        rw [List.length_cons]
        omega
      obtain ⟨res₁, e₂, m₂, hstep₁, hI₁, hG₁, hrep₁, hans, hafter, -⟩ :=
        dirStep_spec hL hno hI hG₂ hrep hop
      rw [hstep] at hstep₁
      cases hstep₁
      obtain ⟨hI', hrep', hG', hfold, hall⟩ := ih hI₁ hrep₁ hG₁
      refine ⟨hI', hrep', hG', ?_, ?_⟩
      · rw [hfold, hafter]
        rfl
      · intro pre op' res' post htr
        cases pre with
        | nil =>
            cases htr
            exact hans
        | cons p pre =>
            rw [List.cons_append, List.cons.injEq] at htr
            obtain ⟨rfl, htr⟩ := htr
            rw [List.foldl_cons, ← hafter]
            exact hall pre op' res' post htr

/-- **Directories are finite maps.**  After any run of calls the map is what the history of the
calls says, every result is the one the map gives, names are unique, and the next call returns. -/
theorem directories_are_maps (hL : c.Lawful Good) (hno : sb.toBlockNo no ∈ V) (hI : IsDir V m e)
    (hrun : DirRun c sb no [] m e tr rep' m' e')
    (hG : Good (2 * tr.length + 2) (V ∪ blocks m e) m) :
    binding (content m' e') = tr.foldl DirMap.after (binding (content m e)) ∧
      UniqueNames (content m' e') ∧ Dense m' e' ∧
      (∀ pre op res post, tr = pre ++ (op, res) :: post →
        DirMap.Answers (pre.foldl DirMap.after (binding (content m e))) op res) ∧
      ∀ op, Allowed rep' m' e' op → ∃ res e₂ m₂, dirStep c sb no m' e' op = some (res, e₂, m₂) ∧
        DirMap.Answers (binding (content m' e')) op res ∧
        binding (content m₂ e₂) = DirMap.after (binding (content m' e')) (op, res) ∧
        Slots m' e' m₂ e₂ op res := by
  have hnil : Reported [] e := fun i hi => absurd hi List.not_mem_nil
  rw [Nat.add_comm] at hG
  obtain ⟨hI', hrep', hG', hfold, hall⟩ := hrun.spec hL hno hI hnil hG
  refine ⟨hfold, hI'.unique, hI'.dense, hall, ?_⟩
  intro op hop
  obtain ⟨res, e₂, m₂, hstep, -, -, -, hans, hafter, hslots⟩ :=
    dirStep_spec (N := 0) hL hno hI' hG' hrep' hop
  exact ⟨res, e₂, m₂, hstep, hans, hafter, hslots⟩

/-- A call that a caller may make, with room for one more entry -/
def dirTest (rep : List ℕ) (e : InodeEntry) : DirOp → Bool
  | .lookup _ => true
  | .insert _ inodeNo => 1 ≤ inodeNo ∧ inodeNo ≤ 65535 ∧ e.numBytes.toNat + 16 ≤ inodeMaxBytes
  | .remove index => index ∈ rep

/-- Make the calls in order, each of which passes the test. -/
def dirPlay (c : BlockAlloc) (sb : SuperBlock) (no : ℕ) :
    List ℕ → Disk → InodeEntry → List DirOp → Option (List DirRes × List ℕ × InodeEntry × Disk)
  | rep, m, e, [] => some ([], rep, e, m)
  | rep, m, e, op :: ops =>
      if dirTest rep e op then do
        let (res, e, m) ← dirStep c sb no m e op
        let (results, r) ← dirPlay c sb no (res.reported ++ rep) m e ops
        some (res :: results, r)
      else none

theorem Allowed.of_test (h : dirTest rep e op = true) : Allowed rep m e op := by
  cases op with
  | lookup name => trivial
  | insert name inodeNo =>
      obtain ⟨h1, h2, h3⟩ := of_decide_eq_true h
      exact ⟨h1, h2, Or.inl h3⟩
  | remove index =>
      have hmem : index ∈ rep := of_decide_eq_true h
      exact hmem

theorem DirRun.of_play {ops : List DirOp} {results : List DirRes}
    (h : dirPlay c sb no rep m e ops = some (results, rep', e', m')) :
    DirRun c sb no rep m e (ops.zip results) rep' m' e' := by
  induction ops generalizing rep m e results with
  | nil =>
      cases h
      exact .nil _ _ _
  | cons op ops ih =>
      rw [dirPlay] at h
      split at h
      · rename_i htest
        simp only [Option.bind_eq_bind, Option.bind_eq_some_iff] at h
        obtain ⟨⟨res, e₁, m₁⟩, hstep, ⟨results', r⟩, hrest, heq⟩ := h
        cases heq
        exact .cons (.of_test htest) hstep (ih hrest)
      · cases h

/-- Two names, one of them of fourteen characters; the first is removed, and a third one takes its
entry. -/
def reuseOps : List DirOp :=
  [.insert [97] 5, .insert ((List.range 14).map fun i => UInt8.ofNat (97 + i)) 6, .remove 0,
    .insert [98] 7, .lookup [97]]

theorem directories_are_maps_reuse :
    ∃ rep m e, DirRun (bcacheAlloc Mkfs.sb) Mkfs.sb 1 [] Sample.disk (Sample.entry 1)
        (reuseOps.zip [.inserted 0, .inserted 16, .removed, .inserted 0, .found 0 none]) rep m e ∧
      binding (content m e) (DirMap.key [98]) = some (7, 0) ∧
      binding (content m e) (DirMap.key [97]) = none ∧
      binding (content m e) ((List.range 14).map fun i => UInt8.ofNat (97 + i)) = some (6, 16) := by
  have hL := cacheAlloc_lawful Sample.reserved_reserved
  have hempty : content Sample.disk (Sample.entry 1) = [] := rfl
  have hI : IsDir {65} Sample.disk (Sample.entry 1) := by
    refine ⟨rfl, Sample.dense_entry _ _, Sample.apart_entry _ _ _, by decide, ?_⟩
    rw [hempty]
    intro key i j hi
    exact absurd hi (by simp)
  have hG : Mkfs.sb.Exact Sample.reserved 12 ({65} ∪ blocks Sample.disk (Sample.entry 1))
      Sample.disk := by
    rw [Sample.blocks_entry, Set.union_empty]
    exact Sample.exact_disk (by decide)
  have hplay : (dirPlay (bcacheAlloc Mkfs.sb) Mkfs.sb 1 [] Sample.disk (Sample.entry 1)
      reuseOps).map Prod.fst = some [.inserted 0, .inserted 16, .removed, .inserted 0,
        .found 0 none] := by
    decide +kernel
  obtain ⟨⟨results, rep, e, m⟩, hplay, hresults⟩ := Option.map_eq_some_iff.mp hplay
  cases hresults
  have hrun := DirRun.of_play hplay
  obtain ⟨hmap, -⟩ := directories_are_maps hL (show Mkfs.sb.toBlockNo 1 ∈ {65} from rfl) hI hrun hG
  rw [hempty] at hmap
  refine ⟨rep, m, e, hrun, ?_, ?_, ?_⟩ <;> rw [hmap] <;> decide

end Runs

end OsLab
