import OsLab.Kernel.PageAlloc

/-!
# Page tables

`get_pte` and `vmmap` of `kernel/pt.c`, over the pages of `PageMem`.  A page table page holds 512 entries of
eight bytes; an entry of one of the three upper levels holds the physical address of
the next table and its flags.

The three levels of `get_pte` run the same code, `nextTable`, on the three indices of
the address.  The result of a call is `none` where `kalloc_page` returns a null
pointer, which `get_pte` dereferences.

## Main definitions

* `PageMem.nextTable`, `PageMem.getPte`, `PageMem.vmmap` — the functions.
-/

namespace OsLab

namespace PageMem

/-- Entry `i` of the table at `t`. -/
def pte (s : PageMem) (t i : ℕ) : ℕ := (s.mem t).word (8 * i) 8

/-- `t[i] = v` -/
def setPte (s : PageMem) (t i v : ℕ) : PageMem :=
  { s with mem := Function.update s.mem t ((s.mem t).setWord (8 * i) 8 v) }

/-- `memset(p, 0, PAGE_SIZE)` -/
def memset (s : PageMem) (p : ℕ) : PageMem :=
  { s with mem := Function.update s.mem p .zero }

/-- A new table: `kalloc_page` and `memset`. -/
def newTable (s : PageMem) : Option (ℕ × PageMem) :=
  match s.kallocPage with
  | (none, _) => none
  | (some p, s) => some (p, s.memset p)

/-- One level of `get_pte`: the table that entry `i` of table `t` leads to. -/
def nextTable (s : PageMem) (t i : ℕ) (alloc : Bool) : Option (Option ℕ × PageMem) :=
  if s.pte t i = 0 ∨ s.pte t i &&& pteValid = 0 then
    if alloc then do
      let (p, s) ← s.newTable
      some (some p, s.setPte t i (k2p p ||| pteTable))
    else some (none, s)
  else some (some (p2k (pteAddress (s.pte t i))), s)

/-- The levels of `get_pte` for a list of indices, from table `t` on. -/
def descend (alloc : Bool) : List ℕ → PageMem → ℕ → Option (Option ℕ × PageMem)
  | [], s, t => some (some t, s)
  | i :: is, s, t => do
      let (t', s) ← s.nextTable t i alloc
      match t' with
      | none => some (none, s)
      | some t' => descend alloc is s t'

/-- The first lines of `get_pte`: the root table. -/
def rootTable (s : PageMem) (pt : ℕ) (alloc : Bool) : Option (Option ℕ × PageMem) :=
  if pt = 0 then
    if alloc then do
      let (p, s) ← s.newTable
      some (some p, s)
    else some (none, s)
  else some (some pt, s)

/-- `get_pte` up to its last line, on the directory with root table `pt`: the table of the last
level, if there is one, and the root table afterwards. -/
def walk (s : PageMem) (pt : ℕ) (is : List ℕ) (alloc : Bool) :
    Option (Option ℕ × ℕ × PageMem) := do
  let (pt0, s) ← s.rootTable pt alloc
  match pt0 with
  | none => some (none, pt, s)
  | some pt0 => do
      let (pt3, s) ← descend alloc is s pt0
      some (pt3, pt0, s)

/-- `get_pte` on the directory with root table `pt`: the slot, if there is one, and the root table
afterwards. -/
def getPte (s : PageMem) (pt va : ℕ) (alloc : Bool) : Option (Option (ℕ × ℕ) × ℕ × PageMem) := do
  let (pt3, pt, s) ← s.walk pt [vaPart0 va, vaPart1 va, vaPart2 va] alloc
  some (pt3.map fun t => (t, vaPart3 va), pt, s)

/-- `vmmap(pd, va, ka, flags)` -/
def vmmap (s : PageMem) (pt va ka flags : ℕ) : Option (ℕ × PageMem) := do
  let (slot, pt, s) ← s.getPte pt va true
  let (t, i) ← slot
  some (pt, s.setPte t i ((k2p ka ||| flags ||| pteValid) % 2 ^ 64))

end PageMem

/-! ## Reading and writing entries -/

namespace PageMem

variable {s : PageMem} {t i q j v p : ℕ}

@[simp] theorem setPte_pages : (s.setPte t i v).pages = s.pages := rfl

@[simp] theorem memset_pages : (s.memset p).pages = s.pages := rfl

theorem setPte_mem_self : (s.setPte t i v).mem t = (s.mem t).setWord (8 * i) 8 v := by
  simp [setPte]

theorem setPte_mem_of_ne (h : q ≠ t) : (s.setPte t i v).mem q = s.mem q := by
  simp [setPte, h]

theorem memset_mem_of_ne (h : q ≠ p) : (s.memset p).mem q = s.mem q := by
  simp [memset, h]

theorem pte_congr {s' : PageMem} (h : s'.mem q = s.mem q) : s'.pte q j = s.pte q j := by
  simp [pte, h]

theorem pte_setPte_self (hi : i < 512) (hv : v < 2 ^ 64) : (s.setPte t i v).pte t i = v := by
  rw [pte, setPte_mem_self, Bytes.word_setWord_self _ _ (by omega)]
  exact Nat.mod_eq_of_lt hv

theorem pte_setPte_of_ne (h : q ≠ t ∨ j ≠ i) : (s.setPte t i v).pte q j = s.pte q j := by
  by_cases hq : q = t
  · subst hq
    have hj : j ≠ i := by simpa using h
    rw [pte, setPte_mem_self, Bytes.word_setWord_of_disjoint _ (by omega)]
    rfl
  · exact pte_congr (setPte_mem_of_ne hq)

@[simp] theorem pte_memset_self : (s.memset p).pte p j = 0 := by
  simp [pte, memset]

theorem rootTable_of_ne {pt : ℕ} (h : pt ≠ 0) (alloc : Bool) :
    s.rootTable pt alloc = some (some pt, s) := if_neg h

theorem walk_of_root {pt : ℕ} {s' : PageMem} (is : List ℕ) {alloc : Bool}
    (h : s.rootTable pt alloc = some (some p, s')) :
    s.walk pt is alloc = (descend alloc is s' p).bind fun r => some (r.1, p, r.2) := by
  rw [walk, h]
  rfl

theorem walk_of_ne {pt : ℕ} (h : pt ≠ 0) (is : List ℕ) (alloc : Bool) :
    s.walk pt is alloc = (descend alloc is s pt).bind fun r => some (r.1, pt, r.2) :=
  walk_of_root is (rootTable_of_ne h alloc)

theorem walk_zero (is : List ℕ) : s.walk 0 is false = some (none, 0, s) := rfl

theorem descend_cons {is : List ℕ} {alloc : Bool} {t' : ℕ} {s' : PageMem}
    (h : s.nextTable t i alloc = some (some t', s')) :
    descend alloc (i :: is) s t = descend alloc is s' t' := by
  rw [descend, h]
  rfl

theorem descend_stop {is : List ℕ} {alloc : Bool} {s' : PageMem}
    (h : s.nextTable t i alloc = some (none, s')) :
    descend alloc (i :: is) s t = some (none, s') := by
  rw [descend, h]
  rfl

/-- A new table is the page at the head of the queue, filled with zeros. -/
theorem newTable_eq {r : ℕ × PageMem} (h : s.newTable = some r) :
    ∃ ps, s.pages = r.1 :: ps ∧
      r.2 = memset { s with pages := ps, allocPageCnt := s.allocPageCnt + 1 } r.1 := by
  cases hp : s.pages with
  | nil => simp [newTable, kallocPage, fetchFromQueue, hp] at h
  | cons p ps =>
      simp only [newTable, kallocPage, fetchFromQueue, hp, Option.some.injEq] at h
      exact ⟨ps, by rw [← h], by rw [← h]⟩

/-- A level of `get_pte` takes at most one page. -/
theorem nextTable_progress (t i : ℕ) (h : s.pages ≠ []) :
    ∃ t' s', s.nextTable t i true = some (some t', s') ∧
      s.pages.length ≤ s'.pages.length + 1 := by
  rw [nextTable, if_pos rfl]
  split_ifs
  · cases hp : s.pages with
    | nil => exact absurd hp h
    | cons p ps => simp [newTable, kallocPage, fetchFromQueue, hp, setPte, memset]
  · exact ⟨_, s, rfl, by omega⟩

theorem descend_progress (is : List ℕ) (t : ℕ) (h : is.length ≤ s.pages.length) :
    ∃ t' s', descend true is s t = some (some t', s') ∧
      s.pages.length ≤ s'.pages.length + is.length := by
  induction is generalizing s t with
  | nil => exact ⟨t, s, rfl, by simp⟩
  | cons i is ih =>
      rw [List.length_cons] at h
      have hne : s.pages ≠ [] := by
        intro hnil
        simp [hnil] at h
      obtain ⟨t₁, s₁, h₁, hlen₁⟩ := nextTable_progress t i hne
      obtain ⟨t₂, s₂, h₂, hlen₂⟩ := ih t₁ (s := s₁) (by omega)
      refine ⟨t₂, s₂, ?_, ?_⟩
      · rw [descend_cons h₁, h₂]
      · rw [List.length_cons]
        omega

theorem rootTable_progress (pt : ℕ) (h : 0 < s.pages.length) :
    ∃ t s', s.rootTable pt true = some (some t, s') ∧ s.pages.length ≤ s'.pages.length + 1 := by
  by_cases hpt : pt = 0
  · cases hp : s.pages with
    | nil => simp [hp] at h
    | cons p ps => simp [rootTable, hpt, newTable, kallocPage, fetchFromQueue, hp]
  · exact ⟨pt, s, rootTable_of_ne hpt true, by omega⟩

/-- Four pages are enough for `get_pte` with `alloc`, and it takes no more. -/
theorem getPte_room (pt va : ℕ) (h : 4 ≤ s.pages.length) :
    ∃ slot pt' s', s.getPte pt va true = some (some slot, pt', s') ∧
      s.pages.length ≤ s'.pages.length + 4 := by
  obtain ⟨t₀, s₀, hroot, hlen₀⟩ := rootTable_progress (s := s) pt (by omega)
  obtain ⟨t, s', hd, hlen⟩ := descend_progress (s := s₀) [vaPart0 va, vaPart1 va, vaPart2 va] t₀
    (by simp; omega)
  refine ⟨(t, vaPart3 va), t₀, s', ?_, ?_⟩
  · rw [getPte, walk_of_root _ hroot, hd]
    rfl
  · simp only [List.length_cons, List.length_nil] at hlen
    omega

theorem getPte_progress (pt va : ℕ) (h : 4 ≤ s.pages.length) :
    ∃ slot pt' s', s.getPte pt va true = some (some slot, pt', s') := by
  obtain ⟨slot, pt', s', hg, -⟩ := s.getPte_room pt va h
  exact ⟨slot, pt', s', hg⟩

theorem vmmap_progress (pt va ka flags : ℕ) (h : 4 ≤ s.pages.length) :
    ∃ r, s.vmmap pt va ka flags = some r := by
  obtain ⟨slot, pt', s', hg⟩ := s.getPte_progress pt va h
  rw [vmmap, hg]
  exact ⟨_, rfl⟩

end PageMem

end OsLab
