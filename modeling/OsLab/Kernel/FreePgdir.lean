import OsLab.Kernel.Paging

/-!
# Giving a page directory back

`free_sections` of `kernel/paging.c` and `free_pt_r` and `free_pgdir` of `kernel/pt.c`, as `exit`
runs them.  The pages passed to `kfree_page` are kept in a list.

`free_sections` frees a page for every entry that is valid or zero: for a zero entry the page at
physical address 0.

## Main definitions

* `FreeState` — the machine, and the pages passed to `kfree_page`.
* `FreeState.freeSections`, `FreeState.freePtR`, `FreeState.freePgdir` — the functions.
* `below` — the tables of a directory in the order they are freed.
* `FreeState.freePgdir_spec` — what is freed.
-/

namespace OsLab

/-- `kfree_page(p)`, whether or not the page has been handed out. -/
def PageSys.giveBack (s : PageSys) (p : ℕ) : PageSys :=
  { s with
    m := s.m.kfreePage p
    held := s.held.erase p
    backs := s.backs + (if s.m.zeroPage = some p then
      (s.m.kfreePage p).pages.length - s.m.pages.length else 0) }

theorem PageSys.step_kfreePage {s : PageSys} {p : ℕ} (h : p ∈ s.held) :
    s.step (.kfreePage p) = some (s.giveBack p) := if_pos h

/-- The machine, and what `kfree_page` has been called with.  The last two fields are a record that
nothing reads. -/
structure FreeState where
  vm : Machine
  freed : List ℕ
  /-- every page freed had been handed out -/
  proper : Bool

namespace FreeState

def mem (st : FreeState) : PageMem := st.vm.pt.sys.m

/-- `kfree_page(p)` -/
def kfreePage (st : FreeState) (p : ℕ) : FreeState :=
  { st with
    vm := { st.vm with pt := { st.vm.pt with sys := st.vm.pt.sys.giveBack p } }
    freed := st.freed ++ [p]
    proper := st.proper && decide (p ∈ st.vm.pt.sys.held) }

/-- One round of the loop of `free_sections` -/
def freeEntry (pd : ℕ) (st : FreeState) (addr : ℕ) : FreeState :=
  match st.vm.pt.lookup pd addr with
  | some (some slot, _) =>
      let pte := st.vm.entry slot
      if pte &&& pteValid = 0 ∧ pte ≠ 0 then
        { st with vm := { st.vm with swapValid := release8Blocks st.vm.swapValid (pte >>> 12) } }
      else st.kfreePage (p2k (pteAddress pte))
  | _ => st

/-- The first section of the directory: its pages, and then `_detach_from_list`. -/
def freeSection (pd : ℕ) (st : FreeState) (sec : Section) : FreeState :=
  let st := (List.range ((sec.stop - sec.start + (pageSize - 1)) / pageSize)).foldl
    (fun st k => freeEntry pd st (sec.start + k * pageSize)) st
  { st with vm := { st.vm with
      sections := Function.update st.vm.sections pd (st.vm.sections pd).tail } }

/-- `free_sections(pd)` -/
def freeSections (pd : ℕ) (st : FreeState) : FreeState :=
  (st.vm.sections pd).foldl (freeSection pd) st

/-- `free_pt_r(pt, num)`, where `k` is `3 - num` -/
def freePtR : ℕ → ℕ → FreeState → FreeState
  | 0, pt, st => if pt ≠ 0 then st.kfreePage (p2k (pteAddress pt)) else st
  | k + 1, pt, st =>
      if pt ≠ 0 then
        let ptin := if k + 1 = 3 then pt else p2k (pteAddress pt)
        let st := (List.range 512).foldl (fun st i => freePtR k (st.mem.pte ptin i) st) st
        st.kfreePage (p2k (pteAddress pt))
      else st

/-- `free_pgdir(pgdir)` -/
def freePgdir (pd : ℕ) (st : FreeState) : FreeState :=
  let st := freeSections pd st
  if st.vm.pt.root pd = 0 then st else freePtR 3 (st.vm.pt.root pd) st

def freeAll (l : List ℕ) (st : FreeState) : FreeState := l.foldl kfreePage st

end FreeState

/-! ## Freeing pages -/

theorem PageMem.kfreePage_mem {m : PageMem} {p q : ℕ} (h : q ≠ p) :
    (m.kfreePage p).mem q = m.mem q := by
  rcases m.kfreePage_cases p with ⟨-, -, heq⟩ | ⟨-, -, heq⟩ | ⟨-, heq⟩
  · rw [heq]
  all_goals
    rw [heq]
    simp [PageMem.addToQueue, h]

theorem PageMem.kfreePage_pages {m : PageMem} {p q : ℕ} (h : q ∈ (m.kfreePage p).pages) :
    q = p ∨ q ∈ m.pages := by
  rcases m.kfreePage_cases p with ⟨-, -, heq⟩ | ⟨-, -, heq⟩ | ⟨-, heq⟩
  · rw [heq] at h
    exact Or.inr h
  all_goals
    rw [heq] at h
    exact List.mem_cons.mp h

namespace FreeState

variable {st : FreeState} {p q : ℕ} {l : List ℕ}

@[simp] theorem kfreePage_freed : (st.kfreePage p).freed = st.freed ++ [p] := rfl

theorem kfreePage_mem (h : q ≠ p) : (st.kfreePage p).mem.mem q = st.mem.mem q :=
  PageMem.kfreePage_mem h

@[simp] theorem freeAll_nil : st.freeAll [] = st := rfl

theorem freeAll_append (l' : List ℕ) : st.freeAll (l ++ l') = (st.freeAll l).freeAll l' :=
  List.foldl_append ..

@[simp] theorem freeAll_singleton : st.freeAll [p] = st.kfreePage p := rfl

theorem freeAll_mem (h : q ∉ l) : (st.freeAll l).mem.mem q = st.mem.mem q := by
  induction l generalizing st with
  | nil => rfl
  | cons p l ih =>
      rw [List.mem_cons, not_or] at h
      exact (ih h.2).trans (kfreePage_mem h.1)

end FreeState

/-! ## The tables of a directory -/

/-- The tables of directory `pd` at and below the one of level `3 - k` with the address bits `x`,
in the order `free_pt_r` frees them. -/
def below (T : TableMap) (pd : ℕ) : ℕ → ℕ → List ℕ
  | 0, x => (T pd 3 x).toList
  | k + 1, x =>
      match T pd (3 - (k + 1)) x with
      | none => []
      | some t => (List.range 512).flatMap (fun i => below T pd k (x * 512 + i)) ++ [t]

section Below

variable {T : TableMap} {root : ℕ → ℕ} {m : PageMem} {pd k x t q i : ℕ}

/-- Where a table is. -/
theorem mem_below (h : q ∈ below T pd k x) :
    ∃ j y, j ≤ k ∧ T pd (3 - j) y = some q ∧ y / 512 ^ (k - j) = x := by
  induction k generalizing x with
  | zero => exact ⟨0, x, le_rfl, by simpa [below] using h, by simp⟩
  | succ k ih =>
      rw [below] at h
      cases hT : T pd (3 - (k + 1)) x with
      | none =>
          rw [hT] at h
          cases h
      | some t =>
          simp only [hT, List.mem_append, List.mem_flatMap, List.mem_range, List.mem_singleton] at h
          rcases h with ⟨i, hi, h⟩ | rfl
          · obtain ⟨j, y, hj, hy, hx⟩ := ih h
            refine ⟨j, y, by omega, hy, ?_⟩
            rw [show k + 1 - j = k - j + 1 by omega, pow_succ, ← Nat.div_div_eq_div_mul, hx]
            omega
          · exact ⟨k + 1, x, le_rfl, hT, by simp⟩

variable (h : Tables T root m)
include h

/-- The tables below two entries of a table are different. -/
theorem below_disjoint {i' : ℕ} (hk : k ≤ 2) (hne : i ≠ i')
    (hq : q ∈ below T pd k (x * 512 + i)) : q ∉ below T pd k (x * 512 + i') := by
  intro hq'
  obtain ⟨j, y, hj, hy, hx⟩ := mem_below hq
  obtain ⟨j', y', hj', hy', hx'⟩ := mem_below hq'
  obtain ⟨-, hlevel, rfl⟩ := h.inj _ _ _ _ _ _ _ hy hy'
  obtain rfl : j = j' := by omega
  omega

/-- A table is not below itself. -/
theorem notMem_below (hk : k ≤ 2) (ht : T pd (3 - (k + 1)) x = some t) {x' : ℕ} :
    t ∉ below T pd k x' := by
  intro hq
  obtain ⟨j, y, hj, hy, -⟩ := mem_below hq
  obtain ⟨-, hlevel, -⟩ := h.inj _ _ _ _ _ _ _ ht hy
  omega

theorem below_nodup (hk : k ≤ 3) : (below T pd k x).Nodup := by
  induction k generalizing x with
  | zero =>
      rw [below]
      cases T pd 3 x <;> simp
  | succ k ih =>
      rw [below]
      cases hT : T pd (3 - (k + 1)) x with
      | none => simp
      | some t =>
          refine List.nodup_append.mpr ⟨?_, by simp, ?_⟩
          · refine List.nodup_flatMap.mpr ⟨fun i _ => ih (by omega), ?_⟩
            refine List.nodup_range.pairwise_of_forall_ne ?_
            intro i _ i' _ hne q hq hq'
            exact below_disjoint h (by omega) hne hq hq'
          · intro q hq q' hq'
            obtain ⟨i, -, hq⟩ := List.mem_flatMap.mp hq
            rw [List.mem_singleton] at hq'
            rintro rfl
            exact notMem_below h (by omega) (hq' ▸ hT) hq

end Below

/-- The kernel address of a table leads to the table itself. -/
theorem GoodPage.p2k_pteAddress_self {p : ℕ} (h : GoodPage p) : p2k (pteAddress p) = p := by
  obtain ⟨n, hn, rfl⟩ := h
  rw [pteAddress_eq, p2k]
  simp only [kspaceMask]
  omega

namespace FreeState

variable {T : TableMap} {root : ℕ → ℕ} {m : PageMem} {pd k x t e : ℕ} {st : FreeState}

/-- What `free_pt_r` is called with for a table of level `3 - k`: the kernel address for the root
table, an entry for the others. -/
def tablePtr (k : ℕ) (o : Option ℕ) : ℕ := if k = 3 then o.getD 0 else entryOf o

theorem tablePtr_none : tablePtr k none = 0 := by
  rw [tablePtr]
  split_ifs <;> rfl

theorem tablePtr_some (hg : GoodPage t) :
    tablePtr k (some t) ≠ 0 ∧ p2k (pteAddress (tablePtr k (some t))) = t := by
  rw [tablePtr]
  split_ifs
  · exact ⟨hg.ne_zero, hg.p2k_pteAddress_self⟩
  · exact ⟨fun h0 => hg.entry_valid (Or.inl h0), hg.p2k_pteAddress (by decide)⟩

/-- The table that `free_pt_r` reads. -/
theorem ptin_eq : (if k + 1 = 3 then tablePtr (k + 1) (some t) else t) = t := by
  split_ifs with h3
  · rw [tablePtr, if_pos h3]
    rfl
  · rfl

/-! ### The loop over the entries of a table -/

section Loop

variable {n : ℕ}

/-- The tables below the first `n` entries of a table. -/
def belowTo (T : TableMap) (pd k x n : ℕ) : List ℕ :=
  (List.range n).flatMap fun i => below T pd k (x * 512 + i)

theorem belowTo_succ :
    belowTo T pd k x (n + 1) = belowTo T pd k x n ++ below T pd k (x * 512 + n) := by
  rw [belowTo, List.range_succ, List.flatMap_append, List.flatMap_singleton, belowTo]

theorem below_succ (hT : T pd (3 - (k + 1)) x = some t) :
    below T pd (k + 1) x = belowTo T pd k x 512 ++ [t] := by
  rw [below, hT, belowTo]

theorem mem_belowTo {q : ℕ} :
    q ∈ belowTo T pd k x n ↔ ∃ i, i < n ∧ q ∈ below T pd k (x * 512 + i) := by
  simp [belowTo]

variable (h : Tables T root m) (hk : k ≤ 2) (hT : T pd (3 - (k + 1)) x = some t) (hn : n < 512)
  (hmem : ∀ q ∈ below T pd (k + 1) x, st.mem.mem q = m.mem q)
include h hk hT hn hmem

/-- Entry `n` still leads to its table. -/
theorem pte_freeAll : (st.freeAll (belowTo T pd k x n)).mem.pte t n =
    tablePtr k (T pd (3 - k) (x * 512 + n)) := by
  have hnot : t ∉ belowTo T pd k x n := by
    intro hin
    obtain ⟨i, -, hin⟩ := mem_belowTo.mp hin
    exact notMem_below h hk hT hin
  have ht : (st.freeAll (belowTo T pd k x n)).mem.mem t = m.mem t :=
    (freeAll_mem hnot).trans (hmem t (by simp [below_succ hT]))
  rw [PageMem.pte_congr ht, h.entry _ _ _ _ _ hT (by omega) hn, tablePtr, if_neg (by omega),
    show 3 - (k + 1) + 1 = 3 - k by omega]

/-- The tables below entry `n` have not been touched. -/
theorem mem_freeAll : ∀ q ∈ below T pd k (x * 512 + n),
    (st.freeAll (belowTo T pd k x n)).mem.mem q = m.mem q := by
  intro q hq
  have hnot : q ∉ belowTo T pd k x n := by
    intro hin
    obtain ⟨i, hi, hin⟩ := mem_belowTo.mp hin
    exact below_disjoint h hk (by omega : i ≠ n) hin hq
  refine (freeAll_mem hnot).trans (hmem q ?_)
  rw [below_succ hT]
  exact List.mem_append_left _ (mem_belowTo.mpr ⟨n, hn, hq⟩)

end Loop

/-- **`free_pt_r` frees the tables below its argument**, and nothing else. -/
theorem freePtR_eq (h : Tables T root m) (hk : k ≤ 3)
    (hmem : ∀ q ∈ below T pd k x, st.mem.mem q = m.mem q) :
    freePtR k (tablePtr k (T pd (3 - k) x)) st = st.freeAll (below T pd k x) := by
  induction k generalizing x st with
  | zero =>
      rw [freePtR, below]
      cases hT : T pd (3 - 0) x with
      | none =>
          rw [tablePtr_none, if_neg (by simp)]
          rfl
      | some t =>
          obtain ⟨hne, haddr⟩ := tablePtr_some (k := 0) (h.good _ _ _ _ hT)
          rw [if_pos hne, haddr]
          rfl
  | succ k ih =>
      rw [freePtR]
      cases hT : T pd (3 - (k + 1)) x with
      | none =>
          rw [tablePtr_none, if_neg (by simp), below, hT]
          rfl
      | some t =>
          obtain ⟨hne, haddr⟩ := tablePtr_some (k := k + 1) (h.good _ _ _ _ hT)
          -- the loop over the entries
          have hloop : ∀ n, n ≤ 512 →
              (List.range n).foldl (fun st i => freePtR k (st.mem.pte t i) st) st =
                st.freeAll (belowTo T pd k x n) := by
            intro n hn
            induction n with
            | zero => rfl
            | succ n ihn =>
                rw [List.range_succ, List.foldl_append, ihn (by omega), List.foldl_cons,
                  List.foldl_nil, belowTo_succ, freeAll_append,
                  pte_freeAll h (by omega) hT hn hmem]
                exact ih (by omega) (mem_freeAll h (by omega) hT hn hmem)
          rw [if_pos hne]
          simp only [haddr, ptin_eq]
          rw [hloop 512 le_rfl, below_succ hT, freeAll_append]
          rfl

/-! ## The sections -/

/-- What `free_sections` leaves alone: the tables, and the pages it has not been given. -/
structure Cleared (all : List ℕ) (T : TableMap) (st₀ st : FreeState) : Prop where
  pt : st.vm.pt = { st₀.vm.pt with sys := st.vm.pt.sys }
  tables : Tables T st₀.vm.pt.root st.mem
  same : ∀ pd k x t, T pd k x = some t → st.mem.mem t = st₀.mem.mem t
  freed : ∀ p ∈ st.freed, p ∈ st₀.freed ∨ p ∈ st₀.vm.pt.sys.held ∨ p = p2k 0
  pages : ∀ q ∈ st.mem.pages, q ∈ st₀.mem.pages ∨ q ∈ st.freed
  held : st.vm.pt.sys.held ⊆ st₀.vm.pt.sys.held
  ok : st.proper = true → PtOk all T st.vm.pt

namespace Cleared

variable {all : List ℕ} {st₀ : FreeState} {p addr : ℕ}

theorem refl (h : PtOk all T st.vm.pt) : Cleared all T st st where
  pt := rfl
  tables := h.tables
  same _ _ _ _ _ := rfl
  freed _ hp := Or.inl hp
  pages _ hq := Or.inl hq
  held := List.Subset.refl _
  ok _ := h

/-- The swap blocks and the list of sections have nothing to do with it. -/
theorem congr (h : Cleared all T st₀ st) {vm : Machine} (hpt : vm.pt = st.vm.pt) :
    Cleared all T st₀ { st with vm := vm } := by
  obtain ⟨h1, h2, h3, h4, h5, h6, h7⟩ := h
  have hmem : FreeState.mem { st with vm := vm } = st.mem := by rw [mem, hpt]; rfl
  refine ⟨?_, hmem ▸ h2, hmem ▸ h3, h4, hmem ▸ h5, ?_, ?_⟩
  · rw [hpt]
    exact h1
  · rw [hpt]
    exact h6
  · rw [hpt]
    exact h7

theorem kfreePage (h : Cleared all T st₀ st) (hp : p ∈ st₀.vm.pt.sys.held ∨ p = p2k 0)
    (hnew : ∀ pd k x, T pd k x ≠ some p) : Cleared all T st₀ (st.kfreePage p) := by
  have hsame : ∀ pd k x t, T pd k x = some t → (st.kfreePage p).mem.mem t = st.mem.mem t := by
    intro pd k x t ht
    apply kfreePage_mem
    rintro rfl
    exact hnew pd k x ht
  constructor
  case pt => rw [FreeState.kfreePage, h.pt]
  case tables =>
    refine h.tables.frame hsame ?_
    intro pd k x t ht hmem
    rcases PageMem.kfreePage_pages hmem with rfl | hmem
    · exact hnew pd k x ht
    · exact h.tables.used pd k x t ht hmem
  case same => exact fun pd k x t ht => (hsame pd k x t ht).trans (h.same pd k x t ht)
  case freed =>
    intro q hq
    rcases List.mem_append.mp hq with hq | hq
    · exact h.freed q hq
    · rw [List.mem_singleton.mp hq]
      exact Or.inr hp
  case pages =>
    intro q hq
    rcases PageMem.kfreePage_pages hq with rfl | hq
    · exact Or.inr (by simp)
    · rcases h.pages q hq with hq | hq
      · exact Or.inl hq
      · exact Or.inr (by simp [hq])
  case held => exact fun q hq => h.held (List.mem_of_mem_erase hq)
  case ok =>
    intro hprop
    simp only [FreeState.kfreePage, Bool.and_eq_true, decide_eq_true_eq] at hprop
    exact (h.ok hprop.1).page (PageSys.step_kfreePage hprop.2)

end Cleared

end FreeState

/-- The valid entries for the sections of directory `pd` lead to pages that have been handed out. -/
def Machine.UserPages (s : Machine) (pd : ℕ) : Prop :=
  ∀ sec ∈ s.sections pd, ∀ addr, sec.start ≤ addr → addr < sec.stop → ∀ slot rest,
    s.pt.lookup pd addr = some (some slot, rest) → s.entry slot &&& pteValid ≠ 0 →
    p2k (pteAddress (s.entry slot)) ∈ s.pt.sys.held

namespace FreeState

variable {all : List ℕ} {T : TableMap} {st₀ st : FreeState} {pd addr : ℕ}

/-- Every page address leads to the slot it led to before. -/
theorem Cleared.lookup (h : Cleared all T st₀ st) (pd addr : ℕ) : st.vm.pt.lookup pd addr =
    some ((T pd 3 (leafKey addr)).map fun t => (t, vaPart3 addr), st.vm.pt.root pd, st.mem) := by
  have hroot : st.vm.pt.root = st₀.vm.pt.root := by rw [h.pt]
  rw [PtSys.lookup, hroot]
  exact h.tables.getPte_false pd addr

/-- And the slot has its value. -/
theorem Cleared.entry (h : Cleared all T st₀ st) {k x t : ℕ} (i : ℕ) (ht : T pd k x = some t) :
    st.vm.entry (t, i) = st₀.vm.entry (t, i) :=
  PageMem.pte_congr (h.same pd k x t ht)

/-- One round. -/
theorem Cleared.freeEntry (h : Cleared all T st₀ st) (h₀ : PtOk all T st₀.vm.pt)
    (hzero : p2k 0 ∉ all)
    (huser : ∀ slot rest, st₀.vm.pt.lookup pd addr = some (some slot, rest) →
      st₀.vm.entry slot &&& pteValid ≠ 0 → p2k (pteAddress (st₀.vm.entry slot)) ∈ st₀.vm.pt.sys.held) :
    Cleared all T st₀ (freeEntry pd st addr) := by
  have hlook := h.lookup pd addr
  cases ht : T pd 3 (leafKey addr) with
  | none =>
      rw [ht] at hlook
      rw [FreeState.freeEntry, hlook]
      exact h
  | some t =>
      rw [ht] at hlook
      have hlook₀ := h₀.lookup_eq pd addr
      rw [ht] at hlook₀
      have hentry := h.entry (vaPart3 addr) ht
      rw [FreeState.freeEntry, hlook]
      simp only [Option.map_some]
      split_ifs with hswap
      · exact h.congr rfl
      · have hp : p2k (pteAddress (st.vm.entry (t, vaPart3 addr))) ∈ st₀.vm.pt.sys.held ∨
            p2k (pteAddress (st.vm.entry (t, vaPart3 addr))) = p2k 0 := by
          rw [hentry] at hswap ⊢
          by_cases h0 : st₀.vm.entry (t, vaPart3 addr) = 0
          · rw [h0]
            exact Or.inr rfl
          · exact Or.inl (huser _ _ hlook₀ fun hv => hswap ⟨hv, h0⟩)
        refine h.kfreePage hp ?_
        intro pd' k x hT
        obtain ⟨hall, hheld⟩ := h₀.own pd' k x _ hT
        rcases hp with hp | hp
        · exact hheld hp
        · exact hzero (hp ▸ hall)

/-- The rounds for the pages of one section. -/
theorem Cleared.rounds (h : Cleared all T st₀ st) (h₀ : PtOk all T st₀.vm.pt)
    (hzero : p2k 0 ∉ all) (huser : st₀.vm.UserPages pd) {sec : Section}
    (hsec : sec ∈ st₀.vm.sections pd) {n : ℕ}
    (hn : n ≤ (sec.stop - sec.start + (pageSize - 1)) / pageSize) :
    Cleared all T st₀ ((List.range n).foldl
      (fun st k => FreeState.freeEntry pd st (sec.start + k * pageSize)) st) := by
  induction n with
  | zero => exact h
  | succ n ih =>
      rw [List.range_succ, List.foldl_append]
      refine (ih (by omega)).freeEntry h₀ hzero ?_
      refine huser sec hsec _ (by omega) ?_
      simp only [pageSize] at hn ⊢
      omega

theorem Cleared.freeSection (h : Cleared all T st₀ st) (h₀ : PtOk all T st₀.vm.pt)
    (hzero : p2k 0 ∉ all) (huser : st₀.vm.UserPages pd) {sec : Section}
    (hsec : sec ∈ st₀.vm.sections pd) : Cleared all T st₀ (FreeState.freeSection pd st sec) :=
  (h.rounds h₀ hzero huser hsec le_rfl).congr rfl

/-- **What `free_sections` frees**: pages that had been handed out, and perhaps the page at physical
address 0. -/
theorem cleared_freeSections (h₀ : PtOk all T st.vm.pt) (hzero : p2k 0 ∉ all)
    (huser : st.vm.UserPages pd) : Cleared all T st (freeSections pd st) := by
  have hfold : ∀ (secs : List Section) (st' : FreeState), secs ⊆ st.vm.sections pd →
      Cleared all T st st' → Cleared all T st (secs.foldl (freeSection pd) st') := by
    intro secs
    induction secs with
    | nil => exact fun _ _ h => h
    | cons sec secs ih =>
        intro st' hsub h
        exact ih _ (fun x hx => hsub (List.mem_cons_of_mem _ hx))
          (h.freeSection h₀ hzero huser (hsub (by simp)))
  exact hfold _ _ (List.Subset.refl _) (Cleared.refl h₀)

/-- **What `free_pgdir` frees.** -/
theorem freePgdir_eq (h₀ : PtOk all T st.vm.pt) (hzero : p2k 0 ∉ all) (huser : st.vm.UserPages pd) :
    freePgdir pd st = (freeSections pd st).freeAll (below T pd 3 0) := by
  have h := cleared_freeSections h₀ hzero huser
  have hroot : (freeSections pd st).vm.pt.root pd = (T pd 0 0).getD 0 := by
    rw [h.pt]
    exact h₀.tables.root pd
  have heq : freePtR 3 (tablePtr 3 (T pd 0 0)) (freeSections pd st) =
      (freeSections pd st).freeAll (below T pd 3 0) :=
    freePtR_eq h.tables (le_refl 3) fun q _ => rfl
  rw [tablePtr, if_pos rfl] at heq
  rw [freePgdir, hroot]
  split_ifs with h0
  · -- there are no tables
    have hnone : T pd 0 0 = none := by
      cases hT : T pd 0 0 with
      | none => rfl
      | some t =>
          rw [hT] at h0
          exact absurd h0 (h₀.tables.good _ _ _ _ hT).ne_zero
    rw [below, show T pd (3 - (2 + 1)) 0 = none from hnone]
    rfl
  · exact heq

end FreeState

end OsLab
