import OsLab.Kernel.FreeSections

/-!
# The end of the heap

`sbrk` of `kernel/paging.c`.  The size is an `i64`, and so is its product with `PAGE_SIZE`,
computed before anything is checked.  What `sbrk` gives back is as for `free_sections`, but the
loop leaves an empty entry alone, and it empties every entry it comes to.

## Main definitions

* `FreeState.sbrk` — the function, with its calls.
* `Resized` — the heap has its new end, and the pages beyond it are gone.
* `SbrkFits` — the sizes for which machine arithmetic does not matter.
* `sbrk_exact_iff` — these are the sizes for which `sbrk` is exact.
-/

namespace OsLab

/-- The `i64` that an integer becomes. -/
def i64 (x : ℤ) : ℤ := x.bmod (2 ^ 64)

/-- How `sbrk` ends. -/
inductive SbrkResult
  | panic (st : FreeState)
  | ret (addr : ℕ) (st : FreeState) (calls : List FreeCall)

/-- The first section of `thisproc()` with `ST_HEAP`, and where it is. -/
def Machine.heapSection (s : Machine) : Option (ℕ × Section) := do
  let j ← (s.sections s.cur).findIdx? fun sec => sec.flags &&& stHeap ≠ 0
  let sec ← (s.sections s.cur)[j]?
  some (j, sec)

namespace FreeState

/-- `memset(pte_p, 0, sizeof(PTEntry))` for the entry of address `va` -/
def clearEntry (st : FreeState) (pd va : ℕ) (slot : ℕ × ℕ) : FreeState :=
  { st with vm := { st.vm with
      pt := (st.vm.pt.setMem (st.vm.pt.sys.m.setPte slot.1 slot.2 0)).record pd (vpn va) 0 } }

/-- `release_8_blocks(bno)` -/
def release (st : FreeState) (bno : ℕ) : FreeState :=
  { st with vm := { st.vm with swapValid := release8Blocks st.vm.swapValid bno } }

/-- `section->end = stop` for section `j` of `thisproc()` -/
def setStop (st : FreeState) (j : ℕ) (sec : Section) (stop : ℕ) : FreeState :=
  { st with vm := { st.vm with
      sections := Function.update st.vm.sections st.vm.cur
        ((st.vm.sections st.vm.cur).set j { sec with stop := stop }) } }

/-- What an entry leads to is given back. -/
def giveBack (r : FreeState × List FreeCall) (pte : ℕ) : FreeState × List FreeCall :=
  if pte ≠ 0 ∧ pte &&& pteValid = 0 then
    (r.1.release (pte >>> 12), r.2 ++ [.release8Blocks (pte >>> 12)])
  else if pte ≠ 0 ∧ pte &&& pteValid ≠ 0 then
    (r.1.kfreePage (p2k (pteAddress pte)), r.2 ++ [.kfreePage (p2k (pteAddress pte))])
  else r

/-- The entry of address `va` is emptied, without a call. -/
def empty (pd va : ℕ) (slot : ℕ × ℕ) (r : FreeState × List FreeCall) : FreeState × List FreeCall :=
  (r.1.clearEntry pd va slot, r.2)

/-- One round of the loop of `sbrk`, for the address that `section->end` has come to. -/
def sbrkEntry (r : FreeState × List FreeCall) (addr : ℕ) : FreeState × List FreeCall :=
  match r.1.vm.pt.lookup r.1.vm.cur addr with
  | some (some slot, _) => empty r.1.vm.cur addr slot (giveBack r (r.1.vm.entry slot))
  | _ => r

/-- The loop of `sbrk`, with the `end` it comes to. -/
def sbrkLoop (stop : ℕ) (sz : ℤ) (r : FreeState × List FreeCall) :
    ℕ × FreeState × List FreeCall :=
  if 0 < sz then
    let stop := (stop + (2 ^ 64 - pageSize)) % 2 ^ 64
    sbrkLoop stop (sz - pageSize) (sbrkEntry r stop)
  else (stop, r)
termination_by sz.toNat
decreasing_by
  simp only [pageSize]
  omega

/-- `sbrk(size)` -/
def sbrk (st : FreeState) (size : BitVec 64) : SbrkResult :=
  match st.vm.heapSection with
  | none => .panic st
  | some (j, sec) =>
      let sz := i64 (size.toInt * pageSize)
      if 0 ≤ size.toInt then
        .ret sec.stop (st.setStop j sec ((sec.stop + sz) % 2 ^ 64).toNat) []
      else
        let sz := i64 (sz * -1)
        if sz ≤ i64 (sec.stop - sec.start) then
          let r := sbrkLoop sec.stop sz (st, [])
          .ret sec.stop (r.2.1.setStop j sec r.1) r.2.2
        else .panic st

end FreeState

/-- **The heap `sec`, section `j`, has the new end `stop`**: where the old one and the size say,
and not before its start.  The entries from there to the old end are empty, the others are as they
were, and each entry in use has been given back once. -/
structure Resized (st st' : FreeState) (j : ℕ) (sec : Section) (size : ℤ) (calls : List FreeCall)
    (stop : ℕ) : Prop where
  exact : (stop : ℤ) = sec.stop + size * pageSize
  le : sec.start ≤ stop
  sections : st'.vm.sections = Function.update st.vm.sections st.vm.cur
    ((st.vm.sections st.vm.cur).set j { sec with stop := stop })
  grown : 0 ≤ size → st'.vm.pt = st.vm.pt
  empty : ∀ va, stop ≤ va → va < sec.stop → st'.vm.pteAt st.vm.cur va = 0
  kept : ∀ pd va, (pd = st.vm.cur → ∀ a, stop ≤ a → a < sec.stop → vpn a ≠ vpn va) →
    st'.vm.pteAt pd va = st.vm.pteAt pd va
  calls : calls.Perm ((st.slotsOf st.vm.cur [{ sec with start := stop }]).dedup.filterMap fun slot =>
    dueCall (st.vm.entry slot))

/-- **`sbrk` is exact**: it returns the old end of the resized heap, or it panics and has changed
nothing. -/
def SbrkExact (st : FreeState) (j : ℕ) (sec : Section) (size : ℤ) : SbrkResult → Prop
  | .panic st' => st' = st
  | .ret addr st' calls => addr = sec.stop ∧ ∃ stop, Resized st st' j sec size calls stop

/-- The sizes for which machine arithmetic does not matter: the new end is an address, or the
bytes to remove are an `i64`, or what is left of them is still more than the heap has. -/
def SbrkFits (sec : Section) (size : ℤ) : Prop :=
  if 0 ≤ size then sec.stop + size * pageSize < 2 ^ 64
  else -(size * pageSize) < 2 ^ 63 ∨ i64 (sec.stop - sec.start) < i64 (-(size * pageSize))

/-! ## Machine arithmetic -/

theorem i64_of_fits {x : ℤ} (lo : -2 ^ 63 ≤ x) (hi : x < 2 ^ 63) : i64 x = x := by
  simp only [i64, Int.bmod]
  omega

theorem add_i64 (x y : ℤ) : (x + i64 y) % 2 ^ 64 = (x + y) % 2 ^ 64 := by
  simp only [i64, Int.bmod]
  omega

theorem i64_le {x : ℤ} (h : 0 ≤ x) : i64 x ≤ x := by
  simp only [i64, Int.bmod]
  omega

theorem i64_lt (x : ℤ) : i64 x < 2 ^ 63 := by
  simp only [i64, Int.bmod]
  omega

/-- The order of multiplication and `sz *= -1` does not matter. -/
theorem i64_neg (x : ℤ) : i64 (i64 x * -1) = i64 (-x) := by
  simp only [i64, Int.bmod]
  omega

/-- A number of bytes that is a number of pages stays one. -/
theorem i64_pages (x : ℤ) : i64 (x * pageSize) % pageSize = 0 := by
  simp only [i64, Int.bmod, pageSize]
  omega

namespace FreeState

/-! ## The loop -/

/-- The `n` pages before `stop`, the last one first. -/
def pagesBefore (stop n : ℕ) : List ℕ := (List.range n).map fun k => stop - (k + 1) * pageSize

theorem pagesBefore_succ (stop n : ℕ) :
    pagesBefore stop (n + 1) = (stop - pageSize) :: pagesBefore (stop - pageSize) n := by
  have hrest : ∀ k, stop - (k + 1 + 1) * pageSize = stop - pageSize - (k + 1) * pageSize := by
    intro k
    rw [Nat.add_mul _ 1, Nat.one_mul]
    omega
  simp only [pagesBefore, List.range_succ_eq_map, List.map_cons, List.map_map, Function.comp_def,
    Nat.succ_eq_add_one, hrest, Nat.zero_add, Nat.one_mul]

/-- The loop runs over the pages before the end. -/
theorem sbrkLoop_eq {stop n : ℕ} (hn : n * pageSize ≤ stop) (hlt : stop < 2 ^ 64)
    (r : FreeState × List FreeCall) : sbrkLoop stop ((n : ℤ) * pageSize) r =
      (stop - n * pageSize, (pagesBefore stop n).foldl sbrkEntry r) := by
  induction n generalizing stop r with
  | zero =>
      rw [sbrkLoop, if_neg (by simp)]
      simp [pagesBefore]
  | succ n ih =>
      have hstop : (stop + (2 ^ 64 - pageSize)) % 2 ^ 64 = stop - pageSize := by
        simp only [pageSize] at *
        omega
      have hsz : ((n + 1 : ℕ) : ℤ) * pageSize - pageSize = (n : ℤ) * pageSize := by
        push_cast
        ring
      rw [sbrkLoop, if_pos (by simp only [pageSize]; omega)]
      simp only [hstop, hsz]
      have hend : stop - pageSize - n * pageSize = stop - (n + 1) * pageSize := by
        rw [Nat.add_mul, Nat.one_mul]
        omega
      have hle : n * pageSize ≤ stop - pageSize := by
        rw [Nat.add_mul, Nat.one_mul] at hn
        omega
      rw [ih hle (by omega), pagesBefore_succ, List.foldl_cons, hend]

/-- With nothing to remove it does nothing. -/
theorem sbrkLoop_of_nonpos {stop : ℕ} {sz : ℤ} (h : sz ≤ 0) (r : FreeState × List FreeCall) :
    sbrkLoop stop sz r = (stop, r) := by
  rw [sbrkLoop, if_neg (by omega)]

/-! ## What the rounds change -/

/-- Between `st₀` and `st` the entries `D` have been emptied, and no table has been touched
otherwise. -/
structure Swept (T : TableMap) (st₀ : FreeState) (D : List (ℕ × ℕ)) (st : FreeState) : Prop where
  cur : st.vm.cur = st₀.vm.cur
  sections : st.vm.sections = st₀.vm.sections
  root : st.vm.pt.root = st₀.vm.pt.root
  tables : Tables T st₀.vm.pt.root st.mem
  entry : ∀ pd k x t i, T pd k x = some t → i < 512 →
    st.vm.entry (t, i) = if (t, i) ∈ D then 0 else st₀.vm.entry (t, i)

namespace Swept

variable {all : List ℕ} {T : TableMap} {st₀ st : FreeState} {D D' : List (ℕ × ℕ)}
  {pd va addr p t : ℕ} {r : FreeState × List FreeCall}

theorem refl (h : PtOk all T st.vm.pt) : Swept T st [] st where
  cur := rfl
  sections := rfl
  root := rfl
  tables := h.tables
  entry _ _ _ _ _ _ _ := (if_neg List.not_mem_nil).symm

theorem setSwapValid (h : Swept T st₀ D st) (valid : ℕ → Bool) :
    Swept T st₀ D { st with vm := { st.vm with swapValid := valid } } := by
  obtain ⟨h1, h2, h3, h4, h5⟩ := h
  exact ⟨h1, h2, h3, h4, h5⟩

/-- A page that is not a table is freed. -/
theorem kfreePage (h : Swept T st₀ D st) (hp : ∀ pd k x, T pd k x ≠ some p) :
    Swept T st₀ D (st.kfreePage p) := by
  have hsame : ∀ pd k x t, T pd k x = some t → (st.kfreePage p).mem.mem t = st.mem.mem t := by
    intro pd k x t ht
    apply kfreePage_mem
    rintro rfl
    exact hp pd k x ht
  constructor
  case cur => exact h.cur
  case sections => exact h.sections
  case root => exact h.root
  case tables =>
    refine h.tables.frame hsame ?_
    intro pd k x t ht hmem
    rcases PageMem.kfreePage_pages hmem with rfl | hmem
    · exact hp pd k x ht
    · exact h.tables.used pd k x t ht hmem
  case entry =>
    intro pd k x t i ht hi
    exact (PageMem.pte_congr (hsame pd k x t ht)).trans (h.entry pd k x t i ht hi)

/-- An entry is emptied. -/
theorem clearEntry (h : Swept T st₀ D st) (ht : T pd 3 (leafKey va) = some t)
    (hD : ∀ slot, slot ∈ D' ↔ slot ∈ D ∨ slot = (t, vaPart3 va)) :
    Swept T st₀ D' (st.clearEntry pd va (t, vaPart3 va)) := by
  constructor
  case cur => exact h.cur
  case sections => exact h.sections
  case root => exact h.root
  case tables => exact h.tables.setLeaf ht 0
  case entry =>
    intro pd' k x t' i ht' hi
    by_cases heq : (t', i) = (t, vaPart3 va)
    · obtain ⟨rfl, rfl⟩ := Prod.mk.inj heq
      rw [if_pos ((hD _).mpr (Or.inr rfl))]
      exact PageMem.pte_setPte_self hi (by decide)
    · have hne : t' ≠ t ∨ i ≠ vaPart3 va := by
        by_contra hboth
        simp only [not_or, not_not] at hboth
        exact heq (Prod.ext hboth.1 hboth.2)
      simp only [hD, heq, or_false]
      exact (PageMem.pte_setPte_of_ne hne).trans (h.entry pd' k x t' i ht' hi)

/-- Every address leads to the slot it led to before. -/
theorem lookup (h : Swept T st₀ D st) (pd va : ℕ) : st.vm.pt.lookup pd va =
    some ((T pd 3 (leafKey va)).map fun t => (t, vaPart3 va), st.vm.pt.root pd, st.mem) := by
  rw [PtSys.lookup, h.root]
  exact h.tables.getPte_false pd va

theorem pteAt (h : Swept T st₀ D st) (pd va : ℕ) : st.vm.pteAt pd va =
    ((T pd 3 (leafKey va)).map fun t =>
      if (t, vaPart3 va) ∈ D then 0 else st₀.vm.entry (t, vaPart3 va)).getD 0 := by
  rw [Machine.pteAt, h.lookup]
  cases ht : T pd 3 (leafKey va) with
  | none => rfl
  | some t => exact h.entry pd 3 _ t _ ht (vaPart3_lt va)

/-- An entry that has not been emptied is as it was. -/
theorem pteAt_of_notMem (h : Swept T st₀ D st) (h₀ : PtOk all T st₀.vm.pt)
    (hD : ∀ t, T pd 3 (leafKey va) = some t → (t, vaPart3 va) ∉ D) :
    st.vm.pteAt pd va = st₀.vm.pteAt pd va := by
  have hst := h.pteAt pd va
  have hst₀ := (Swept.refl h₀).pteAt pd va
  cases ht : T pd 3 (leafKey va) with
  | none =>
      rw [ht, Option.map_none] at hst hst₀
      exact hst.trans hst₀.symm
  | some t =>
      rw [ht, Option.map_some, Option.getD_some] at hst hst₀
      rw [if_neg (hD t ht)] at hst
      rw [if_neg List.not_mem_nil] at hst₀
      exact hst.trans hst₀.symm

theorem giveBack (h : Swept T st₀ D r.1) {pte : ℕ} (hp : pte &&& pteValid ≠ 0 →
    ∀ pd k x, T pd k x ≠ some (p2k (pteAddress pte))) : Swept T st₀ D (giveBack r pte).1 := by
  rw [FreeState.giveBack]
  split_ifs with hswap hvalid
  · apply h.setSwapValid
  · exact h.kfreePage (hp hvalid.2)
  · exact h

end Swept

theorem giveBack_snd (r : FreeState × List FreeCall) (pte : ℕ) :
    (giveBack r pte).2 = r.2 ++ (dueCall pte).toList := by
  rw [giveBack, dueCall]
  by_cases h0 : pte = 0
  · simp [h0]
  · by_cases hv : pte &&& pteValid = 0
    · simp [h0, hv]
    · simp [h0, hv]

theorem sbrkEntry_none {r : FreeState × List FreeCall} {addr : ℕ} {x : ℕ × PageMem}
    (h : r.1.vm.pt.lookup r.1.vm.cur addr = some (none, x)) : sbrkEntry r addr = r := by
  rw [sbrkEntry, h]

theorem empty_snd (pd va : ℕ) (slot : ℕ × ℕ) (r : FreeState × List FreeCall) :
    (empty pd va slot r).2 = r.2 := by
  have hsnd : ∀ (st : FreeState) (calls : List FreeCall), (st, calls).2 = calls := fun _ _ => rfl
  exact hsnd _ _

theorem sbrkEntry_some {r : FreeState × List FreeCall} {addr : ℕ} {slot : ℕ × ℕ} {x : ℕ × PageMem}
    (h : r.1.vm.pt.lookup r.1.vm.cur addr = some (some slot, x)) :
    sbrkEntry r addr = empty r.1.vm.cur addr slot (giveBack r (r.1.vm.entry slot)) := by
  rw [sbrkEntry, h]

namespace Swept

variable {all : List ℕ} {T : TableMap} {st₀ : FreeState} {D : List (ℕ × ℕ)} {addr t : ℕ}
  {r : FreeState × List FreeCall}

/-- A round that comes to an address without a table. -/
theorem round_none (h : Swept T st₀ D r.1) (ht : T st₀.vm.cur 3 (leafKey addr) = none) :
    sbrkEntry r addr = r := by
  have hlook := h.lookup r.1.vm.cur addr
  rw [h.cur, ht, ← h.cur, Option.map_none] at hlook
  exact sbrkEntry_none hlook

/-- A round that comes to an entry that has been emptied. -/
theorem round_mem (h : Swept T st₀ D r.1) (ht : T st₀.vm.cur 3 (leafKey addr) = some t)
    (hD : (t, vaPart3 addr) ∈ D) :
    Swept T st₀ D (sbrkEntry r addr).1 ∧ (sbrkEntry r addr).2 = r.2 := by
  have hlook := h.lookup r.1.vm.cur addr
  rw [h.cur, ht, ← h.cur, Option.map_some] at hlook
  have hentry := h.entry _ _ _ _ (vaPart3 addr) ht (vaPart3_lt addr)
  rw [sbrkEntry_some hlook, empty_snd, hentry, if_pos hD, h.cur, giveBack_snd, dueCall_zero]
  constructor
  · have hgive : Swept T st₀ D (FreeState.giveBack r 0).1 :=
      h.giveBack fun h0 => absurd (Nat.zero_and _) h0
    refine hgive.clearEntry ht fun slot => ?_
    constructor
    · exact Or.inl
    · rintro (hmem | rfl)
      · exact hmem
      · exact hD
  · rw [Option.toList_none, List.append_nil]

/-- **A round that comes to an entry for the first time** gives back what it leads to. -/
theorem round_notMem (h : Swept T st₀ D r.1) (h₀ : PtOk all T st₀.vm.pt)
    (ht : T st₀.vm.cur 3 (leafKey addr) = some t) (hD : (t, vaPart3 addr) ∉ D)
    (huser : st₀.vm.entry (t, vaPart3 addr) &&& pteValid ≠ 0 →
      p2k (pteAddress (st₀.vm.entry (t, vaPart3 addr))) ∈ st₀.vm.pt.sys.held) :
    Swept T st₀ (D ++ [(t, vaPart3 addr)]) (sbrkEntry r addr).1 ∧ (sbrkEntry r addr).2 =
      r.2 ++ (dueCall (st₀.vm.entry (t, vaPart3 addr))).toList := by
  have hlook := h.lookup r.1.vm.cur addr
  rw [h.cur, ht, ← h.cur, Option.map_some] at hlook
  have hentry := h.entry _ _ _ _ (vaPart3 addr) ht (vaPart3_lt addr)
  rw [sbrkEntry_some hlook, empty_snd, hentry, if_neg hD, h.cur, giveBack_snd]
  have hgive : Swept T st₀ D (FreeState.giveBack r (st₀.vm.entry (t, vaPart3 addr))).1 :=
    h.giveBack fun hv pd k x hT => (h₀.own pd k x _ hT).2 (huser hv)
  exact ⟨hgive.clearEntry ht fun slot => by simp, rfl⟩

/-- **The rounds for a list of addresses** empty each entry once. -/
theorem rounds (h₀ : PtOk all T st₀.vm.pt) {addrs : List ℕ}
    (huser : ∀ a ∈ addrs, ∀ slot, st₀.slotAt st₀.vm.cur a = some slot →
      st₀.vm.entry slot &&& pteValid ≠ 0 →
      p2k (pteAddress (st₀.vm.entry slot)) ∈ st₀.vm.pt.sys.held) :
    ∃ D : List (ℕ × ℕ), D.Nodup ∧
      (∀ slot, slot ∈ D ↔ ∃ a ∈ addrs, st₀.slotAt st₀.vm.cur a = some slot) ∧
      Swept T st₀ D (addrs.foldl sbrkEntry (st₀, [])).1 ∧
      (addrs.foldl sbrkEntry (st₀, [])).2 = D.filterMap fun slot => dueCall (st₀.vm.entry slot) := by
  induction addrs using List.reverseRecOn with
  | nil => exact ⟨[], List.nodup_nil, by simp, Swept.refl h₀, rfl⟩
  | append_singleton addrs addr ih =>
      obtain ⟨D, hnodup, hmem, h, hcalls⟩ := ih fun a ha => huser a (by simp [ha])
      rw [List.foldl_append, List.foldl_cons, List.foldl_nil]
      have hslot := slotAt_eq h₀ st₀.vm.cur addr
      have hsplit : ∀ slot, (∃ a ∈ addrs ++ [addr], st₀.slotAt st₀.vm.cur a = some slot) ↔
          slot ∈ D ∨ st₀.slotAt st₀.vm.cur addr = some slot := by
        intro slot
        rw [hmem]
        simp [or_and_right, exists_or]
      cases ht : T st₀.vm.cur 3 (leafKey addr) with
      | none =>
          rw [ht, Option.map_none] at hslot
          refine ⟨D, hnodup, ?_, ?_, ?_⟩
          · intro slot
            rw [hsplit, hslot]
            simp
          · rw [h.round_none ht]
            exact h
          · rw [h.round_none ht]
            exact hcalls
      | some t =>
          rw [ht, Option.map_some] at hslot
          by_cases hD : (t, vaPart3 addr) ∈ D
          · obtain ⟨hnext, hsame⟩ := h.round_mem ht hD
            refine ⟨D, hnodup, ?_, hnext, hsame.trans hcalls⟩
            intro slot
            rw [hsplit, hslot, Option.some.injEq]
            constructor
            · exact Or.inl
            · rintro (hin | rfl)
              · exact hin
              · exact hD
          · obtain ⟨hnext, hmore⟩ := h.round_notMem h₀ ht hD (huser addr (by simp) _ hslot)
            refine ⟨D ++ [(t, vaPart3 addr)], ?_, ?_, hnext, ?_⟩
            · refine List.nodup_append.mpr ⟨hnodup, List.nodup_singleton _, ?_⟩
              rintro slot hin _ hlast rfl
              exact hD (List.mem_singleton.mp hlast ▸ hin)
            · intro slot
              rw [hsplit, hslot, Option.some.injEq, List.mem_append, List.mem_singleton,
                eq_comm (a := slot)]
            · rw [hmore, hcalls, List.filterMap_append]
              cases hdue : dueCall (st₀.vm.entry (t, vaPart3 addr)) with
              | none => simp [hdue]
              | some call => simp [hdue]

end Swept

/-- The loop comes to the pages from the new end to the old one. -/
theorem mem_pagesBefore {sec : Section} {n : ℕ} (hn : n * pageSize ≤ sec.stop) (a : ℕ) :
    a ∈ pagesBefore sec.stop n ↔ a ∈ ({ sec with start := sec.stop - n * pageSize } : Section).pages := by
  have hcount : (sec.stop - (sec.stop - n * pageSize) + (pageSize - 1)) / pageSize = n := by
    rw [Nat.sub_sub_self hn]
    simp only [pageSize]
    omega
  rw [pagesBefore, Section.pages, hcount]
  simp only [List.mem_map, List.mem_range]
  constructor
  · rintro ⟨k, hk, rfl⟩
    refine ⟨n - 1 - k, by omega, ?_⟩
    simp only [pageSize] at *
    omega
  · rintro ⟨k, hk, rfl⟩
    refine ⟨n - 1 - k, by omega, ?_⟩
    simp only [pageSize] at *
    omega

/-! ## The new end -/

section Resize

variable {all : List ℕ} {T : TableMap} {st : FreeState} {j n : ℕ} {sec : Section}

/-- The section is where it was found. -/
theorem getElem?_heapSection (h : st.vm.heapSection = some (j, sec)) :
    (st.vm.sections st.vm.cur)[j]? = some sec := by
  simp only [Machine.heapSection, Option.bind_eq_bind, Option.bind_eq_some_iff, Option.some.injEq,
    Prod.mk.injEq] at h
  obtain ⟨j', -, sec', hsec, rfl, rfl⟩ := h
  exact hsec

/-- Another end makes another list of sections. -/
theorem set_stop_inj {stop stop' : ℕ} (h : st.vm.heapSection = some (j, sec))
    (heq : Function.update st.vm.sections st.vm.cur ((st.vm.sections st.vm.cur).set j
      { sec with stop := stop }) = Function.update st.vm.sections st.vm.cur
        ((st.vm.sections st.vm.cur).set j { sec with stop := stop' })) : stop = stop' := by
  have hlt := (List.getElem?_eq_some_iff.mp (getElem?_heapSection h)).1
  have hset := congrFun heq st.vm.cur
  rw [Function.update_self, Function.update_self] at hset
  have hsec := congrArg (fun l => l[j]?) hset
  simp only [List.getElem?_set_self hlt, Option.some.injEq, Section.mk.injEq, true_and] at hsec
  exact hsec

/-- **More heap**: nothing but the end changes. -/
theorem resized_grow {size : ℤ} {stop : ℕ} (hsize : 0 ≤ size)
    (hstop : (stop : ℤ) = sec.stop + size * pageSize) (hle : sec.start ≤ sec.stop) :
    Resized st (st.setStop j sec stop) j sec size [] stop := by
  have hge : sec.stop ≤ stop := by
    simp only [pageSize] at hstop
    omega
  constructor
  case exact => exact hstop
  case le => omega
  case sections => rfl
  case grown => exact fun _ => rfl
  case empty => exact fun va hlo hhi => absurd hhi (by omega)
  case kept => exact fun _ _ _ => rfl
  case calls =>
    have hpages : ({ sec with start := stop } : Section).pages = [] := by
      rw [Section.pages, Nat.sub_eq_zero_of_le hge]
      simp [pageSize]
    rw [slotsOf, List.flatMap_singleton, hpages]
    exact List.Perm.nil

/-- The entries of the heap lead to pages that have been handed out. -/
theorem held_of_slotAt {pd a : ℕ} {slot : ℕ × ℕ} (huser : st.vm.UserPages pd)
    (hsec : sec ∈ st.vm.sections pd) (hlo : sec.start ≤ a) (hhi : a < sec.stop)
    (hslot : st.slotAt pd a = some slot) (hvalid : st.vm.entry slot &&& pteValid ≠ 0) :
    p2k (pteAddress (st.vm.entry slot)) ∈ st.vm.pt.sys.held := by
  obtain ⟨⟨slot', rest⟩, hlook, rfl⟩ := Option.bind_eq_some_iff.mp hslot
  exact huser sec hsec a hlo hhi slot rest hlook hvalid

/-- The bounds of a page before the end. -/
theorem bounds_of_mem {a : ℕ} (ha : a ∈ pagesBefore sec.stop n) (hn : n * pageSize ≤ sec.stop) :
    sec.stop - n * pageSize ≤ a ∧ a < sec.stop := by
  obtain ⟨k, hk, rfl⟩ := List.mem_map.mp ha
  rw [List.mem_range] at hk
  simp only [pageSize] at *
  omega

/-- An address beyond the new end lies in one of the pages. -/
theorem page_mem_pagesBefore {va : ℕ} (hstop : sec.stop % pageSize = 0)
    (hlo : sec.stop - n * pageSize ≤ va) (hhi : va < sec.stop) (hn : n * pageSize ≤ sec.stop) :
    va / pageSize * pageSize ∈ pagesBefore sec.stop n := by
  refine List.mem_map.mpr ⟨(sec.stop - va / pageSize * pageSize) / pageSize - 1, ?_, ?_⟩
  · rw [List.mem_range]
    simp only [pageSize] at *
    omega
  · simp only [pageSize] at *
    omega

theorem slotAt_page (h : PtOk all T st.vm.pt) (pd va : ℕ) :
    st.slotAt pd (va / pageSize * pageSize) = st.slotAt pd va := by
  have hvpn : vpn (va / pageSize * pageSize) = vpn va := by
    simp only [vpn, pageSize]
    omega
  rw [slotAt_eq h, slotAt_eq h, ← vpn_div, ← vpn_mod, hvpn, vpn_div, vpn_mod]

/-- **Less heap**: the loop leaves the rest of the section and no page beyond it. -/
theorem resized_shrink (h : PtOk all T st.vm.pt) (hj : st.vm.heapSection = some (j, sec))
    (huser : st.vm.UserPages st.vm.cur) (hstop : sec.stop % pageSize = 0)
    (hn : sec.start + n * pageSize ≤ sec.stop) (hpos : 0 < n) :
    Resized st (((pagesBefore sec.stop n).foldl sbrkEntry (st, [])).1.setStop j sec
      (sec.stop - n * pageSize)) j sec (-n) ((pagesBefore sec.stop n).foldl sbrkEntry (st, [])).2
      (sec.stop - n * pageSize) := by
  have hle : n * pageSize ≤ sec.stop := by omega
  have hheld : ∀ a ∈ pagesBefore sec.stop n, ∀ slot, st.slotAt st.vm.cur a = some slot →
      st.vm.entry slot &&& pteValid ≠ 0 →
      p2k (pteAddress (st.vm.entry slot)) ∈ st.vm.pt.sys.held := by
    intro a ha slot hslot hvalid
    obtain ⟨hlo, hhi⟩ := bounds_of_mem ha hle
    exact held_of_slotAt huser (List.mem_of_getElem? (getElem?_heapSection hj)) (by omega) hhi
      hslot hvalid
  obtain ⟨D, hnodup, hmem, hs, hcalls⟩ := Swept.rounds h hheld
  constructor
  case exact =>
    push_cast [Int.ofNat_sub hle]
    ring
  case le => omega
  case sections =>
    rw [setStop, hs.sections, hs.cur]
  case grown => exact fun hsize => absurd hsize (by omega)
  case empty =>
    intro va hlo hhi
    refine (hs.pteAt st.vm.cur va).trans ?_
    have hslot := slotAt_eq h st.vm.cur va
    cases ht : T st.vm.cur 3 (leafKey va) with
    | none => rfl
    | some t =>
        rw [ht, Option.map_some] at hslot
        have hin : (t, vaPart3 va) ∈ D := (hmem _).mpr ⟨_, page_mem_pagesBefore hstop hlo hhi hle,
          (slotAt_page h _ _).trans hslot⟩
        rw [Option.map_some, Option.getD_some, if_pos hin]
  case kept =>
    intro pd va hne
    refine hs.pteAt_of_notMem h fun t ht hin => ?_
    obtain ⟨a, ha, hslot⟩ := (hmem _).mp hin
    rw [slotAt_eq h, Option.map_eq_some_iff] at hslot
    obtain ⟨t', ht', heq⟩ := hslot
    rw [Prod.mk.injEq] at heq
    obtain ⟨rfl, hpart⟩ := heq
    -- the entry belongs to one page of one directory
    obtain ⟨hpd, -, hkey⟩ := h.tables.inj _ _ _ _ _ _ _ ht' ht
    obtain ⟨hlo, hhi⟩ := bounds_of_mem ha hle
    exact hne hpd.symm a hlo hhi (by rw [vpn_eq, vpn_eq, hkey, hpart])
  case calls =>
    rw [hcalls]
    refine List.Perm.filterMap _ ((List.perm_ext_iff_of_nodup hnodup (List.nodup_dedup _)).mpr ?_)
    intro slot
    rw [hmem, List.mem_dedup, slotsOf, List.flatMap_singleton, List.mem_filterMap]
    simp only [mem_pagesBefore hle]

section Sizes

variable (h : PtOk all T st.vm.pt) (hj : st.vm.heapSection = some (j, sec))
  (hle : sec.start ≤ sec.stop) (hlt : sec.stop < 2 ^ 64) {size : BitVec 64}
include hj hle

theorem sbrkExact_grow_iff (hpos : 0 ≤ size.toInt) :
    SbrkExact st j sec size.toInt (st.sbrk size) ↔ sec.stop + size.toInt * pageSize < 2 ^ 64 := by
  rw [sbrk, hj]
  simp only [if_pos hpos, add_i64]
  constructor
  · rintro ⟨-, stop, hr⟩
    have heq := set_stop_inj hj hr.sections
    have hexact := hr.exact
    omega
  · intro hfits
    refine ⟨rfl, _, resized_grow hpos ?_ hle⟩
    rw [Int.emod_eq_of_lt (by simp only [pageSize]; omega) hfits]
    simp only [pageSize]
    omega

include h hlt

theorem sbrkExact_shrink_iff (huser : st.vm.UserPages st.vm.cur) (hstop : sec.stop % pageSize = 0)
    (hneg : ¬ 0 ≤ size.toInt) : SbrkExact st j sec size.toInt (st.sbrk size) ↔
      -(size.toInt * pageSize) < 2 ^ 63 ∨
        i64 (sec.stop - sec.start) < i64 (-(size.toInt * pageSize)) := by
  have hlo : -(size.toInt * pageSize) > 0 := by
    simp only [pageSize]
    omega
  have hexact : -(size.toInt * pageSize) < 2 ^ 63 →
      i64 (-(size.toInt * pageSize)) = -(size.toInt * pageSize) := i64_of_fits (by omega)
  have hpages : i64 (-(size.toInt * pageSize)) % pageSize = 0 := by
    rw [← Int.neg_mul]
    exact i64_pages _
  have hwlt := i64_lt (-(size.toInt * pageSize))
  have hroom : i64 (sec.stop - sec.start) ≤ sec.stop - sec.start := i64_le (by omega)
  rw [sbrk, hj]
  simp only [if_neg hneg, i64_neg]
  set w := i64 (-(size.toInt * pageSize))
  by_cases hmore : w ≤ i64 (sec.stop - sec.start)
  · rw [if_pos hmore]
    by_cases hnone : w ≤ 0
    · -- nothing is left of the bytes to remove
      rw [sbrkLoop_of_nonpos hnone]
      constructor
      · rintro ⟨-, stop, hr⟩
        have heq := set_stop_inj hj hr.sections
        have := hr.exact
        omega
      · rintro (hfits | hless)
        · omega
        · omega
    · obtain ⟨n, hn⟩ : ∃ n : ℕ, w = (n : ℤ) * pageSize := by
        refine ⟨(w / pageSize).toNat, ?_⟩
        simp only [pageSize] at *
        omega
      have hbound : sec.start + n * pageSize ≤ sec.stop := by
        simp only [pageSize] at *
        omega
      have hsome : 0 < n := by
        simp only [pageSize] at *
        omega
      have hshrink := resized_shrink h hj huser hstop hbound hsome
      rw [hn, sbrkLoop_eq (by omega) hlt]
      constructor
      · rintro ⟨-, stop, hr⟩
        left
        have heq := set_stop_inj hj (hshrink.sections.symm.trans hr.sections)
        have := hr.exact
        simp only [pageSize] at *
        omega
      · rintro (hfits | hless)
        · have hsize : size.toInt = -n := by
            have := hexact hfits
            simp only [pageSize] at *
            omega
          rw [hsize]
          exact ⟨rfl, _, hshrink⟩
        · omega
  · rw [if_neg hmore]
    exact ⟨fun _ => Or.inr (by omega), fun _ => rfl⟩

/-- **`sbrk` is exact for the sizes for which machine arithmetic does not matter**, and for no
others. -/
theorem sbrkExact_iff (huser : st.vm.UserPages st.vm.cur) (hstop : sec.stop % pageSize = 0)
    (size : BitVec 64) :
    SbrkExact st j sec size.toInt (st.sbrk size) ↔ SbrkFits sec size.toInt := by
  rw [SbrkFits]
  split_ifs with hpos
  · exact sbrkExact_grow_iff hj hle hpos
  · exact sbrkExact_shrink_iff h hj hle hlt huser hstop hpos

end Sizes

end Resize

end FreeState

/-- **`sbrk` is exact, or panics, exactly for the sizes for which machine arithmetic does not
matter.** -/
theorem sbrk_exact_iff {e : ℕ} {mem : ℕ → Bytes 4096} {st : FreeState} {j : ℕ} {sec : Section}
    (he : kspaceMask ≤ e)
    (h : Reach PtSys.step (fun _ _ => True) (PtSys.start (PageMem.init e mem)) st.vm.pt)
    (huser : st.vm.UserPages st.vm.cur) (hj : st.vm.heapSection = some (j, sec))
    (hstop : sec.stop % pageSize = 0) (hle : sec.start ≤ sec.stop) (hlt : sec.stop < 2 ^ 64)
    (size : BitVec 64) :
    SbrkExact st j sec size.toInt (st.sbrk size) ↔ SbrkFits sec size.toInt := by
  obtain ⟨T, hT⟩ := exists_ptOk he h
  exact FreeState.sbrkExact_iff hT hj hle hlt huser hstop size

/-- The one page of a heap is removed and given back. -/
theorem sbrk_exact_one : ∃ s, OnePage s .zero ∧
    SbrkExact (OnePage.heapTo s pageSize) 0 ⟨stHeap, 0, pageSize⟩ (-1)
      ((OnePage.heapTo s pageSize).sbrk (-1)) := by
  obtain ⟨s, h⟩ := exists_onePage .zero
  refine ⟨s, h, (sbrk_exact_iff (by decide) h.run ?_ rfl rfl (by decide) (by decide) (-1)).mpr
    (Or.inl ?_)⟩
  · rw [show (OnePage.heapTo s pageSize).vm.cur = 0 from h.cur]
    exact h.userPages (by decide)
  · decide

/-- With `2^52` pages nothing is added to the heap, and nobody is told. -/
theorem sbrk_wraps : ¬ ∀ (e : ℕ) (mem : ℕ → Bytes 4096) (st : FreeState) (j : ℕ) (sec : Section),
    kspaceMask ≤ e →
    Reach PtSys.step (fun _ _ => True) (PtSys.start (PageMem.init e mem)) st.vm.pt →
    st.vm.UserPages st.vm.cur → st.vm.heapSection = some (j, sec) → sec.start % pageSize = 0 →
    sec.stop % pageSize = 0 → sec.start ≤ sec.stop → sec.stop < 2 ^ 64 → ∀ size : BitVec 64,
      SbrkExact st j sec size.toInt (st.sbrk size) := by
  intro hclaim
  obtain ⟨s, h⟩ := exists_onePage .zero
  obtain ⟨T, hT⟩ := exists_ptOk (by decide) h.run
  have huser : (OnePage.heapTo s pageSize).vm.UserPages (OnePage.heapTo s pageSize).vm.cur := by
    rw [show (OnePage.heapTo s pageSize).vm.cur = 0 from h.cur]
    exact h.userPages (by decide)
  have hexact := hclaim _ _ (OnePage.heapTo s pageSize) 0 ⟨stHeap, 0, pageSize⟩ (by decide) h.run
    huser rfl rfl rfl (by decide) (by decide) (BitVec.ofNat 64 (2 ^ 52))
  have hfits := (FreeState.sbrkExact_iff hT rfl (by decide) (by decide) huser rfl _).mp hexact
  rw [SbrkFits, if_pos (by decide)] at hfits
  exact absurd hfits (by decide)

end OsLab
