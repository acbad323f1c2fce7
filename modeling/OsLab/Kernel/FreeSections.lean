import OsLab.Kernel.SwapTrip
import OsLab.Kernel.Lifecycle

/-!
# What `free_sections` gives back

The calls that `free_sections` of `kernel/paging.c` makes, in order: for each page of a
section that has a table, `release_8_blocks` for an entry that is not zero and not valid,
and `kfree_page` otherwise.  So a page that was never touched, but shares its table with one
that was, is given back, too: its entry is zero, and the page at physical address 0 goes
into the queue.

The addresses of a section are user addresses, and the loop over them does not wrap around.

## Main definitions

* `FreeCall`, `FreeState.freeSectionsCalls` — the function, with its calls.
* `FreeState.slots` — the entries that it comes to.
* `FreesExactly` — each entry in use is given back once, and nothing else.
* `free_sections_exact` — when it is so.
-/

namespace OsLab

inductive FreeCall
  | kfreePage (p : ℕ)
  | release8Blocks (bno : ℕ)
  deriving DecidableEq, Repr

/-- The pages of a section. -/
def Section.pages (sec : Section) : List ℕ :=
  (List.range ((sec.stop - sec.start + (pageSize - 1)) / pageSize)).map fun k =>
    sec.start + k * pageSize

namespace FreeState

/-- One round of the loop of `free_sections`, as `freeEntry` -/
def freeEntryCalls (pd : ℕ) (r : FreeState × List FreeCall) (addr : ℕ) :
    FreeState × List FreeCall :=
  match r.1.vm.pt.lookup pd addr with
  | some (some slot, _) =>
      let pte := r.1.vm.entry slot
      if pte &&& pteValid = 0 ∧ pte ≠ 0 then
        ({ r.1 with vm := { r.1.vm with swapValid := release8Blocks r.1.vm.swapValid (pte >>> 12) } },
          r.2 ++ [.release8Blocks (pte >>> 12)])
      else (r.1.kfreePage (p2k (pteAddress pte)), r.2 ++ [.kfreePage (p2k (pteAddress pte))])
  | _ => r

/-- The first section, as `freeSection` -/
def freeSectionCalls (pd : ℕ) (r : FreeState × List FreeCall) (sec : Section) :
    FreeState × List FreeCall :=
  let r := sec.pages.foldl (freeEntryCalls pd) r
  ({ r.1 with vm := { r.1.vm with
      sections := Function.update r.1.vm.sections pd (r.1.vm.sections pd).tail } }, r.2)

/-- `free_sections(pd)` with its calls -/
def freeSectionsCalls (pd : ℕ) (st : FreeState) : FreeState × List FreeCall :=
  (st.vm.sections pd).foldl (freeSectionCalls pd) (st, [])

/-- The slot for an address, if there is a table for it. -/
def slotAt (st : FreeState) (pd addr : ℕ) : Option (ℕ × ℕ) :=
  (st.vm.pt.lookup pd addr).bind Prod.fst

/-- The slots for the pages of a list of sections. -/
def slotsOf (st : FreeState) (pd : ℕ) (secs : List Section) : List (ℕ × ℕ) :=
  secs.flatMap fun sec => sec.pages.filterMap (st.slotAt pd)

/-- The slots for the pages of the sections of a directory. -/
def slots (st : FreeState) (pd : ℕ) : List (ℕ × ℕ) := st.slotsOf pd (st.vm.sections pd)

end FreeState

/-- The call that is made for an entry. -/
def madeCall (pte : ℕ) : FreeCall :=
  if pte &&& pteValid = 0 ∧ pte ≠ 0 then .release8Blocks (pte >>> 12)
  else .kfreePage (p2k (pteAddress pte))

/-- The call that an entry asks for: its page or its run is given back, and nothing for zero. -/
def dueCall (pte : ℕ) : Option FreeCall :=
  if pte = 0 then none
  else if pte &&& pteValid = 0 then some (.release8Blocks (pte >>> 12))
  else some (.kfreePage (p2k (pteAddress pte)))

/-- **Each entry in use is given back once**, and the list of sections is empty. -/
structure FreesExactly (st : FreeState) (pd : ℕ) : Prop where
  calls : (st.freeSectionsCalls pd).2.Perm
    ((st.slots pd).dedup.filterMap fun slot => dueCall (st.vm.entry slot))
  sections : (st.freeSectionsCalls pd).1.vm.sections pd = []

theorem dueCall_of_ne {pte : ℕ} (h : pte ≠ 0) : dueCall pte = some (madeCall pte) := by
  rw [dueCall, madeCall, if_neg h]
  split_ifs with hv hboth hboth
  · rfl
  · exact absurd ⟨hv, h⟩ hboth
  · exact absurd hboth.1 hv
  · rfl

theorem dueCall_zero : dueCall 0 = none := rfl

namespace FreeState

variable {all : List ℕ} {T : TableMap} {st₀ st : FreeState} {r : FreeState × List FreeCall}
  {pd addr : ℕ} {secs : List Section} {sec : Section}

/-! ## The function without its calls -/

theorem freeEntryCalls_fst : (freeEntryCalls pd r addr).1 = freeEntry pd r.1 addr := by
  rw [freeEntryCalls, freeEntry]
  cases r.1.vm.pt.lookup pd addr with
  | none => rfl
  | some o =>
      obtain ⟨slot, rest⟩ := o
      cases slot with
      | none => rfl
      | some slot =>
          simp only
          split_ifs
          · rfl
          · rfl

theorem foldl_freeEntryCalls_fst (addrs : List ℕ) :
    (addrs.foldl (freeEntryCalls pd) r).1 = addrs.foldl (freeEntry pd) r.1 := by
  induction addrs generalizing r with
  | nil => rfl
  | cons addr addrs ih => rw [List.foldl_cons, List.foldl_cons, ih, freeEntryCalls_fst]

theorem freeSectionCalls_fst : (freeSectionCalls pd r sec).1 = freeSection pd r.1 sec := by
  have hfold : (sec.pages.foldl (freeEntryCalls pd) r).1 =
      (List.range ((sec.stop - sec.start + (pageSize - 1)) / pageSize)).foldl
        (fun st k => freeEntry pd st (sec.start + k * pageSize)) r.1 := by
    rw [foldl_freeEntryCalls_fst, Section.pages, List.foldl_map]
  rw [freeSectionCalls, freeSection, ← hfold]

theorem foldl_freeSectionCalls_fst :
    (secs.foldl (freeSectionCalls pd) r).1 = secs.foldl (freeSection pd) r.1 := by
  induction secs generalizing r with
  | nil => rfl
  | cons sec secs ih => rw [List.foldl_cons, List.foldl_cons, ih, freeSectionCalls_fst]

/-- **Without its calls it is `freeSections`.** -/
theorem freeSectionsCalls_fst : (freeSectionsCalls pd st).1 = freeSections pd st := by
  rw [freeSectionsCalls, foldl_freeSectionCalls_fst, freeSections]

/-! ## The list of sections -/

theorem setSwapValid_sections (valid : ℕ → Bool) :
    ({ st with vm := { st.vm with swapValid := valid } } : FreeState).vm.sections =
      st.vm.sections := rfl

theorem kfreePage_sections (p : ℕ) : (st.kfreePage p).vm.sections = st.vm.sections := rfl

theorem freeEntry_sections : (freeEntry pd st addr).vm.sections = st.vm.sections := by
  rw [freeEntry]
  cases st.vm.pt.lookup pd addr with
  | none => simp only
  | some o =>
      obtain ⟨slot, rest⟩ := o
      cases slot with
      | none => simp only
      | some slot =>
          simp only
          split_ifs
          · apply setSwapValid_sections
          · apply kfreePage_sections

theorem freeSection_sections :
    (freeSection pd st sec).vm.sections pd = (st.vm.sections pd).tail := by
  have hfold : ∀ l : List ℕ, (l.foldl (fun st k =>
      freeEntry pd st (sec.start + k * pageSize)) st).vm.sections = st.vm.sections := by
    intro l
    induction l generalizing st with
    | nil => rfl
    | cons k l ih => rw [List.foldl_cons, ih, freeEntry_sections]
  simp only [freeSection, hfold, Function.update_self]

/-- As many sections are gone as were freed. -/
theorem foldl_freeSection_sections :
    (secs.foldl (freeSection pd) st).vm.sections pd = (st.vm.sections pd).drop secs.length := by
  induction secs generalizing st with
  | nil => rfl
  | cons sec secs ih =>
      rw [List.foldl_cons, ih, freeSection_sections, List.length_cons, List.drop_tail]

theorem freeSections_sections : (freeSections pd st).vm.sections pd = [] := by
  rw [freeSections, foldl_freeSection_sections, List.drop_length]

/-! ## The calls -/

theorem slotAt_eq (h₀ : PtOk all T st.vm.pt) (pd addr : ℕ) :
    st.slotAt pd addr = (T pd 3 (leafKey addr)).map fun t => (t, vaPart3 addr) := by
  rw [slotAt, h₀.lookup_eq]
  rfl

/-- **One round makes the call for the entry as it was at first.** -/
theorem freeEntryCalls_snd (h : Cleared all T st₀ r.1) (h₀ : PtOk all T st₀.vm.pt) :
    (freeEntryCalls pd r addr).2 =
      r.2 ++ (st₀.slotAt pd addr).toList.map fun slot => madeCall (st₀.vm.entry slot) := by
  have hlook := h.lookup pd addr
  rw [slotAt_eq h₀, freeEntryCalls]
  cases ht : T pd 3 (leafKey addr) with
  | none =>
      rw [ht] at hlook
      rw [hlook]
      simp
  | some t =>
      rw [ht] at hlook
      have hentry := h.entry (vaPart3 addr) ht
      rw [hlook]
      simp only [Option.map_some, Option.toList_some, List.map_cons, List.map_nil, ← hentry,
        madeCall]
      split_ifs
      · rfl
      · rfl

section Calls

variable (h₀ : PtOk all T st₀.vm.pt) (hzero : p2k 0 ∉ all) (huser : st₀.vm.UserPages pd)
include h₀ hzero huser

/-- The calls for a section. -/
theorem freeSectionCalls_snd (h : Cleared all T st₀ r.1) (hsec : sec ∈ st₀.vm.sections pd) :
    (freeSectionCalls pd r sec).2 = r.2 ++ (sec.pages.filterMap (st₀.slotAt pd)).map fun slot =>
      madeCall (st₀.vm.entry slot) := by
  have hrounds : ∀ n, n ≤ (sec.stop - sec.start + (pageSize - 1)) / pageSize →
      (((List.range n).map fun k => sec.start + k * pageSize).foldl (freeEntryCalls pd) r).2 =
        r.2 ++ (((List.range n).map fun k => sec.start + k * pageSize).filterMap
          (st₀.slotAt pd)).map fun slot => madeCall (st₀.vm.entry slot) := by
    intro n hn
    induction n with
    | zero => simp
    | succ n ih =>
        have hclear : Cleared all T st₀ (((List.range n).map fun k =>
            sec.start + k * pageSize).foldl (freeEntryCalls pd) r).1 := by
          rw [foldl_freeEntryCalls_fst, List.foldl_map]
          exact h.rounds h₀ hzero huser hsec (by omega)
        rw [List.range_succ, List.map_append, List.foldl_append, List.map_singleton,
          List.foldl_cons, List.foldl_nil, freeEntryCalls_snd hclear h₀, ih (by omega),
          List.filterMap_append, List.map_append, List.append_assoc]
        cases hs : st₀.slotAt pd (sec.start + n * pageSize) with
        | none => simp [hs]
        | some slot => simp [hs]
  exact hrounds _ le_rfl

/-- **The calls of `free_sections`**: one for each slot it comes to. -/
theorem freeSectionsCalls_snd (hst : st₀ = st) : (freeSectionsCalls pd st).2 =
    (st.slots pd).map fun slot => madeCall (st.vm.entry slot) := by
  subst hst
  have hfold : ∀ (secs : List Section) (r : FreeState × List FreeCall),
      secs ⊆ st₀.vm.sections pd → Cleared all T st₀ r.1 →
      (secs.foldl (freeSectionCalls pd) r).2 =
        r.2 ++ (st₀.slotsOf pd secs).map fun slot => madeCall (st₀.vm.entry slot) := by
    intro secs
    induction secs with
    | nil =>
        intro r _ _
        simp [slotsOf]
    | cons sec secs ih =>
        intro r hsub h
        have hsec : sec ∈ st₀.vm.sections pd := hsub (by simp)
        have hnext : Cleared all T st₀ (freeSectionCalls pd r sec).1 := by
          rw [freeSectionCalls_fst]
          exact h.freeSection h₀ hzero huser hsec
        rw [List.foldl_cons, ih _ (fun x hx => hsub (List.mem_cons_of_mem _ hx)) hnext,
          freeSectionCalls_snd h₀ hzero huser h hsec, slotsOf, slotsOf, List.flatMap_cons,
          List.map_append, List.append_assoc]
  have hcalls := hfold (st₀.vm.sections pd) (st₀, []) (List.Subset.refl _) (Cleared.refl h₀)
  rw [List.nil_append] at hcalls
  exact hcalls

end Calls

/-- **When each entry in use is given back once.**  A round that comes to an empty entry, or to an
entry a second time, is one call too many. -/
theorem freesExactly_iff (h : PtOk all T st.vm.pt) (hzero : p2k 0 ∉ all)
    (huser : st.vm.UserPages pd) : FreesExactly st pd ↔
      (∀ slot ∈ st.slots pd, st.vm.entry slot ≠ 0) ∧ (st.slots pd).Nodup := by
  have hcalls := freeSectionsCalls_snd h hzero huser rfl
  constructor
  · intro hfree
    have hlen := hfree.calls.length_eq
    rw [hcalls, List.length_map] at hlen
    have hdedup : (st.slots pd).dedup.length ≤ (st.slots pd).length :=
      (List.dedup_sublist _).length_le
    have hdue := List.length_filterMap_le (fun slot => dueCall (st.vm.entry slot))
      (st.slots pd).dedup
    constructor
    · intro slot hslot h0
      -- the call for this entry is not one that is due
      have hsome := List.filterMap_length_eq_length.mp (by omega :
        ((st.slots pd).dedup.filterMap fun slot => dueCall (st.vm.entry slot)).length =
          (st.slots pd).dedup.length) slot (List.mem_dedup.mpr hslot)
      rw [h0, dueCall_zero] at hsome
      cases hsome
    · rw [← (List.dedup_sublist (st.slots pd)).eq_of_length (by omega)]
      exact List.nodup_dedup _
  · rintro ⟨hne, hnodup⟩
    constructor
    case calls =>
      have hsame : (st.slots pd).filterMap (fun slot => dueCall (st.vm.entry slot)) =
          (st.slots pd).filterMap fun slot => some (madeCall (st.vm.entry slot)) :=
        List.filterMap_congr fun slot hslot => dueCall_of_ne (hne slot hslot)
      rw [hcalls, hnodup.dedup, hsame, List.filterMap_eq_map']
    case sections => rw [freeSectionsCalls_fst, freeSections_sections]

end FreeState

/-- **`free_sections` gives each entry in use back once, and nothing else, exactly when no page of
the sections has an empty entry in a table and no entry belongs to two pages.**  The list of
sections is empty afterwards in any case. -/
theorem free_sections_exact {e : ℕ} {mem : ℕ → Bytes 4096} {st : FreeState} {pd : ℕ}
    (he : kspaceMask ≤ e)
    (h : Reach PtSys.step (fun _ _ => True) (PtSys.start (PageMem.init e mem)) st.vm.pt)
    (huser : st.vm.UserPages pd) : FreesExactly st pd ↔
      (∀ slot ∈ st.slots pd, st.vm.entry slot ≠ 0) ∧ (st.slots pd).Nodup := by
  obtain ⟨T, hT⟩ := exists_ptOk he h
  refine FreeState.freesExactly_iff hT ?_ huser
  intro h0
  have hlt := PageMem.lt_of_mem_init he h0
  rw [p2k] at hlt
  omega

/-! ## A heap of one page and one of two -/

namespace OnePage

variable {s : Machine} {c : Bytes 4096}

/-- The heap with another end. -/
def heapTo (s : Machine) (stop : ℕ) : FreeState :=
  ⟨{ s with sections := fun _ => [⟨stHeap, 0, stop⟩] }, [], true⟩

theorem userPages (h : OnePage s c) {stop : ℕ} (hstop : stop ≤ 2 * pageSize) :
    (heapTo s stop).vm.UserPages 0 := by
  obtain ⟨T, hT⟩ := exists_ptOk (by decide) h.run
  intro sec hsec addr _ haddr slot rest hlook hvalid
  obtain rfl : sec = ⟨stHeap, 0, stop⟩ := List.mem_singleton.mp hsec
  have hpte : s.pteAt 0 addr = s.entry slot := by
    rw [Machine.pteAt, show s.pt.lookup 0 addr = some (some slot, rest) from hlook]
  have hsame : ∀ va, vpn va = vpn addr → s.pteAt 0 va = s.entry slot := by
    intro va hva
    rw [← hpte, Machine.pteAt_eq hT, Machine.pteAt_eq hT, hva]
  simp only [pageSize] at hstop haddr
  rcases (by omega : addr < 4096 ∨ 4096 ≤ addr ∧ addr < 8192) with hlt | hge
  · have hheld := h.held
    rw [Machine.pageAt, hsame 0 (by simp only [vpn]; omega)] at hheld
    exact hheld
  · have hempty := h.empty
    rw [hsame pageSize (by simp only [vpn, pageSize]; omega)] at hempty
    exact absurd (by rw [show (heapTo s stop).vm.entry slot = 0 from hempty, Nat.zero_and]) hvalid

/-- The two pages have slots in one table. -/
theorem exists_slot (h : OnePage s c) {k : ℕ} (hk : k < 2) (stop : ℕ) : ∃ slot,
    (heapTo s stop).slotAt 0 (k * pageSize) = some slot ∧ s.entry slot = s.pteAt 0 (k * pageSize) := by
  obtain ⟨T, hT⟩ := exists_ptOk (by decide) h.run
  have hleaf : ∀ k, k < 2 → leafKey (k * pageSize) = 0 := by
    intro k hk
    rw [leafKey_eq, pageSize]
    omega
  cases ht : T 0 3 0 with
  | none =>
      -- the first page has an entry
      have hvalid := h.valid
      rw [Machine.pteAt, hT.lookup_eq, show leafKey 0 = 0 by decide, ht, Option.map_none,
        Nat.zero_and] at hvalid
      exact absurd rfl hvalid
  | some t =>
      refine ⟨(t, vaPart3 (k * pageSize)), ?_, ?_⟩
      · have hslot : (heapTo s stop).slotAt 0 (k * pageSize) =
            (T 0 3 (leafKey (k * pageSize))).map fun t => (t, vaPart3 (k * pageSize)) :=
          FreeState.slotAt_eq hT 0 (k * pageSize)
        rw [hslot, hleaf k hk, ht, Option.map_some]
      · rw [Machine.pteAt, hT.lookup_eq, hleaf k hk, ht, Option.map_some]

end OnePage

/-- The one page of a heap is given back. -/
theorem free_sections_exact_one : ∃ s, OnePage s .zero ∧
    FreesExactly (OnePage.heapTo s pageSize) 0 := by
  obtain ⟨s, h⟩ := exists_onePage .zero
  obtain ⟨slot, hslot, hentry⟩ := h.exists_slot (k := 0) (by decide) pageSize
  have hslots : (OnePage.heapTo s pageSize).slots 0 = [slot] := by
    have hpages : Section.pages ⟨stHeap, 0, pageSize⟩ = [0 * pageSize] := by decide
    rw [FreeState.slots, OnePage.heapTo, FreeState.slotsOf, List.flatMap_singleton, hpages]
    exact List.filterMap_cons_some hslot
  refine ⟨s, h, (free_sections_exact (by decide) h.run (h.userPages (by decide))).mpr ?_⟩
  rw [hslots]
  refine ⟨?_, List.nodup_singleton slot⟩
  intro slot' hmem h0
  rw [List.mem_singleton.mp hmem] at h0
  have hpte : s.pteAt 0 0 = 0 := by rw [show s.pteAt 0 0 = s.entry slot from hentry.symm]; exact h0
  exact h.valid (by rw [hpte, Nat.zero_and])

/-- In a heap of two pages the second has not been touched; the page at physical address 0 is
given back for it. -/
theorem free_sections_untouched : ¬ ∀ (e : ℕ) (mem : ℕ → Bytes 4096) (st : FreeState) (pd : ℕ),
    kspaceMask ≤ e →
    Reach PtSys.step (fun _ _ => True) (PtSys.start (PageMem.init e mem)) st.vm.pt →
    st.vm.UserPages pd → FreesExactly st pd := by
  intro hclaim
  obtain ⟨s, h⟩ := exists_onePage .zero
  have huser := h.userPages (le_refl (2 * pageSize))
  obtain ⟨T, hT⟩ := exists_ptOk (by decide) h.run
  obtain ⟨slot, hslot, hentry⟩ := h.exists_slot (k := 1) (by decide) (2 * pageSize)
  have hzero : p2k 0 ∉ (PageMem.init (p2k (2 ^ 21)) fun _ => .zero).pages := by
    intro h0
    exact absurd (PageMem.lt_of_mem_init (by decide) h0) (by decide)
  have hexact := hclaim _ _ (OnePage.heapTo s (2 * pageSize)) 0 (by decide) h.run huser
  refine ((FreeState.freesExactly_iff hT hzero huser).mp hexact).1 slot ?_ ?_
  · rw [FreeState.slots, OnePage.heapTo, FreeState.slotsOf, List.flatMap_singleton, List.mem_filterMap]
    exact ⟨1 * pageSize, by decide, hslot⟩
  · have hempty := h.empty
    rw [← Nat.one_mul pageSize] at hempty
    exact hentry.trans hempty

end OsLab
