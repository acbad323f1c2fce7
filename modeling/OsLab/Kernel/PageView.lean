import OsLab.Kernel.FreshPage

/-!
# What a machine shows while its tables stay where they are

Swapping makes no page table: it changes entries of tables that are there, the contents
of pages and of swap blocks, and who has which page.  `View` keeps just that.  An entry
is found by its directory and the number of its page, and the tables that hold the
entries are left out of memory, so writing an entry changes nothing else.

Each call that the loops of `swapout` and `swapin` make is described by what it does to
the view (`Goes`).

## Main definitions

* `View`, `Machine.view` — what a machine shows.
* `View.store`, `View.giveBack`, `View.take`, `View.fill` — what the calls do to it.
* `Goes` — the tables stay, and the view becomes another one.
-/

namespace OsLab

/-- A page that holds entries of the last level. -/
def IsLeaf (T : TableMap) (p : ℕ) : Prop := ∃ pd x, T pd 3 x = some p

/-- What a machine shows while its tables stay where they are. -/
@[ext]
structure View where
  cur : ℕ
  image : ℕ
  sections : ℕ → List Section
  /-- the entry of a directory for the number of a page -/
  entry : ℕ → ℕ → ℕ
  mem : ℕ → Bytes 4096
  free : List ℕ
  held : List ℕ
  allocPageCnt : ℤ
  zeroPage : Option ℕ
  swapValid : ℕ → Bool
  disk : ℕ → Bytes 512

namespace View

/-- An entry is written. -/
def store (v : View) (pd x e : ℕ) : View :=
  { v with entry := fun pd' x' => if pd' = pd ∧ x' = x then e else v.entry pd' x' }

/-- A page goes back to the queue. -/
def giveBack (v : View) (p : ℕ) : View :=
  { v with
    free := p :: v.free
    held := v.held.erase p
    allocPageCnt := v.allocPageCnt - 1
    mem := Function.update v.mem p ((v.mem p).setWord 0 8 (v.free.headD 0)) }

/-- Page `p`, the first of the queue `p :: ps`, is handed out. -/
def take (v : View) (p : ℕ) (ps : List ℕ) : View :=
  { v with free := ps, held := p :: v.held, allocPageCnt := v.allocPageCnt + 1 }

/-- A page gets new contents. -/
def fill (v : View) (p : ℕ) (c : Bytes 4096) : View :=
  { v with mem := Function.update v.mem p c }

end View

open Classical in
/-- What `s` shows, with the tables `T`. -/
noncomputable def Machine.view (T : TableMap) (s : Machine) : View where
  cur := s.cur
  image := s.image
  sections := s.sections
  entry := s.pt.last
  mem := fun p => if IsLeaf T p then .zero else s.mem p
  free := s.pt.sys.m.pages
  held := s.pt.sys.held
  allocPageCnt := s.pt.sys.m.allocPageCnt
  zeroPage := s.pt.sys.m.zeroPage
  swapValid := s.swapValid
  disk := s.disk

/-- The tables stay where they are, pointers to entries stay good, and `s'` shows `v`. -/
structure Goes (all : List ℕ) (T : TableMap) (s s' : Machine) (v : View) : Prop where
  ok : PtOk all T s'.pt
  ptrs : s.pt.ptrs ⊆ s'.pt.ptrs
  view : s'.view T = v

/-! ## Entries -/

/-- The last table is the one on record, and nothing is made on the way. -/
theorem Tables.walk_found {T : TableMap} {root : ℕ → ℕ} {m : PageMem} {pd a b c t : ℕ}
    (h : Tables T root m) (ha : a < 512) (hb : b < 512) (hc : c < 512)
    (ht : T pd 3 (pre a b c 3) = some t) (alloc : Bool) :
    m.walk (root pd) [a, b, c] alloc = some (some t, root pd, m) := by
  have hup := h.parent pd 2 (pre a b c 3) (by simp [ht])
  obtain ⟨pt2, h2⟩ := Option.ne_none_iff_exists'.mp hup.2
  rw [show pre a b c 3 / 512 = a * 512 + b by simp only [pre]; omega] at h2
  have hup := h.parent pd 1 (a * 512 + b) (by simp [h2])
  obtain ⟨pt1, h1⟩ := Option.ne_none_iff_exists'.mp hup.2
  rw [show (a * 512 + b) / 512 = a by omega] at h1
  have hup := h.parent pd 0 a (by simp [h1])
  obtain ⟨pt0, h0⟩ := Option.ne_none_iff_exists'.mp hup.2
  rw [show a / 512 = 0 by omega] at h0
  have e1 := h.nextTable_some h0 (by omega) ha (by simpa using h1) alloc
  have e2 := h.nextTable_some h1 (by omega) hb h2 alloc
  have e3 := h.nextTable_some h2 (by omega) hc ht alloc
  have hroot : root pd = pt0 := by rw [h.root pd, h0, Option.getD_some]
  rw [hroot, PageMem.walk_of_ne (h.good _ _ _ _ h0).ne_zero, PageMem.descend_cons e1,
    PageMem.descend_cons e2, PageMem.descend_cons e3]
  rfl

namespace PtOk

variable {all : List ℕ} {T : TableMap} {s s' : PtSys} {pd va x t i v p : ℕ} {slot : ℕ × ℕ}

/-- A pointer leads to the entry it was returned for. -/
theorem entry_ptr (h : PtOk all T s) (slot : ℕ × ℕ) (hmem : (slot, pd, x) ∈ s.ptrs) :
    s.sys.m.pte slot.1 slot.2 = s.last pd x := by
  obtain ⟨ht, hi⟩ := h.ptrs slot.1 slot.2 pd x hmem
  rw [h.leaf pd (x / 512) slot.1 slot.2 ht (by omega), hi]
  congr 1
  omega

/-- `*pte = v` writes the entry that the pointer was returned for. -/
theorem step_write (h : PtOk all T s) (hmem : (slot, pd, x) ∈ s.ptrs) (v : ℕ) :
    s.step (.write slot v) =
      some ((s.setMem (s.sys.m.setPte slot.1 slot.2 (v % 2 ^ 64))).record pd x (v % 2 ^ 64)) := by
  obtain ⟨ht, hi⟩ := h.ptrs slot.1 slot.2 pd x hmem
  have hfind : (s.ptrs.find? fun p => p.1 = slot).isSome := by
    rw [List.find?_isSome]
    exact ⟨_, hmem, by simp⟩
  obtain ⟨⟨slot', pd', x'⟩, hf⟩ := Option.isSome_iff_exists.mp hfind
  have hslot : slot' = slot := by simpa using List.find?_some hf
  subst hslot
  -- another pointer to the same slot was returned for the same page
  obtain ⟨ht', hi'⟩ := h.ptrs slot'.1 slot'.2 pd' x' (List.mem_of_find?_eq_some hf)
  obtain ⟨rfl, -, hx⟩ := h.tables.inj _ _ _ _ _ _ _ ht ht'
  obtain rfl : x = x' := by omega
  rw [PtSys.step, hf]
  rfl

/-- `vmmap` where the table is there writes an entry. -/
theorem step_vmmap (h : PtOk all T s) (ht : T pd 3 (leafKey va) = some t) (ka flags : ℕ) :
    s.step (.vmmap pd va ka flags) = some ((({ s.setMem (s.sys.m.setPte t (vaPart3 va)
      ((k2p ka ||| flags ||| pteValid) % 2 ^ 64)) with root := s.root }).touch pd (vpn va)).record
        pd (vpn va) ((k2p ka ||| flags ||| pteValid) % 2 ^ 64)) := by
  have hw := h.tables.walk_found (vaPart0_lt va) (vaPart1_lt va) (vaPart2_lt va) ht true
  simp [PtSys.step, PageMem.vmmap, PageMem.getPte, hw]

/-- A call with `alloc` for a table that is there is no news. -/
theorem touch (h : PtOk all T s) (ht : T pd 3 (x / 512) ≠ none) : PtOk all T (s.touch pd x) := by
  obtain ⟨h1, h2, h3, h4, h5, h6, h7, h8⟩ := h
  refine ⟨h1, h2, h3, h4, h5, h6, ?_, h8⟩
  intro pd' y
  rw [← h7]
  simp only [PtSys.touch, Bool.or_eq_true, decide_eq_true_eq, or_iff_right_iff_imp]
  rintro ⟨rfl, rfl⟩
  exact (h7 _ _).mpr ht

/-- A page that somebody has holds no entries. -/
theorem not_isLeaf (h : PtOk all T s) (hp : p ∈ s.sys.held) : ¬ IsLeaf T p := by
  rintro ⟨pd, x, ht⟩
  exact (h.own pd 3 x p ht).2 hp

end PtOk

/-! ## What the calls show -/

namespace Machine

variable {all : List ℕ} {T : TableMap} {s s' t u : Machine} {v w : View} {pd va x p e : ℕ}
  {slot : ℕ × ℕ}

theorem view_mem (hp : ¬ IsLeaf T p) : (s.view T).mem p = s.mem p := if_neg hp

end Machine

namespace Goes

variable {all : List ℕ} {T : TableMap} {s t u : Machine} {v w : View}

theorem refl (h : PtOk all T s.pt) : Goes all T s s (s.view T) :=
  ⟨h, List.Subset.refl _, rfl⟩

theorem trans (h : Goes all T s t v) (h' : Goes all T t u w) : Goes all T s u w :=
  ⟨h'.ok, List.Subset.trans h.ptrs h'.ptrs, h'.view⟩

end Goes

namespace Machine

variable {all : List ℕ} {T : TableMap} {s : Machine} {pd va x p e : ℕ} {slot : ℕ × ℕ}

theorem call_eq {c : PtCall} {pt' : PtSys} (hs : s.pt.step c = some pt') :
    s.call c = some { s with pt := pt' } := by
  rw [call, hs]
  rfl

/-- Writing to a table shows nowhere in memory. -/
theorem view_mem_setPte {t i : ℕ} (ht : IsLeaf T t) (s s' : Machine)
    (hs : s'.pt.sys.m.mem = (s.pt.sys.m.setPte t i e).mem) : (s'.view T).mem = (s.view T).mem := by
  funext p
  by_cases hp : IsLeaf T p
  · simp [view, hp]
  · have hne : p ≠ t := by
      rintro rfl
      exact hp ht
    rw [view_mem hp, view_mem hp, mem, hs, PageMem.setPte_mem_of_ne hne]
    rfl

/-- `*pte = e` -/
theorem call_write (h : PtOk all T s.pt) (hmem : (slot, pd, x) ∈ s.pt.ptrs) (e : ℕ) :
    ∃ s', s.call (.write slot e) = some s' ∧
      Goes all T s s' ((s.view T).store pd x (e % 2 ^ 64)) := by
  obtain ⟨ht, hi⟩ := h.ptrs slot.1 slot.2 pd x hmem
  refine ⟨_, call_eq (h.step_write hmem e), ?_, List.Subset.refl _, ?_⟩
  · rw [hi]
    exact h.write ht (Nat.mod_lt _ (by decide))
  · have hm := view_mem_setPte ⟨pd, x / 512, ht⟩ s { s with pt := (s.pt.setMem
      (s.pt.sys.m.setPte slot.1 slot.2 (e % 2 ^ 64))).record pd x (e % 2 ^ 64) } rfl
    exact View.ext rfl rfl rfl rfl hm rfl rfl rfl rfl rfl rfl

/-- `vmmap` where the table is there. -/
theorem call_vmmap (h : PtOk all T s.pt) {t : ℕ} (ht : T pd 3 (leafKey va) = some t)
    (ka flags : ℕ) : ∃ s', s.call (.vmmap pd va ka flags) = some s' ∧
      Goes all T s s'
        ((s.view T).store pd (vpn va) ((k2p ka ||| flags ||| pteValid) % 2 ^ 64)) := by
  refine ⟨_, call_eq (h.step_vmmap ht ka flags), ?_, List.Subset.refl _, ?_⟩
  · have hpart : vaPart3 va = vpn va % 512 := (vpn_mod va).symm
    have hT : T pd 3 (vpn va / 512) = some t := by rw [vpn_div, ht]
    rw [hpart]
    exact (h.touch (by rw [hT]; simp)).write hT (Nat.mod_lt _ (by decide))
  · refine View.ext rfl rfl rfl rfl ?_ rfl rfl rfl rfl rfl rfl
    exact view_mem_setPte ⟨pd, leafKey va, ht⟩ s _ rfl

/-- A call of the allocator that changes one page at most. -/
theorem goes_page (h : PtOk all T s.pt) {c : PageCall} {sys' : PageSys}
    (hs : s.pt.sys.step c = some sys') (hp : ¬ IsLeaf T p) {d : Bytes 4096}
    (hmem : sys'.m.mem = Function.update s.pt.sys.m.mem p d) :
    ∃ s', s.call (.page c) = some s' ∧ Goes all T s s' { s.view T with
      mem := Function.update (s.view T).mem p d
      free := sys'.m.pages
      held := sys'.held
      allocPageCnt := sys'.m.allocPageCnt
      zeroPage := sys'.m.zeroPage } := by
  have hstep : s.pt.step (.page c) = some { s.pt with sys := sys' } := by
    rw [PtSys.step, hs]
    rfl
  refine ⟨_, call_eq hstep, h.page hs, List.Subset.refl _, ?_⟩
  refine View.ext rfl rfl rfl rfl ?_ rfl rfl rfl rfl rfl rfl
  funext q
  by_cases hq : IsLeaf T q
  · have hne : q ≠ p := by
      rintro rfl
      exact hp hq
    simp [view, hq, hne]
  · rw [view_mem hq, mem, hmem]
    by_cases hqp : q = p
    · simp [hqp]
    · simp only [Function.update_of_ne hqp]
      rw [view_mem hq]
      rfl

/-- `kfree_page` of a page that is not the zero page. -/
theorem call_kfreePage (h : PtOk all T s.pt) (hp : p ∈ (s.view T).held)
    (hz : (s.view T).zeroPage ≠ some p) : ∃ s', s.call (.page (.kfreePage p)) = some s' ∧
      Goes all T s s' ((s.view T).giveBack p) := by
  have hz' : s.pt.sys.m.zeroPage ≠ some p := hz
  have hleaf := h.not_isLeaf hp
  have hs : ∃ sys', s.pt.sys.step (.kfreePage p) = some sys' ∧
      sys'.m = PageMem.addToQueue { s.pt.sys.m with
        allocPageCnt := s.pt.sys.m.allocPageCnt - 1 } p ∧ sys'.held = s.pt.sys.held.erase p := by
    refine ⟨_, if_pos hp, ?_, rfl⟩
    exact if_neg hz'
  obtain ⟨sys', hs, hm, hheld⟩ := hs
  obtain ⟨s', hc, hg⟩ := goes_page h hs hleaf (congrArg PageMem.mem hm)
  refine ⟨s', hc, hg.ok, hg.ptrs, hg.view.trans ?_⟩
  rw [hm, hheld]
  refine View.ext rfl rfl rfl rfl ?_ rfl rfl rfl rfl rfl rfl
  simp only [View.giveBack, view_mem hleaf]
  rfl

/-- `kalloc_page` -/
theorem call_kalloc (h : PtOk all T s.pt) {ps : List ℕ} (hp : (s.view T).free = p :: ps) :
    ∃ s', s.call (.page .kallocPage) = some s' ∧ Goes all T s s' ((s.view T).take p ps) ∧
      s'.pt.sys.held.head? = some p := by
  have hpages : s.pt.sys.m.pages = p :: ps := hp
  refine ⟨_, call_kallocPage hpages, ⟨?_, List.Subset.refl _, ?_⟩, rfl⟩
  · have hs : s.pt.sys.step .kallocPage = some { s.pt.sys with
        m := { s.pt.sys.m with pages := ps, allocPageCnt := s.pt.sys.m.allocPageCnt + 1 }
        held := p :: s.pt.sys.held } := by
      simp [PageSys.step, PageMem.kallocPage, PageMem.fetchFromQueue, hpages]
    exact h.page hs
  · exact View.ext rfl rfl rfl rfl rfl rfl rfl rfl rfl rfl rfl

/-- The owner of a page writes to it. -/
theorem call_fill (h : PtOk all T s.pt) (hp : p ∈ (s.view T).held) (c : Bytes 4096) :
    ∃ s', s.call (.page (.write p c)) = some s' ∧ Goes all T s s' ((s.view T).fill p c) := by
  have hs : s.pt.sys.step (.write p c) = some { s.pt.sys with
      m := { s.pt.sys.m with mem := Function.update s.pt.sys.m.mem p c } } := if_pos hp
  exact goes_page h hs (h.not_isLeaf hp) rfl

/-! ## `get_pte` without `alloc` -/

/-- A pointer is returned. -/
theorem goes_ptr (h : PtOk all T s.pt) {t : ℕ} (ht : T pd 3 (leafKey va) = some t) :
    Goes all T s { s with pt := { s.pt with
      ptrs := ((t, vaPart3 va), pd, vpn va) :: s.pt.ptrs } } (s.view T) :=
  ⟨h.ptr ht, List.subset_cons_self _ _, rfl⟩

/-- Where the entry is zero, or there is no table for it, nothing is done. -/
theorem onEntry_zero (h : PtOk all T s.pt) (h0 : (s.view T).entry pd (vpn va) = 0) :
    ∃ s', (∀ f, s.onEntry f pd va = some s') ∧ Goes all T s s' (s.view T) := by
  simp only [onEntry, h.lookup_eq, call_getPte_false h, Option.bind_eq_bind, Option.bind_some]
  cases ht : T pd 3 (leafKey va) with
  | none => exact ⟨_, fun _ => rfl, Goes.refl h⟩
  | some t =>
      have hg := goes_ptr h ht
      have hentry := hg.ok.entry_ptr (t, vaPart3 va) List.mem_cons_self
      exact ⟨_, fun _ => if_pos (hentry.trans h0), hg⟩

/-- Where the entry is not zero, its slot is found. -/
theorem onEntry_ne (h : PtOk all T s.pt) (h0 : (s.view T).entry pd (vpn va) ≠ 0) :
    ∃ t u, T pd 3 (leafKey va) = some t ∧ (∀ f, s.onEntry f pd va = f u (t, vaPart3 va)) ∧
      Goes all T s u (s.view T) ∧ ((t, vaPart3 va), pd, vpn va) ∈ u.pt.ptrs := by
  simp only [onEntry, h.lookup_eq, call_getPte_false h, Option.bind_eq_bind, Option.bind_some]
  cases ht : T pd 3 (leafKey va) with
  | none =>
      exfalso
      apply h0
      have := h.zero pd (leafKey va) (vaPart3 va) ht (vaPart3_lt va)
      rwa [← vpn_eq] at this
  | some t =>
      have hg := goes_ptr h ht
      have hentry := hg.ok.entry_ptr (t, vaPart3 va) List.mem_cons_self
      refine ⟨t, _, rfl, fun _ => if_neg ?_, hg, List.mem_cons_self⟩
      exact fun hz => h0 (hentry.symm.trans hz)

/-- What a pointer shows. -/
theorem entry_eq (h : PtOk all T s.pt) (hmem : (slot, pd, x) ∈ s.pt.ptrs) :
    s.entry slot = (s.view T).entry pd x := h.entry_ptr slot hmem

/-- An entry that is not zero has a slot. -/
theorem slot_of_entry (h : PtOk all T s.pt) (h0 : (s.view T).entry pd (vpn va) ≠ 0) :
    ∃ slot, s.pt.lookup pd va = some (some slot, s.pt.root pd, s.pt.sys.m) ∧
      s.entry slot = (s.view T).entry pd (vpn va) := by
  obtain ⟨slot, hl, -⟩ := h.isMap.find pd va
  cases slot with
  | none =>
      exfalso
      apply h0
      rw [h.lookup_eq] at hl
      have ht : T pd 3 (leafKey va) = none := by simpa using hl
      have hz := h.zero pd (leafKey va) (vaPart3 va) ht (vaPart3_lt va)
      rwa [← vpn_eq] at hz
  | some slot => exact ⟨slot, hl, h.isMap.value pd va slot hl⟩

/-- What a directory shows where its entry is valid. -/
theorem page_eq (h : PtOk all T s.pt) (pd va : ℕ)
    (hv : (s.view T).entry pd (vpn va) &&& pteValid ≠ 0) :
    s.page pd va = some (s.mem (p2k (pteAddress ((s.view T).entry pd (vpn va))))) := by
  have h0 : (s.view T).entry pd (vpn va) ≠ 0 := by
    intro h0
    rw [h0, Nat.zero_and] at hv
    exact hv rfl
  obtain ⟨slot, hl, hentry⟩ := slot_of_entry h h0
  exact page_of_entry hl hentry hv

end Machine

end OsLab
