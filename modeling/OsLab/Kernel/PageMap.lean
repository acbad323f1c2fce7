import OsLab.Kernel.Tables

/-!
# Page tables are maps

Sequences of `get_pte` and `vmmap` calls on any number of page directories, writes
through the pointers `get_pte` has returned, and calls of the other users of the page
allocator.

As the pages hold a forest of tables, a slot is as good as the directory and the page
number it belongs to.

## Main definitions

* `PtSys`, `PtSys.step` — the calls, with the values written last.
* `PtSys.IsMap`, `PtSys.Keeps` — what a caller of `get_pte` sees, and what a call
  leaves alone.
* `page_tables_are_maps` — the result over runs.
-/

namespace OsLab

/-- A call. -/
inductive PtCall
  | getPte (pd va : ℕ) (alloc : Bool)
  /-- `*pte = v` through a pointer that `get_pte` has returned -/
  | write (slot : ℕ × ℕ) (v : ℕ)
  | vmmap (pd va ka flags : ℕ)
  /-- a call of somebody else -/
  | page (c : PageCall)

/-- The directory a call is about. -/
def PtCall.dir : PtCall → Option ℕ
  | .getPte pd _ _ => some pd
  | .vmmap pd _ _ _ => some pd
  | _ => none

/-- The memory and the page directories.  The last three fields are a record that no call reads. -/
structure PtSys where
  sys : PageSys
  /-- `pgdir->pt` of each directory, `0` for a null pointer -/
  root : ℕ → ℕ
  /-- the pointers returned, with the directory and the page number of the call -/
  ptrs : List ((ℕ × ℕ) × ℕ × ℕ)
  /-- the value written last for a directory and a page number -/
  last : ℕ → ℕ → ℕ
  /-- directories and address bits 21 to 47 of the calls with `alloc = true` -/
  touched : ℕ → ℕ → Bool

namespace PtSys

def setMem (s : PtSys) (m : PageMem) : PtSys := { s with sys := { s.sys with m := m } }

/-- The value for page `x` of directory `pd` is now `v`. -/
def record (s : PtSys) (pd x v : ℕ) : PtSys :=
  { s with last := fun pd' x' => if pd' = pd ∧ x' = x then v else s.last pd' x' }

/-- There has been a call with `alloc = true` for page `x`. -/
def touch (s : PtSys) (pd x : ℕ) : PtSys :=
  { s with touched := fun pd' y => decide (pd' = pd ∧ y = x / 512) || s.touched pd' y }

def step (s : PtSys) : PtCall → Option PtSys
  | .getPte pd va alloc => do
      let (slot, pt, m) ← s.sys.m.getPte (s.root pd) va alloc
      let s := { s.setMem m with
        root := Function.update s.root pd pt
        ptrs := slot.toList.map (fun p => (p, pd, vpn va)) ++ s.ptrs }
      some (if alloc then s.touch pd (vpn va) else s)
  | .write slot v => do
      let (_, pd, x) ← s.ptrs.find? fun p => p.1 = slot
      some ((s.setMem (s.sys.m.setPte slot.1 slot.2 (v % 2 ^ 64))).record pd x (v % 2 ^ 64))
  | .vmmap pd va ka flags => do
      let (pt, m) ← s.sys.m.vmmap (s.root pd) va ka flags
      some (({ s.setMem m with root := Function.update s.root pd pt }.touch pd (vpn va)).record pd
        (vpn va) ((k2p ka ||| flags ||| pteValid) % 2 ^ 64))
  | .page c => do
      let sys ← s.sys.step c
      some { s with sys := sys }

/-- No page has been handed out and no directory has a table. -/
def start (m : PageMem) : PtSys :=
  ⟨⟨m, [], 0, 0⟩, fun _ => 0, [], fun _ _ => 0, fun _ _ => false⟩

/-- `get_pte(pd, va, false)` -/
def lookup (s : PtSys) (pd va : ℕ) : Option (Option (ℕ × ℕ) × ℕ × PageMem) :=
  s.sys.m.getPte (s.root pd) va false

/-- **What a caller of `get_pte` sees.** -/
structure IsMap (s : PtSys) : Prop where
  /-- without `alloc` a call changes nothing, and it finds the slot of a page exactly when there
  has been a call with `alloc` for an address with the same bits 21 to 47 -/
  find : ∀ pd va, ∃ slot, s.lookup pd va = some (slot, s.root pd, s.sys.m) ∧
    (slot = none ↔ s.touched pd (va / 2 ^ 21 % 2 ^ 27) = false)
  /-- a slot holds the value written last -/
  value : ∀ pd va slot, s.lookup pd va = some (some slot, s.root pd, s.sys.m) →
    s.sys.m.pte slot.1 slot.2 = s.last pd (vpn va)
  /-- one slot for each directory and page number -/
  slots : ∀ pd va pd' va' slot slot', s.lookup pd va = some (some slot, s.root pd, s.sys.m) →
    s.lookup pd' va' = some (some slot', s.root pd', s.sys.m) →
    (slot = slot' ↔ pd = pd' ∧ vpn va = vpn va')
  /-- nothing has been written to a page that was never touched -/
  fresh : ∀ pd va, s.touched pd (va / 2 ^ 21 % 2 ^ 27) = false → s.last pd (vpn va) = 0

/-- A call that writes to the slot found for page `va` of directory `pd`. -/
def Writes (pd va : ℕ) (slot : ℕ × ℕ) : PtCall → Prop
  | .write slot' _ => slot' = slot
  | .vmmap pd' va' _ _ => pd' = pd ∧ vpn va' = vpn va
  | _ => False

/-- **What a call leaves alone.** -/
structure Keeps (s : PtSys) (c : PtCall) (s' : PtSys) : Prop where
  /-- every slot is found again, and has its value unless the call writes to it -/
  slot : ∀ pd va slot, s.lookup pd va = some (some slot, s.root pd, s.sys.m) →
    s'.lookup pd va = some (some slot, s'.root pd, s'.sys.m) ∧
    (¬ Writes pd va slot c → s'.sys.m.pte slot.1 slot.2 = s.sys.m.pte slot.1 slot.2)
  /-- a call with `alloc` returns the slot that is found afterwards -/
  alloc : ∀ pd va, c = .getPte pd va true → ∃ slot,
    s'.lookup pd va = some (some slot, s'.root pd, s'.sys.m) ∧
    s'.ptrs.head? = some (slot, pd, vpn va)

end PtSys

/-- No page is in use, and the pages of the queue are what `kalloc_page` should return. -/
structure Booted (m : PageMem) : Prop where
  nodup : m.pages.Nodup
  good : ∀ p ∈ m.pages, GoodPage p
  count : m.allocPageCnt = 0
  zeroPage : m.zeroPage = none
  zeroPageCnt : m.zeroPageCnt = 0

/-! ## The other users of the allocator -/

namespace Acct

variable {all : List ℕ} {s s' : PageSys} {m' : PageMem}

/-- Pages are taken from the queue for tables. -/
theorem taken (h : Acct all s) {l : List ℕ} (hl : s.m.pages = l ++ m'.pages)
    (hc : m'.allocPageCnt = s.m.allocPageCnt + l.length)
    (hz : m'.zeroPage = s.m.zeroPage ∧ m'.zeroPageCnt = s.m.zeroPageCnt) :
    Acct all { s with m := m' } := by
  have hsub : m'.pages ⊆ s.m.pages := hl ▸ List.subset_append_right l _
  have hnd := h.nodup
  rw [hl] at hnd
  constructor
  case nodup => exact (List.nodup_append.mp hnd).2.1
  case sub => exact fun p hp => h.sub (hsub hp)
  case held => exact fun p hp => ⟨(h.held p hp).1, fun hx => (h.held p hp).2 (hsub hx)⟩
  case once =>
    intro p hp hne
    exact h.once p hp (hz.1 ▸ hne)
  case refs =>
    intro z hzz
    rw [hz.2]
    exact h.refs z (hz.1 ▸ hzz)
  case none =>
    intro hn
    rw [hz.2]
    exact h.none (hz.1 ▸ hn)
  case count =>
    have := h.count
    rw [hl, List.length_append] at this
    push_cast at this
    simp only [hc]
    omega
  case back =>
    simp only [hz.1]
    exact h.back

/-- Only the contents of pages change. -/
theorem congr_mem (h : Acct all s) (f : ℕ → Bytes 4096) :
    Acct all { s with m := { s.m with mem := f } } := by
  obtain ⟨h1, h2, h3, h4, h5, h6, h7, h8⟩ := h
  exact ⟨h1, h2, h3, h4, h5, h6, h7, h8⟩

/-- A call moves pages between the queue and their owners, and changes only the pages that are
owned. -/
theorem step_frame (h : Acct all s) {c : PageCall} (hs : s.step c = some s') :
    (∀ q, q ∉ s.held → s'.m.mem q = s.m.mem q) ∧
      ∀ q, q ∈ s'.m.pages ∨ q ∈ s'.held → q ∈ s.m.pages ∨ q ∈ s.held := by
  cases c with
  | kallocPage =>
      cases hp : s.m.pages with
      | nil => simp [PageSys.step, PageMem.kallocPage, PageMem.fetchFromQueue, hp] at hs
      | cons p ps =>
          simp only [PageSys.step, PageMem.kallocPage, PageMem.fetchFromQueue, hp,
            Option.some.injEq] at hs
          rw [← hs]
          refine ⟨fun _ _ => rfl, ?_⟩
          simp only [List.mem_cons]
          tauto
  | getZeroPage =>
      cases hz : s.m.zeroPage with
      | some z =>
          have hmem : z ∈ s.held := List.count_pos_iff.mp (h.refs z hz).1
          simp only [PageSys.step, PageMem.getZeroPage, hz, Option.some.injEq] at hs
          rw [← hs]
          refine ⟨fun _ _ => rfl, ?_⟩
          intro q hq
          simp only [List.mem_cons] at hq
          rcases hq with hq | rfl | hq
          · exact Or.inl hq
          · exact Or.inr hmem
          · exact Or.inr hq
      | none =>
          cases hp : s.m.pages with
          | nil =>
              simp [PageSys.step, PageMem.getZeroPage, PageMem.kallocPage,
                PageMem.fetchFromQueue, hp, hz] at hs
          | cons p ps =>
              simp only [PageSys.step, PageMem.getZeroPage, PageMem.kallocPage,
                PageMem.fetchFromQueue, hp, hz, Option.some.injEq] at hs
              rw [← hs]
              refine ⟨fun _ _ => rfl, ?_⟩
              simp only [List.mem_cons]
              tauto
  | kfreePage p =>
      simp only [PageSys.step, Option.ite_none_right_eq_some, Option.some.injEq] at hs
      obtain ⟨hmem, rfl⟩ := hs
      have hback : ∀ q, q ∈ s.held.erase p → q ∈ s.held := fun q => List.mem_of_mem_erase
      rcases s.m.kfreePage_cases p with ⟨-, -, heq⟩ | ⟨-, -, heq⟩ | ⟨-, heq⟩
      · rw [heq]
        refine ⟨fun _ _ => rfl, ?_⟩
        intro q hq
        rcases hq with hq | hq
        · exact Or.inl hq
        · exact Or.inr (hback q hq)
      all_goals
        rw [heq]
        constructor
        · intro q hq
          have hqp : q ≠ p := fun heq => hq (heq ▸ hmem)
          simp [PageMem.addToQueue, hqp]
        · intro q hq
          simp only [PageMem.addToQueue_pages, List.mem_cons] at hq
          rcases hq with (rfl | hq) | hq
          · exact Or.inr hmem
          · exact Or.inl hq
          · exact Or.inr (hback q hq)
  | write p c =>
      simp only [PageSys.step, Option.ite_none_right_eq_some, Option.some.injEq] at hs
      obtain ⟨hmem, rfl⟩ := hs
      refine ⟨?_, fun _ hq => hq⟩
      intro q hq
      have hqp : q ≠ p := fun heq => hq (heq ▸ hmem)
      simp [hqp]

end Acct

/-! ## The invariant -/

/-- Tables have been made in directory `pd`, and pages are gone from the queue only for them. -/
structure Growth (pd : ℕ) (T T' : TableMap) (m m' : PageMem) : Prop where
  le : ∀ pd' k x t, T pd' k x = some t → T' pd' k x = some t
  new : ∀ pd' k x t, T' pd' k x = some t → T pd' k x = some t ∨ pd' = pd ∧ t ∈ m.pages
  made : ∀ p ∈ m.pages, p ∉ m'.pages → ∃ k x, T' pd k x = some p
  taken : ∃ l, m.pages = l ++ m'.pages

theorem Growth.refl (pd : ℕ) (T : TableMap) (m : PageMem) : Growth pd T T m m where
  le _ _ _ _ h := h
  new _ _ _ _ h := Or.inl h
  made _ hp hp' := absurd hp hp'
  taken := ⟨[], rfl⟩

theorem Grown.growth {pd : ℕ} {key : ℕ → ℕ} {T T' : TableMap} {m m' m'' : PageMem}
    (h : Grown pd key T T' m m') (hpages : m''.pages = m'.pages) : Growth pd T T' m m'' where
  le := h.le
  new pd' k x t ht := by
    rcases h.new pd' k x t ht with hold | ⟨-, hpd, -, hmem⟩
    · exact Or.inl hold
    · exact Or.inr ⟨hpd, hmem⟩
  made p hp hp' := h.made p hp (hpages ▸ hp')
  taken := by
    obtain ⟨l, hl, -⟩ := h.taken
    exact ⟨l, hpages ▸ hl⟩

/-- What every call keeps.  `all` are the pages of the initial queue. -/
structure PtOk (all : List ℕ) (T : TableMap) (s : PtSys) : Prop where
  acct : Acct all s.sys
  good : ∀ p ∈ all, GoodPage p
  tables : Tables T s.root s.sys.m
  /-- a table is nobody's page -/
  own : ∀ pd k x t, T pd k x = some t → t ∈ all ∧ t ∉ s.sys.held
  /-- a slot holds the value written last -/
  leaf : ∀ pd x t i, T pd 3 x = some t → i < 512 → s.sys.m.pte t i = s.last pd (x * 512 + i)
  zero : ∀ pd x i, T pd 3 x = none → i < 512 → s.last pd (x * 512 + i) = 0
  touched : ∀ pd x, s.touched pd x = true ↔ T pd 3 x ≠ none
  ptrs : ∀ t i pd v, ((t, i), pd, v) ∈ s.ptrs → T pd 3 (v / 512) = some t ∧ i = v % 512

namespace PtOk

variable {all : List ℕ} {T T' : TableMap} {s s' : PtSys} {pd va pt t i x v : ℕ} {m' : PageMem}

theorem init {m : PageMem} (hm : Booted m) :
    PtOk m.pages (fun _ _ _ => none) (PtSys.start m) := by
  constructor
  case acct =>
    constructor
    case nodup => exact hm.nodup
    case sub => exact List.Subset.refl _
    case none => exact fun _ => hm.zeroPageCnt
    case count => simp [PtSys.start, hm.count]
    case back => simp [PtSys.start, hm.zeroPage]
    case refs =>
      intro z hz
      rw [PtSys.start, hm.zeroPage] at hz
      cases hz
    all_goals simp [PtSys.start]
  case good => exact hm.good
  case tables => exact Tables.init m
  all_goals simp [PtSys.start]

theorem supply (h : PtOk all T s) : Supply s.sys.m :=
  ⟨h.acct.nodup, fun p hp => h.good p (h.acct.sub hp)⟩

/-- The tables for an address have been made. -/
theorem grow (h : PtOk all T s) (htab : Tables T' (Function.update s.root pd pt) m')
    (g : Grown pd (pre (vaPart0 va) (vaPart1 va) (vaPart2 va)) T T' s.sys.m m')
    (ht : T' pd 3 (leafKey va) ≠ none) :
    PtOk all T' ({ s.setMem m' with root := Function.update s.root pd pt }.touch pd (vpn va)) := by
  constructor
  case acct =>
    obtain ⟨l, hl, hc⟩ := g.taken
    exact h.acct.taken hl hc g.same
  case good => exact h.good
  case tables => exact htab
  case own =>
    intro pd' k x t ht'
    rcases g.new pd' k x t ht' with hold | ⟨-, -, -, hmem⟩
    · exact h.own pd' k x t hold
    · exact ⟨h.acct.sub hmem, fun hheld => (h.acct.held t hheld).2 hmem⟩
  case leaf =>
    intro pd' x t i ht' hi
    cases hT : T pd' 3 x with
    | some u =>
        have hu : u = t := Option.some.inj ((g.le _ _ _ _ hT).symm.trans ht')
        subst hu
        have := h.leaf pd' x u i hT hi
        rw [← PageMem.pte_congr (g.leaf pd' x u hT)] at this
        exact this
    | none =>
        have h0 := h.zero pd' x i hT hi
        exact (g.zero pd' x t i hT ht').trans h0.symm
  case zero =>
    intro pd' x i hnone hi
    apply h.zero pd' x i _ hi
    cases hT : T pd' 3 x with
    | none => rfl
    | some u =>
        rw [g.le _ _ _ _ hT] at hnone
        cases hnone
  case touched =>
    intro pd' x
    simp only [PtSys.touch, vpn_div, Bool.or_eq_true, decide_eq_true_eq]
    constructor
    · intro hor
      rcases hor with ⟨rfl, rfl⟩ | hold
      · exact ht
      · have hT := (h.touched pd' x).mp hold
        obtain ⟨u, hu⟩ := Option.ne_none_iff_exists'.mp hT
        rw [g.le _ _ _ _ hu]
        simp
    · intro hT'
      obtain ⟨u, hu⟩ := Option.ne_none_iff_exists'.mp hT'
      rcases g.new pd' 3 x u hu with hold | ⟨-, hpd, hx, -⟩
      · exact Or.inr ((h.touched pd' x).mpr (by simp [hold]))
      · exact Or.inl ⟨hpd, hx⟩
  case ptrs =>
    intro t i pd' v hmem
    obtain ⟨hT, hi⟩ := h.ptrs t i pd' v hmem
    exact ⟨g.le _ _ _ _ hT, hi⟩

/-- A pointer has been returned. -/
theorem ptr (h : PtOk all T s) (ht : T pd 3 (leafKey va) = some t) :
    PtOk all T { s with ptrs := ((t, vaPart3 va), pd, vpn va) :: s.ptrs } := by
  obtain ⟨h1, h2, h3, h4, h5, h6, h7, h8⟩ := h
  refine ⟨h1, h2, h3, h4, h5, h6, h7, ?_⟩
  intro t' i' pd' v' hmem
  rcases List.mem_cons.mp hmem with heq | hmem
  · cases heq
    rw [vpn_div, vpn_mod]
    exact ⟨ht, rfl⟩
  · exact h8 t' i' pd' v' hmem

/-- The slot of page `x` has been written. -/
theorem write (h : PtOk all T s) (ht : T pd 3 (x / 512) = some t) (hv : v < 2 ^ 64) :
    PtOk all T ((s.setMem (s.sys.m.setPte t (x % 512) v)).record pd x v) := by
  have hkey : ∀ pd' x' t' j, T pd' 3 x' = some t' → j < 512 →
      ((t' = t ∧ j = x % 512) ↔ (pd' = pd ∧ x' * 512 + j = x)) := by
    intro pd' x' t' j ht' hj
    constructor
    · rintro ⟨rfl, rfl⟩
      obtain ⟨rfl, -, rfl⟩ := h.tables.inj _ _ _ _ _ _ _ ht ht'
      exact ⟨rfl, by omega⟩
    · rintro ⟨rfl, rfl⟩
      rw [show (x' * 512 + j) / 512 = x' by omega, ht'] at ht
      exact ⟨Option.some.inj ht, by omega⟩
  constructor
  case acct => exact h.acct.congr_mem _
  case good => exact h.good
  case tables => exact h.tables.setLeaf ht v
  case own => exact h.own
  case leaf =>
    intro pd' x' t' j ht' hj
    simp only [PtSys.record, PtSys.setMem, ← hkey pd' x' t' j ht' hj]
    split_ifs with hslot
    · rw [hslot.1, hslot.2]
      exact PageMem.pte_setPte_self (by omega) hv
    · rw [PageMem.pte_setPte_of_ne (by omega)]
      exact h.leaf pd' x' t' j ht' hj
  case zero =>
    intro pd' x' j hnone hj
    simp only [PtSys.record]
    split_ifs with heq
    · obtain ⟨rfl, rfl⟩ := heq
      rw [show (x' * 512 + j) / 512 = x' by omega, hnone] at ht
      cases ht
    · exact h.zero pd' x' j hnone hj
  case touched => exact h.touched
  case ptrs => exact h.ptrs

/-- Somebody else has called the allocator. -/
theorem page (h : PtOk all T s) {c : PageCall} {sys' : PageSys} (hs : s.sys.step c = some sys') :
    PtOk all T { s with sys := sys' } := by
  obtain ⟨hmem, hmove⟩ := h.acct.step_frame hs
  have hown : ∀ pd k x t, T pd k x = some t → t ∉ sys'.m.pages ∧ t ∉ sys'.held := by
    intro pd k x t ht
    have hp := h.tables.used pd k x t ht
    have hh := (h.own pd k x t ht).2
    constructor
    · intro hx
      rcases hmove t (Or.inl hx) with hx | hx
      · exact hp hx
      · exact hh hx
    · intro hx
      rcases hmove t (Or.inr hx) with hx | hx
      · exact hp hx
      · exact hh hx
  have hsame : ∀ pd k x t, T pd k x = some t → sys'.m.mem t = s.sys.m.mem t :=
    fun pd k x t ht => hmem t (h.own pd k x t ht).2
  constructor
  case acct => exact h.acct.step hs
  case good => exact h.good
  case tables => exact h.tables.frame hsame fun pd k x t ht => (hown pd k x t ht).1
  case own => exact fun pd k x t ht => ⟨(h.own pd k x t ht).1, (hown pd k x t ht).2⟩
  case leaf =>
    intro pd x t i ht hi
    rw [PageMem.pte_congr (hsame pd 3 x t ht)]
    exact h.leaf pd x t i ht hi
  case zero => exact h.zero
  case touched => exact h.touched
  case ptrs => exact h.ptrs

/-- Page `p` is not in the queue, not handed out and not a table. -/
def Aside (T : TableMap) (s : PtSys) (p : ℕ) : Prop :=
  p ∉ s.sys.m.pages ∧ p ∉ s.sys.held ∧ ∀ pd k x, T pd k x ≠ some p

/-- New tables come from the queue. -/
theorem aside_grow {p : ℕ} {key : ℕ → ℕ} (h : Aside T s p)
    (g : Grown pd key T T' s.sys.m s'.sys.m) (hheld : s'.sys.held = s.sys.held) :
    Aside T' s' p := by
  refine ⟨fun hmem => h.1 (g.pages_subset hmem), hheld ▸ h.2.1, ?_⟩
  intro pd' k x ht
  rcases g.new pd' k x p ht with hold | ⟨-, -, -, hmem⟩
  · exact h.2.2 pd' k x hold
  · exact h.1 hmem

/-- **Every call keeps the invariant**, the tables of the last level stay where they are, a page
that is aside stays so, and tables are made only in the directory of the call. -/
theorem step_growth {c : PtCall} (h : PtOk all T s) (hs : s.step c = some s') :
    ∃ T', PtOk all T' s' ∧ (∀ pd x t, T pd 3 x = some t → T' pd 3 x = some t) ∧
      (∀ pd va, c = .getPte pd va true → ∃ t, T' pd 3 (leafKey va) = some t ∧
        s'.ptrs.head? = some ((t, vaPart3 va), pd, vpn va)) ∧
      (∀ p, Aside T s p → Aside T' s' p) ∧
      (∀ pd, c.dir = some pd → Growth pd T T' s.sys.m s'.sys.m) ∧ (c.dir = none → T' = T) := by
  cases c with
  | getPte pd va alloc =>
      rw [PtSys.step, Option.bind_eq_bind, Option.bind_eq_some_iff] at hs
      obtain ⟨⟨slot, pt, m'⟩, hg, hs⟩ := hs
      cases alloc with
      | true =>
          obtain ⟨T', t, rfl, ht, htab, g⟩ := h.tables.getPte_true h.supply hg
          simp only [if_true, Option.some.injEq] at hs
          rw [← hs]
          refine ⟨T', (h.grow htab g (by simp [ht])).ptr ht, fun pd x t => g.le pd 3 x t, ?_,
            fun p hp => aside_grow hp g rfl, ?_, fun hdir => by cases hdir⟩
          · intro pd' va' heq
            cases heq
            exact ⟨t, ht, rfl⟩
          · intro pd' hdir
            cases hdir
            exact g.growth rfl
      | false =>
          rw [h.tables.getPte_false] at hg
          simp only [Option.some.injEq, Prod.mk.injEq] at hg
          obtain ⟨rfl, rfl, rfl⟩ := hg
          simp only [Function.update_eq_self, Bool.false_eq_true, if_false,
            Option.some.injEq] at hs
          rw [← hs]
          refine ⟨T, ?_, fun _ _ _ ht => ht, (fun _ _ heq => by cases heq), fun _ hp => hp,
            fun pd' _ => .refl pd' T _, fun _ => rfl⟩
          cases ht : T pd 3 (leafKey va) with
          | none => exact h
          | some t => exact h.ptr ht
  | write slot v =>
      rw [PtSys.step, Option.bind_eq_bind, Option.bind_eq_some_iff] at hs
      obtain ⟨⟨⟨t, i⟩, pd, x⟩, hfind, hs⟩ := hs
      obtain ⟨ht, hi⟩ := h.ptrs t i pd x (List.mem_of_find?_eq_some hfind)
      have hslot : (t, i) = slot := by simpa using List.find?_some hfind
      subst hslot
      simp only [Option.some.injEq] at hs
      rw [← hs, hi]
      exact ⟨T, h.write ht (by omega), fun _ _ _ ht => ht, (fun _ _ heq => by cases heq),
        fun _ hp => hp, (fun _ hdir => by cases hdir), fun _ => rfl⟩
  | vmmap pd va ka flags =>
      rw [PtSys.step, Option.bind_eq_bind, Option.bind_eq_some_iff] at hs
      obtain ⟨⟨pt, m'⟩, hv, hs⟩ := hs
      rw [PageMem.vmmap, Option.bind_eq_bind, Option.bind_eq_some_iff] at hv
      obtain ⟨⟨slot, pt', m''⟩, hg, hv⟩ := hv
      obtain ⟨T', t, rfl, ht, htab, g⟩ := h.tables.getPte_true h.supply hg
      cases hv
      cases hs
      refine ⟨T', ?_, fun pd x t => g.le pd 3 x t, (fun _ _ heq => by cases heq),
        fun p hp => show Aside T' (s.setMem m'') p from aside_grow hp g rfl, ?_,
        fun hdir => by cases hdir⟩
      case refine_2 =>
        intro pd' hdir
        cases hdir
        exact g.growth rfl
      have hw := (h.grow htab g (by simp [ht])).write (v := (k2p ka ||| flags ||| pteValid) % 2 ^ 64)
        ((vpn_div va).symm ▸ ht) (by omega)
      rw [vpn_mod] at hw
      exact hw
  | page c =>
      rw [PtSys.step, Option.bind_eq_bind, Option.bind_eq_some_iff] at hs
      obtain ⟨sys', hs', hs⟩ := hs
      cases hs
      refine ⟨T, h.page hs', fun _ _ _ ht => ht, (fun _ _ heq => by cases heq), ?_,
        (fun _ hdir => by cases hdir), fun _ => rfl⟩
      intro p hp
      obtain ⟨-, hmove⟩ := h.acct.step_frame hs'
      have hnot : ¬ (p ∈ sys'.m.pages ∨ p ∈ sys'.held) := by
        intro hin
        rcases hmove p hin with hin | hin
        · exact hp.1 hin
        · exact hp.2.1 hin
      rw [not_or] at hnot
      exact ⟨hnot.1, hnot.2, hp.2.2⟩

theorem step_aside {c : PtCall} (h : PtOk all T s) (hs : s.step c = some s') :
    ∃ T', PtOk all T' s' ∧ (∀ pd x t, T pd 3 x = some t → T' pd 3 x = some t) ∧
      (∀ pd va, c = .getPte pd va true → ∃ t, T' pd 3 (leafKey va) = some t ∧
        s'.ptrs.head? = some ((t, vaPart3 va), pd, vpn va)) ∧
      ∀ p, Aside T s p → Aside T' s' p := by
  obtain ⟨T', hT', hle, halloc, haside, -⟩ := h.step_growth hs
  exact ⟨T', hT', hle, halloc, haside⟩

theorem step {c : PtCall} (h : PtOk all T s) (hs : s.step c = some s') :
    ∃ T', PtOk all T' s' ∧ (∀ pd x t, T pd 3 x = some t → T' pd 3 x = some t) ∧
      ∀ pd va, c = .getPte pd va true → ∃ t, T' pd 3 (leafKey va) = some t ∧
        s'.ptrs.head? = some ((t, vaPart3 va), pd, vpn va) := by
  obtain ⟨T', hT', hle, halloc, -⟩ := h.step_aside hs
  exact ⟨T', hT', hle, halloc⟩

theorem lookup_eq (h : PtOk all T s) (pd va : ℕ) : s.lookup pd va =
    some ((T pd 3 (leafKey va)).map fun t => (t, vaPart3 va), s.root pd, s.sys.m) :=
  h.tables.getPte_false pd va

/-- A slot that is found is the one in the table. -/
theorem lookup_some_iff (h : PtOk all T s) {slot : ℕ × ℕ} :
    s.lookup pd va = some (some slot, s.root pd, s.sys.m) ↔
      T pd 3 (leafKey va) = some slot.1 ∧ slot.2 = vaPart3 va := by
  rw [h.lookup_eq]
  simp only [Option.some.injEq, and_true, Option.map_eq_some_iff, Prod.ext_iff]
  constructor
  · rintro ⟨t, ht, rfl, hi⟩
    exact ⟨ht, hi.symm⟩
  · rintro ⟨ht, hi⟩
    exact ⟨slot.1, ht, rfl, hi.symm⟩

theorem isMap (h : PtOk all T s) : s.IsMap := by
  have htouched : ∀ pd va, s.touched pd (va / 2 ^ 21 % 2 ^ 27) = false ↔
      T pd 3 (leafKey va) = none := by
    intro pd va
    rw [← leafKey_eq, ← Bool.not_eq_true, h.touched, not_not]
  constructor
  case find =>
    intro pd va
    refine ⟨_, h.lookup_eq pd va, ?_⟩
    rw [htouched]
    simp
  case value =>
    intro pd va slot hl
    obtain ⟨ht, hi⟩ := h.lookup_some_iff.mp hl
    rw [hi, vpn_eq]
    exact h.leaf pd _ _ _ ht (vaPart3_lt va)
  case slots =>
    intro pd va pd' va' slot slot' hl hl'
    obtain ⟨ht, hi⟩ := h.lookup_some_iff.mp hl
    obtain ⟨ht', hi'⟩ := h.lookup_some_iff.mp hl'
    constructor
    · rintro rfl
      obtain ⟨hpd, -, hkey⟩ := h.tables.inj _ _ _ _ _ _ _ ht ht'
      refine ⟨hpd, ?_⟩
      rw [vpn_eq, vpn_eq, hkey, ← hi, ← hi']
    · rintro ⟨rfl, hv⟩
      have hkey : leafKey va = leafKey va' := by rw [← vpn_div, ← vpn_div, hv]
      have hpart : vaPart3 va = vaPart3 va' := by rw [← vpn_mod, ← vpn_mod, hv]
      rw [← hkey, ht] at ht'
      exact Prod.ext (Option.some.inj ht') (by rw [hi, hi', hpart])
  case fresh =>
    intro pd va hf
    rw [vpn_eq]
    exact h.zero pd _ _ ((htouched pd va).mp hf) (vaPart3_lt va)

/-- Only a write changes the value on record. -/
theorem last_of_step {c : PtCall} (h : PtOk all T s) (hs : s.step c = some s') {slot : ℕ × ℕ}
    (hl : s.lookup pd va = some (some slot, s.root pd, s.sys.m))
    (hw : ¬ PtSys.Writes pd va slot c) : s'.last pd (vpn va) = s.last pd (vpn va) := by
  cases c with
  | getPte pd' va' alloc =>
      rw [PtSys.step, Option.bind_eq_bind, Option.bind_eq_some_iff] at hs
      obtain ⟨r, -, hs⟩ := hs
      cases alloc <;> cases hs <;> rfl
  | write slot' v =>
      rw [PtSys.step, Option.bind_eq_bind, Option.bind_eq_some_iff] at hs
      obtain ⟨⟨⟨t, i⟩, pd', x⟩, hfind, hs⟩ := hs
      obtain ⟨ht, hi⟩ := h.ptrs t i pd' x (List.mem_of_find?_eq_some hfind)
      have hslot : (t, i) = slot' := by simpa using List.find?_some hfind
      obtain ⟨ht', hi'⟩ := h.lookup_some_iff.mp hl
      cases hs
      simp only [PtSys.record]
      rw [if_neg]
      · rfl
      · rintro ⟨rfl, rfl⟩
        rw [vpn_div, ht'] at ht
        rw [vpn_mod] at hi
        apply hw
        rw [PtSys.Writes, ← hslot]
        exact Prod.ext (Option.some.inj ht).symm (by rw [hi, hi'])
  | vmmap pd' va' ka flags =>
      rw [PtSys.step, Option.bind_eq_bind, Option.bind_eq_some_iff] at hs
      obtain ⟨r, -, hs⟩ := hs
      cases hs
      simp only [PtSys.record]
      rw [if_neg]
      · rfl
      · rintro ⟨hpd, hv⟩
        exact hw ⟨hpd.symm, hv.symm⟩
  | page c =>
      rw [PtSys.step, Option.bind_eq_bind, Option.bind_eq_some_iff] at hs
      obtain ⟨r, -, hs⟩ := hs
      cases hs
      rfl

theorem keeps {c : PtCall} (h : PtOk all T s) (hs : s.step c = some s') : s.Keeps c s' := by
  obtain ⟨T', h', hle, halloc⟩ := h.step hs
  constructor
  case slot =>
    intro pd va slot hl
    obtain ⟨ht, hi⟩ := h.lookup_some_iff.mp hl
    have hl' := h'.lookup_some_iff.mpr ⟨hle pd _ _ ht, hi⟩
    refine ⟨hl', ?_⟩
    intro hw
    rw [h'.isMap.value pd va slot hl', h.isMap.value pd va slot hl]
    exact h.last_of_step hs hl hw
  case alloc =>
    intro pd va hc
    obtain ⟨t, ht, hhead⟩ := halloc pd va hc
    exact ⟨(t, vaPart3 va), h'.lookup_some_iff.mpr ⟨ht, rfl⟩, hhead⟩

end PtOk

/-- **Page tables are maps** from directories and page numbers to values, in every run. -/
theorem page_tables_are_maps {m : PageMem} (hm : Booted m) {s : PtSys}
    (h : Reach PtSys.step (fun _ _ => True) (PtSys.start m) s) :
    s.IsMap ∧ ∀ c s', s.step c = some s' → s.Keeps c s' := by
  have hok : ∃ T, PtOk m.pages T s := by
    apply h.invariant ⟨_, PtOk.init hm⟩
    rintro s c s' ⟨T, hT⟩ - hs
    obtain ⟨T', hT', -⟩ := hT.step hs
    exact ⟨T', hT'⟩
  obtain ⟨T, hT⟩ := hok
  exact ⟨hT.isMap, fun c s' hs => hT.keeps hs⟩

/-- Six pages at the start of physical memory. -/
def sixPages : PageMem :=
  ⟨(List.range 6).map fun i => kspaceMask + 4096 * i, fun _ => .zero, 0, none, 0⟩

theorem booted_sixPages : Booted sixPages := by
  constructor
  case nodup => decide
  case good =>
    intro p hp
    obtain ⟨i, hi, rfl⟩ := List.mem_map.mp hp
    exact ⟨i, by have := List.mem_range.mp hi; omega, rfl⟩
  all_goals rfl

/-- Two directories: one maps an address, the other shares nothing with it. -/
theorem page_tables_are_maps_two : ∃ s,
    Reach PtSys.step (fun _ _ => True) (PtSys.start sixPages) s ∧ s.touched 1 0 = true ∧
      s.touched 2 0 = false ∧ s.last 1 5 = 0x40000 + pteValid ∧ s.IsMap := by
  have hr : (runs PtSys.step (PtSys.start sixPages) [.getPte 2 0x5123 false,
      .vmmap 1 0x5123 (kspaceMask + 0x40000) 0]).isSome = true := by
    decide +kernel
  obtain ⟨s, hs⟩ := Option.isSome_iff_exists.mp hr
  have hrun := Reach.init.of_runs _ hs
  have hobs : (s.touched 1 0, s.touched 2 0, s.last 1 5) = (true, false, 0x40000 + pteValid) := by
    have : (runs PtSys.step (PtSys.start sixPages) [.getPte 2 0x5123 false,
        .vmmap 1 0x5123 (kspaceMask + 0x40000) 0]).map
          (fun s => (s.touched 1 0, s.touched 2 0, s.last 1 5)) =
        some (true, false, 0x40000 + pteValid) := by
      decide +kernel
    rw [hs] at this
    exact Option.some.inj this
  simp only [Prod.mk.injEq] at hobs
  exact ⟨s, hrun, hobs.1, hobs.2.1, hobs.2.2, (page_tables_are_maps booted_sixPages hrun).1⟩

end OsLab
