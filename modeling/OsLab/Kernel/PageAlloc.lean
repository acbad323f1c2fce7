import OsLab.Lib.Bytes
import OsLab.Lib.Run
import OsLab.Kernel.Mmu
import Mathlib.Data.List.Nodup
import Mathlib.Data.List.Perm.Subperm
import Mathlib.Tactic.Ring

/-!
# The page allocator

`kalloc_page`, `kfree_page` and `get_zero_page` of `kernel/mem.c`, called one after
the other, over the queue of usable pages.  A page in the queue keeps the link to the
next one in its first eight bytes; apart from that nobody writes to it.

`alloc_page_cnt` should count the pages that are missing from the queue.
`get_zero_page` counts a new zero page twice, once through `kalloc_page` and once by
itself, and `kfree_page` counts it back once, so the counter runs away by one in every
life of the zero page (`Acct.count`).

## Main definitions

* `PageMem` — the queue, the pages and the counters, with the functions of `mem.c`.
* `PageSys`, `PageSys.step` — sequences of calls.
* `PageSys.Exact` — the accounting is right.
* `accounting_iff` — it stays right if and only if there is no zero page.
-/

namespace OsLab

/-- The first usable page, for a kernel image that ends at `e`. -/
def firstPage (e : ℕ) : ℕ := pageBase e + pageSize

/-- `total_page` -/
def totalPage (e : ℕ) : ℕ := (p2k phystop - firstPage e) / pageSize

/-- The state of the allocator and the contents of the pages. -/
structure PageMem where
  /-- the queue `pages`, last added first -/
  pages : List ℕ
  mem : ℕ → Bytes 4096
  /-- `alloc_page_cnt.count` -/
  allocPageCnt : ℤ
  zeroPage : Option ℕ
  /-- `zero_page_cnt.count` -/
  zeroPageCnt : ℤ

namespace PageMem

/-- `add_to_queue(&pages, p)`: the link to the old head goes into the first word of `p`. -/
def addToQueue (s : PageMem) (p : ℕ) : PageMem :=
  { s with
    pages := p :: s.pages
    mem := Function.update s.mem p ((s.mem p).setWord 0 8 (s.pages.headD 0)) }

/-- `fetch_from_queue(&pages)` -/
def fetchFromQueue (s : PageMem) : Option ℕ × PageMem :=
  match s.pages with
  | [] => (none, s)
  | p :: ps => (some p, { s with pages := ps })

/-- The loop of the initializer of `pages`, from page `p` up to `top`; `fuel` bounds the rounds. -/
def initPages (top : ℕ) : ℕ → ℕ → PageMem → PageMem
  | 0, _, s => s
  | fuel + 1, p, s =>
      if p < top then initPages top fuel (p + pageSize) (s.addToQueue p) else s

/-- The allocator after the early initializers, on any memory. -/
def init (e : ℕ) (mem : ℕ → Bytes 4096) : PageMem :=
  initPages (p2k phystop) (totalPage e + 1) (firstPage e) ⟨[], mem, 0, none, 0⟩

def kallocPage (s : PageMem) : Option ℕ × PageMem :=
  fetchFromQueue { s with allocPageCnt := s.allocPageCnt + 1 }

def kfreePage (s : PageMem) (p : ℕ) : PageMem :=
  if s.zeroPage = some p then
    let s := { s with zeroPageCnt := s.zeroPageCnt - 1 }
    if s.zeroPageCnt = 0 then
      { addToQueue { s with allocPageCnt := s.allocPageCnt - 1 } p with zeroPage := none }
    else s
  else addToQueue { s with allocPageCnt := s.allocPageCnt - 1 } p

def getZeroPage (s : PageMem) : Option ℕ × PageMem :=
  let s := match s.zeroPage with
    | some _ => s
    | none =>
        let (p, s) := s.kallocPage
        { s with zeroPage := p, zeroPageCnt := 0, allocPageCnt := s.allocPageCnt + 1 }
  let s := { s with zeroPageCnt := s.zeroPageCnt + 1 }
  (s.zeroPage, s)

/-- `left_page_cnt`: an unsigned 64-bit number. -/
def leftPageCnt (e : ℕ) (s : PageMem) : ℕ :=
  ((totalPage e - s.allocPageCnt) % 2 ^ 64).toNat

end PageMem

/-- A call of the allocator, or a write by the owner of a page. -/
inductive PageCall
  | kallocPage
  | getZeroPage
  | kfreePage (p : ℕ)
  | write (p : ℕ) (c : Bytes 4096)

/-- The allocator, and who uses it. -/
structure PageSys where
  m : PageMem
  /-- the pages handed out and not freed, once for each call -/
  held : List ℕ
  /-- the zero pages made so far -/
  lives : ℕ
  /-- how often `kfree_page` has put the zero page into the queue -/
  backs : ℕ

namespace PageSys

/-- One call.  `none` is `kalloc_page` on an empty queue, or a page the caller does not have. -/
def step (s : PageSys) : PageCall → Option PageSys
  | .kallocPage =>
      match s.m.kallocPage with
      | (none, _) => none
      | (some p, m) => some { s with m := m, held := p :: s.held }
  | .getZeroPage =>
      match s.m.getZeroPage with
      | (none, _) => none
      | (some p, m) => some { s with
          m := m
          held := p :: s.held
          lives := s.lives + (if s.m.zeroPage = none then 1 else 0) }
  | .kfreePage p =>
      if p ∈ s.held then
        some { s with
          m := s.m.kfreePage p
          held := s.held.erase p
          backs := s.backs + (if s.m.zeroPage = some p then
            (s.m.kfreePage p).pages.length - s.m.pages.length else 0) }
      else none
  | .write p c =>
      if p ∈ s.held then
        some { s with m := { s.m with mem := Function.update s.m.mem p c } }
      else none

def start (e : ℕ) (mem : ℕ → Bytes 4096) : PageSys := ⟨.init e mem, [], 0, 0⟩

/-- **The accounting is right.** -/
structure Exact (e : ℕ) (s : PageSys) : Prop where
  /-- the counter is the number of pages missing from the queue -/
  count : s.m.allocPageCnt = totalPage e - s.m.pages.length
  left : s.m.leftPageCnt e = s.m.pages.length
  /-- the zero page is in the queue exactly when nobody refers to it -/
  zero : ∀ z, s.m.zeroPage = some z → (z ∈ s.m.pages ↔ s.m.zeroPageCnt = 0)
  noZero : s.m.zeroPage = none → s.m.zeroPageCnt = 0
  /-- it goes back once in each life -/
  back : s.backs + (if s.m.zeroPage = none then 0 else 1) = s.lives

end PageSys

/-! ## The initial queue -/

namespace PageMem

variable {e : ℕ} {mem : ℕ → Bytes 4096}

@[simp] theorem addToQueue_pages (s : PageMem) (p : ℕ) :
    (s.addToQueue p).pages = p :: s.pages := rfl

@[simp] theorem addToQueue_allocPageCnt (s : PageMem) (p : ℕ) :
    (s.addToQueue p).allocPageCnt = s.allocPageCnt := rfl

@[simp] theorem addToQueue_zeroPage (s : PageMem) (p : ℕ) :
    (s.addToQueue p).zeroPage = s.zeroPage := rfl

@[simp] theorem addToQueue_zeroPageCnt (s : PageMem) (p : ℕ) :
    (s.addToQueue p).zeroPageCnt = s.zeroPageCnt := rfl

/-- The loop adds the pages from `p` on, one after the other, and nothing else. -/
theorem initPages_spec {top : ℕ} (htop : top % pageSize = 0) (fuel p : ℕ) (s : PageMem)
    (hfuel : top < p + fuel * pageSize) (hp : p % pageSize = 0) :
    (initPages top fuel p s).pages =
        ((List.range ((top - p) / pageSize)).map (p + · * pageSize)).reverse ++ s.pages ∧
      (initPages top fuel p s).allocPageCnt = s.allocPageCnt ∧
      (initPages top fuel p s).zeroPage = s.zeroPage ∧
      (initPages top fuel p s).zeroPageCnt = s.zeroPageCnt := by
  have hdone : ∀ p, top ≤ p → (top - p) / pageSize = 0 := by
    intro p h
    rw [Nat.sub_eq_zero_of_le h, Nat.zero_div]
  induction fuel generalizing p s with
  | zero => simp [initPages, hdone p (by omega)]
  | succ fuel ih =>
      rw [initPages]
      split_ifs with hlt
      · have hnext := ih (p + pageSize) (s.addToQueue p)
          (by rw [Nat.add_mul] at hfuel; omega) (by simpa using hp)
        -- both ends are multiples of the page size, so a page is left
        have hcount : (top - p) / pageSize = (top - (p + pageSize)) / pageSize + 1 := by
          simp only [pageSize] at *
          omega
        refine ⟨?_, hnext.2⟩
        rw [hnext.1, hcount, List.range_succ_eq_map, List.map_cons, List.reverse_cons,
          List.map_map, addToQueue_pages, List.append_assoc]
        congr 3
        funext i
        simp only [Function.comp_apply, Nat.succ_eq_add_one]
        ring
      · simp [hdone p (by omega)]

theorem firstPage_mod (e : ℕ) : firstPage e % pageSize = 0 := by
  simp [firstPage, pageBase]

theorem init_spec (e : ℕ) (mem : ℕ → Bytes 4096) :
    (init e mem).pages = ((List.range (totalPage e)).map (firstPage e + · * pageSize)).reverse ∧
      (init e mem).allocPageCnt = 0 ∧ (init e mem).zeroPage = none ∧
      (init e mem).zeroPageCnt = 0 := by
  have hfuel : p2k phystop < firstPage e + (totalPage e + 1) * pageSize := by
    simp only [totalPage, pageSize]
    omega
  simpa [init, totalPage] using initPages_spec (by decide) (totalPage e + 1) (firstPage e)
    ⟨[], mem, 0, none, 0⟩ hfuel (firstPage_mod e)

theorem init_length (e : ℕ) (mem : ℕ → Bytes 4096) : (init e mem).pages.length = totalPage e := by
  simp [(init_spec e mem).1]

theorem init_nodup (e : ℕ) (mem : ℕ → Bytes 4096) : (init e mem).pages.Nodup := by
  rw [(init_spec e mem).1]
  apply List.nodup_reverse.mpr
  apply List.Nodup.map _ List.nodup_range
  intro i j h
  simp only [pageSize] at h
  omega

-- the queue has thousands of pages, and nobody should count them
attribute [irreducible] init

/-- What `kfree_page` does: a reference less, the last reference, or a plain page. -/
theorem kfreePage_cases (s : PageMem) (p : ℕ) :
    (s.zeroPage = some p ∧ s.zeroPageCnt - 1 ≠ 0 ∧
      s.kfreePage p = { s with zeroPageCnt := s.zeroPageCnt - 1 }) ∨
    (s.zeroPage = some p ∧ s.zeroPageCnt - 1 = 0 ∧ s.kfreePage p =
      { addToQueue { s with zeroPageCnt := 0, allocPageCnt := s.allocPageCnt - 1 } p with
        zeroPage := none }) ∨
    (s.zeroPage ≠ some p ∧
      s.kfreePage p = addToQueue { s with allocPageCnt := s.allocPageCnt - 1 } p) := by
  rw [kfreePage]
  dsimp only
  split_ifs with h h0
  · exact Or.inr (Or.inl ⟨h, h0, by simp only [h0]⟩)
  · exact Or.inl ⟨h, h0, rfl⟩
  · exact Or.inr (Or.inr ⟨h, rfl⟩)

end PageMem

/-! ## The invariant -/

/-- What every call keeps.  `all` are the pages of the initial queue. -/
structure Acct (all : List ℕ) (s : PageSys) : Prop where
  nodup : s.m.pages.Nodup
  sub : s.m.pages ⊆ all
  held : ∀ p ∈ s.held, p ∈ all ∧ p ∉ s.m.pages
  /-- a page other than the zero page is handed out once -/
  once : ∀ p ∈ s.held, s.m.zeroPage ≠ some p → s.held.count p = 1
  /-- the reference count of the zero page -/
  refs : ∀ z, s.m.zeroPage = some z → 0 < s.held.count z ∧ s.m.zeroPageCnt = s.held.count z
  none : s.m.zeroPage = none → s.m.zeroPageCnt = 0
  /-- **the drift**: each zero page is counted once too often -/
  count : s.m.allocPageCnt = all.length - s.m.pages.length + s.lives
  back : s.backs + (if s.m.zeroPage = .none then 0 else 1) = s.lives

namespace Acct

variable {all : List ℕ} {s s' : PageSys} {e : ℕ} {mem : ℕ → Bytes 4096}

theorem init (e : ℕ) (mem : ℕ → Bytes 4096) :
    Acct (PageMem.init e mem).pages (PageSys.start e mem) := by
  obtain ⟨-, h2, h3, h4⟩ := PageMem.init_spec e mem
  constructor
  case nodup => exact PageMem.init_nodup e mem
  case sub => exact List.Subset.refl _
  case none => exact fun _ => h4
  case count => simp [PageSys.start, h2]
  case back => simp [PageSys.start, h3]
  case refs =>
    intro z hz
    rw [PageSys.start, h3] at hz
    cases hz
  all_goals simp [PageSys.start]

/-- The page at the head of the queue is handed out for the first time. -/
theorem fetch (h : Acct all s) {p : ℕ} {ps : List ℕ} (hp : s.m.pages = p :: ps) :
    p ∉ s.held ∧ p ∈ all ∧ p ∉ ps ∧ ps.Nodup ∧ ps ⊆ all ∧ ∀ q ∈ s.held, q ∈ all ∧ q ∉ ps := by
  have hnd := h.nodup
  have hsub := h.sub
  rw [hp] at hnd hsub
  rw [List.nodup_cons] at hnd
  refine ⟨?_, hsub (by simp), hnd.1, hnd.2, fun x hx => hsub (by simp [hx]), ?_⟩
  · intro hmem
    exact (h.held p hmem).2 (by simp [hp])
  · intro q hq
    obtain ⟨hall, hnot⟩ := h.held q hq
    rw [hp] at hnot
    exact ⟨hall, fun hx => hnot (by simp [hx])⟩

/-- A page that its only owner frees goes back to the queue. -/
theorem requeue (h : Acct all s) {p : ℕ} (hmem : p ∈ s.held) (hone : s.held.count p = 1) :
    p ∉ s.held.erase p ∧ (p :: s.m.pages).Nodup ∧ p :: s.m.pages ⊆ all ∧
      ∀ q ∈ s.held.erase p, q ∈ all ∧ q ∉ p :: s.m.pages := by
  have hgone : p ∉ s.held.erase p := by
    rw [← List.count_eq_zero, List.count_erase_self, hone]
  obtain ⟨hall, hnot⟩ := h.held p hmem
  refine ⟨hgone, List.nodup_cons.mpr ⟨hnot, h.nodup⟩, List.cons_subset.mpr ⟨hall, h.sub⟩, ?_⟩
  intro q hq
  have hqp : q ≠ p := fun heq => hgone (heq ▸ hq)
  obtain ⟨h1, h2⟩ := h.held q (List.mem_of_mem_erase hq)
  exact ⟨h1, by simp [hqp, h2]⟩

theorem kallocPage (h : Acct all s) (hs : s.step .kallocPage = some s') : Acct all s' := by
  cases hp : s.m.pages with
  | nil => simp [PageSys.step, PageMem.kallocPage, PageMem.fetchFromQueue, hp] at hs
  | cons p ps =>
      simp only [PageSys.step, PageMem.kallocPage, PageMem.fetchFromQueue, hp,
        Option.some.injEq] at hs
      obtain ⟨hnew, hall, hpps, hnd, hsub, hheld⟩ := h.fetch hp
      rw [← hs]
      constructor
      case nodup => exact hnd
      case sub => exact hsub
      case held =>
        intro q hq
        rcases List.mem_cons.mp hq with rfl | hq
        · exact ⟨hall, hpps⟩
        · exact hheld q hq
      case once =>
        intro q hq hz
        rw [List.count_cons]
        rcases List.mem_cons.mp hq with rfl | hq
        · simp [List.count_eq_zero_of_not_mem hnew]
        · have hne : p ≠ q := fun heq => hnew (heq ▸ hq)
          simp [hne, h.once q hq hz]
      case refs =>
        intro z hz
        have hr := h.refs z hz
        have hne : p ≠ z := fun heq => hnew (heq ▸ List.count_pos_iff.mp hr.1)
        simpa [List.count_cons, hne] using hr
      case none => exact h.none
      case count =>
        have hc := h.count
        rw [hp] at hc
        simp only [List.length_cons] at hc ⊢
        push_cast at hc
        omega
      case back => exact h.back

theorem getZeroPage (h : Acct all s) (hs : s.step .getZeroPage = some s') : Acct all s' := by
  cases hz : s.m.zeroPage with
  | some z =>
      -- one more reference to the page that is there
      have hr := h.refs z hz
      have hmem : z ∈ s.held := List.count_pos_iff.mp hr.1
      simp only [PageSys.step, PageMem.getZeroPage, hz, Option.some.injEq] at hs
      rw [← hs]
      constructor
      case held =>
        intro q hq
        rcases List.mem_cons.mp hq with rfl | hq
        · exact h.held q hmem
        · exact h.held q hq
      case once =>
        intro q hq hne
        have hzq : z ≠ q := fun heq => hne (by simp [heq])
        rcases List.mem_cons.mp hq with heq | hq
        · exact absurd heq.symm hzq
        · simpa [List.count_cons, hzq] using h.once q hq (hz ▸ hne)
      case refs =>
        intro w hw
        simp only [Option.some.injEq] at hw
        subst hw
        simp [hr.2]
      case none => simp
      case count => simpa using h.count
      case back => simpa [hz] using h.back
      case nodup => exact h.nodup
      case sub => exact h.sub
  | none =>
      cases hp : s.m.pages with
      | nil =>
          simp [PageSys.step, PageMem.getZeroPage, PageMem.kallocPage, PageMem.fetchFromQueue,
            hp, hz] at hs
      | cons p ps =>
          simp only [PageSys.step, PageMem.getZeroPage, PageMem.kallocPage,
            PageMem.fetchFromQueue, hp, hz, Option.some.injEq] at hs
          obtain ⟨hnew, hall, hpps, hnd, hsub, hheld⟩ := h.fetch hp
          rw [← hs]
          constructor
          case nodup => exact hnd
          case sub => exact hsub
          case held =>
            intro q hq
            rcases List.mem_cons.mp hq with rfl | hq
            · exact ⟨hall, hpps⟩
            · exact hheld q hq
          case once =>
            intro q hq hne
            have hpq : p ≠ q := fun heq => hne (by simp [heq])
            rcases List.mem_cons.mp hq with heq | hq
            · exact absurd heq.symm hpq
            · simpa [List.count_cons, hpq] using h.once q hq (by simp [hz])
          case refs =>
            intro w hw
            simp only [Option.some.injEq] at hw
            subst hw
            simp [List.count_eq_zero_of_not_mem hnew]
          case none => simp
          case count =>
            have hc := h.count
            rw [hp] at hc
            simp only [List.length_cons, if_true] at hc ⊢
            push_cast at hc ⊢
            omega
          case back => simpa [hz] using h.back

theorem kfreePage (h : Acct all s) {p : ℕ} (hs : s.step (.kfreePage p) = some s') :
    Acct all s' := by
  simp only [PageSys.step] at hs
  by_cases hmem : p ∈ s.held
  · rw [if_pos hmem] at hs
    cases hs
    -- what is left of the other pages
    have hheld : ∀ q ∈ s.held.erase p, q ∈ s.held := fun q hq => List.mem_of_mem_erase hq
    have hcount : ∀ q, q ≠ p → (s.held.erase p).count q = s.held.count q := by
      intro q hq
      exact List.count_erase_of_ne hq
    have hself : (s.held.erase p).count p = s.held.count p - 1 := List.count_erase_self
    rcases s.m.kfreePage_cases p with ⟨hz, hne, heq⟩ | ⟨hz, h0, heq⟩ | ⟨hz, heq⟩
    · obtain ⟨hpos, hr⟩ := h.refs p hz
      rw [heq]
      constructor
      case nodup => exact h.nodup
      case sub => exact h.sub
      case held => exact fun q hq => h.held q (hheld q hq)
      case once =>
        intro q hq hzq
        have hqp : q ≠ p := fun heq => hzq (by simp [hz, heq])
        rw [hcount q hqp]
        exact h.once q (hheld q hq) hzq
      case refs =>
        intro z hzz
        simp only [hz, Option.some.injEq] at hzz
        subst hzz
        rw [hself]
        constructor
        · omega
        · simp only
          omega
      case none => simp [hz]
      case count => exact h.count
      case back => simpa [hz] using h.back
    · obtain ⟨hpos, hr⟩ := h.refs p hz
      have hone : s.held.count p = 1 := by omega
      obtain ⟨hgone, hnd, hsub, hback⟩ := h.requeue hmem hone
      rw [heq]
      constructor
      case nodup => exact hnd
      case sub => exact hsub
      case held => exact hback
      case once =>
        intro q hq _
        have hqp : q ≠ p := fun heq => hgone (heq ▸ hq)
        rw [hcount q hqp]
        apply h.once q (hheld q hq)
        simp [hz, Ne.symm hqp]
      case refs => simp
      case none => simp
      case count =>
        have hc := h.count
        simp only [PageMem.addToQueue_pages, PageMem.addToQueue_allocPageCnt,
          List.length_cons]
        push_cast
        omega
      case back => simpa [hz] using h.back
    · have hone := h.once p hmem hz
      obtain ⟨hgone, hnd, hsub, hback⟩ := h.requeue hmem hone
      rw [heq]
      constructor
      case nodup => exact hnd
      case sub => exact hsub
      case held => exact hback
      case once =>
        intro q hq hzq
        have hqp : q ≠ p := fun heq => hgone (heq ▸ hq)
        rw [hcount q hqp]
        exact h.once q (hheld q hq) hzq
      case refs =>
        intro z hzz
        have hzp : z ≠ p := fun heq => hz (by rw [← heq]; exact hzz)
        rw [hcount z hzp]
        exact h.refs z hzz
      case none => exact h.none
      case count =>
        have hc := h.count
        simp only [PageMem.addToQueue_pages, PageMem.addToQueue_allocPageCnt,
          List.length_cons]
        push_cast
        omega
      case back =>
        rw [if_neg hz]
        exact h.back
  · rw [if_neg hmem] at hs
    cases hs

/-- **Every call keeps the invariant.** -/
theorem step {c : PageCall} (h : Acct all s) (hs : s.step c = some s') : Acct all s' := by
  cases c with
  | kallocPage => exact h.kallocPage hs
  | getZeroPage => exact h.getZeroPage hs
  | kfreePage p => exact h.kfreePage hs
  | write p c =>
      simp only [PageSys.step] at hs
      split_ifs at hs
      · cases hs
        obtain ⟨h1, h2, h3, h4, h5, h6, h7, h8⟩ := h
        exact ⟨h1, h2, h3, h4, h5, h6, h7, h8⟩

theorem runs (h : Acct all s) {is : List PageCall} (hr : OsLab.runs PageSys.step s is = some s') :
    Acct all s' := by
  induction is generalizing s with
  | nil =>
      cases hr
      exact h
  | cons c is ih =>
      rw [runs_cons, Option.bind_eq_some_iff] at hr
      obtain ⟨t, ht, hr⟩ := hr
      exact ih (h.step ht) hr

/-- Without a zero page the accounting is right. -/
theorem exact_iff (h : Acct all s) (hlen : all.length = totalPage e) :
    s.Exact e ↔ s.lives = 0 := by
  have hle : s.m.pages.length ≤ totalPage e :=
    hlen ▸ (List.subperm_of_subset h.nodup h.sub).length_le
  have hsmall : totalPage e < 2 ^ 64 := by
    have : totalPage e ≤ p2k phystop := (Nat.div_le_self _ _).trans (Nat.sub_le _ _)
    exact lt_of_le_of_lt this (by decide)
  have hc := h.count
  rw [hlen] at hc
  constructor
  · intro hx
    have := hx.count
    omega
  · intro h0
    constructor
    case count => omega
    case left =>
      rw [PageMem.leftPageCnt, hc, h0]
      have : ((totalPage e : ℤ) - (totalPage e - s.m.pages.length + (0 : ℕ))) = s.m.pages.length := by
        push_cast
        ring
      rw [this]
      omega
    case zero =>
      intro z hz
      obtain ⟨hpos, hr⟩ := h.refs z hz
      have hnot := (h.held z (List.count_pos_iff.mp hpos)).2
      simp only [hnot, false_iff]
      omega
    case noZero => exact h.none
    case back => exact h.back

end Acct

/-! ## Runs -/

namespace PageSys

variable {all : List ℕ} {e : ℕ} {mem : ℕ → Bytes 4096} {is : List PageCall} {s s' : PageSys}

/-- Only `get_zero_page` begins a life of the zero page. -/
theorem lives_of_step {c : PageCall} (hs : s.step c = some s') (hc : c ≠ .getZeroPage) :
    s'.lives = s.lives := by
  cases c with
  | kallocPage =>
      simp only [step] at hs
      split at hs <;> cases hs
      rfl
  | getZeroPage => exact absurd rfl hc
  | kfreePage p =>
      simp only [step, Option.ite_none_right_eq_some, Option.some.injEq] at hs
      rw [← hs.2]
  | write p c =>
      simp only [step, Option.ite_none_right_eq_some, Option.some.injEq] at hs
      rw [← hs.2]

/-- After `get_zero_page` there is a zero page. -/
theorem lives_pos_of_getZeroPage (h : Acct all s) (hs : s.step .getZeroPage = some s') :
    0 < s'.lives := by
  have hz : s'.m.zeroPage ≠ none := by
    simp only [step] at hs
    split at hs
    · cases hs
    · rename_i p m hm
      cases hs
      have : m.zeroPage = some p := by
        simp only [PageMem.getZeroPage, Prod.mk.injEq] at hm
        rw [← hm.2]
        exact hm.1
      simp [this]
  have hback := (h.step hs).back
  rw [if_neg hz] at hback
  omega

theorem lives_pos_iff (h : Acct all s) (hr : runs step s is = some s') :
    0 < s'.lives ↔ 0 < s.lives ∨ PageCall.getZeroPage ∈ is := by
  induction is generalizing s with
  | nil =>
      cases hr
      simp
  | cons c is ih =>
      rw [runs_cons, Option.bind_eq_some_iff] at hr
      obtain ⟨t, ht, hr⟩ := hr
      rw [ih (h.step ht) hr, List.mem_cons]
      by_cases hc : c = .getZeroPage
      · subst hc
        simp [lives_pos_of_getZeroPage h ht]
      · rw [lives_of_step ht hc]
        simp [Ne.symm hc]

end PageSys

/-- **The accounting stays right exactly in the runs without a zero page.** -/
theorem accounting_iff {e : ℕ} {mem : ℕ → Bytes 4096} {is : List PageCall} {s : PageSys}
    (hr : runs PageSys.step (PageSys.start e mem) is = some s) :
    (∀ js, js <+: is → ∀ t, runs PageSys.step (PageSys.start e mem) js = some t → t.Exact e) ↔
      PageCall.getZeroPage ∉ is := by
  have hinit := Acct.init e mem
  have hlen := PageMem.init_length e mem
  constructor
  · intro h hmem
    have hs := ((hinit.runs hr).exact_iff hlen).mp (h is List.prefix_rfl s hr)
    have hpos := (PageSys.lives_pos_iff hinit hr).mpr (Or.inr hmem)
    omega
  · intro h js hjs t ht
    have hpos : ¬ 0 < t.lives := by
      rw [PageSys.lives_pos_iff hinit ht]
      intro hor
      rcases hor with h0 | hmem
      · exact absurd h0 (by simp [PageSys.start])
      · exact h (hjs.subset hmem)
    exact ((hinit.runs ht).exact_iff hlen).mpr (by omega)

/-- Two pages of memory, both taken and one given back. -/
theorem accounting_two_pages :
    ∃ s, runs PageSys.step (PageSys.start (p2k phystop - 3 * 4096) fun _ => .zero)
      [.kallocPage, .kallocPage, .kfreePage (p2k phystop - 4096)] = some s ∧
      s.Exact (p2k phystop - 3 * 4096) := by
  have hr : (runs PageSys.step (PageSys.start (p2k phystop - 3 * 4096) fun _ => .zero)
      [.kallocPage, .kallocPage, .kfreePage (p2k phystop - 4096)]).isSome = true := by
    decide +kernel
  obtain ⟨s, hs⟩ := Option.isSome_iff_exists.mp hr
  exact ⟨s, hs, (accounting_iff hs).mpr (by simp) _ List.prefix_rfl s hs⟩

/-- The first `get_zero_page` takes one page and counts two. -/
theorem zero_page_counted_twice :
    ¬ ∀ (e : ℕ) (mem : ℕ → Bytes 4096) (is : List PageCall) (s : PageSys),
      runs PageSys.step (PageSys.start e mem) is = some s → s.Exact e := by
  intro h
  have hr : (runs PageSys.step (PageSys.start (p2k phystop - 3 * 4096) fun _ => .zero)
      [.getZeroPage]).isSome = true := by
    decide +kernel
  obtain ⟨s, hs⟩ := Option.isSome_iff_exists.mp hr
  have hinit := Acct.init (p2k phystop - 3 * 4096) fun _ => .zero
  have h0 := ((hinit.runs hs).exact_iff (PageMem.init_length _ _)).mp (h _ _ _ s hs)
  have hpos := (PageSys.lives_pos_iff hinit hs).mpr (Or.inr (by simp))
  omega

end OsLab
