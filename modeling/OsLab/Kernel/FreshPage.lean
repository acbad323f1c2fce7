import OsLab.Kernel.Paging

/-!
# What a fresh page contains

A page that `pgfault` maps for a heap address, lazily or in place of the zero page, and
the page that `get_zero_page` hands out should contain only zeros.  Nothing on the way
from the free queue to the process clears a page: the process sees what the last owner
left, with the link of the queue in the first word.  As the link is null only in the
last page of the queue, a fresh page is zero exactly when it was the only one left and
its other bytes were zero.

A fault has to come that far, though: while `left_page_cnt` is at most `REVERSED_PAGES`,
`alloc_page_for_user` swaps other processes out first.  As each zero page is counted once
too often, one page that is left is a small number until two zero pages have been made,
and a huge one after that (`Machine.OneZeroPageAhead`).

## Main definitions

* `Linked` — the links in the pages of the queue.
* `OneZeroPage` — the queue holds one page, and that one is zero but for the link.
* `FirstTouch` — the faults that map a fresh page.
* `OneZeroPageAhead` — the states before a fault that map a zero page.
* `fresh_page_zero_iff` — the result over all histories.
-/

namespace OsLab

/-- Each page of the queue holds the address of the next one in its first word. -/
def Linked (mem : ℕ → Bytes 4096) : List ℕ → Prop
  | [] => True
  | p :: ps => (mem p).word 0 8 = ps.headD 0 ∧ Linked mem ps

/-- The queue holds exactly one page, and its bytes after the link are zero. -/
def OneZeroPage (m : PageMem) : Prop :=
  ∃ p, m.pages = [p] ∧ ∀ i, 8 ≤ i → (m.mem p).get i = 0

namespace Machine

/-- The entry of the current process for `addr`, zero if there is no table for it. -/
def entryAt (s : Machine) (addr : ℕ) : ℕ :=
  match s.pt.lookup s.cur addr with
  | some (some slot, _) => s.entry slot
  | _ => 0

/-- The section that `pgfault` finds for `addr` is not swapped out. -/
def InMemory (s : Machine) (addr : ℕ) : Prop :=
  ∃ j st, (s.sections s.cur).findIdx? (fun st => st.start ≤ addr ∧ addr < st.stop) = some j ∧
    (s.sections s.cur)[j]? = some st ∧ st.flags &&& stSwap = 0

/-- The first touch of a heap address: nothing is mapped there, or a write finds the zero page. -/
def FirstTouch (s : Machine) (addr : ℕ) : Prop :=
  s.InMemory addr ∧ (s.entryAt addr = 0 ∨
    s.entryAt addr &&& pteRo = 0 ∧ s.entryAt addr &&& pteValid = 0) ∨
  s.entryAt addr &&& pteRo ≠ 0 ∧ s.pt.sys.m.zeroPage = some (p2k (pteAddress (s.entryAt addr)))

/-- The write at `addr` drops the last reference to the zero page. -/
def LastZeroRef (s : Machine) (addr : ℕ) : Prop :=
  s.entryAt addr &&& pteRo ≠ 0 ∧ s.pt.sys.m.zeroPageCnt = 1

/-- **Before a fault**: at least two zero pages have been made, and the queue holds one page, which is
zero but for the link; or it is empty, and the zero page, which the fault puts into it, is zero but
for the link. -/
def OneZeroPageAhead (s : Machine) (addr : ℕ) : Prop :=
  2 ≤ s.pt.sys.lives ∧
    (¬ s.LastZeroRef addr → OneZeroPage s.pt.sys.m) ∧
    (s.LastZeroRef addr → s.pt.sys.m.pages = [] ∧
      ∀ z, s.pt.sys.m.zeroPage = some z → ∀ i, 8 ≤ i → (s.mem z).get i = 0)

/-- The machine when the fault at `addr` calls `alloc_page_for_user`. -/
def beforeAlloc (s : Machine) (addr : ℕ) : Option Machine := do
  let t ← s.call (.getPte s.cur addr false)
  if s.entryAt addr &&& pteRo = 0 then some t
  else t.call (.page (.kfreePage (p2k (pteAddress (s.entryAt addr)))))

end Machine

/-! ## The links of the queue -/

namespace Linked

variable {mem mem' : ℕ → Bytes 4096} {l ps : List ℕ} {p : ℕ}

theorem congr (h : Linked mem ps) (hmem : ∀ q ∈ ps, mem' q = mem q) : Linked mem' ps := by
  induction ps with
  | nil => trivial
  | cons p ps ih =>
      refine ⟨?_, ih h.2 fun q hq => hmem q (by simp [hq])⟩
      rw [hmem p (by simp)]
      exact h.1

theorem drop (h : Linked mem (l ++ ps)) : Linked mem ps := by
  induction l with
  | nil => exact h
  | cons p l ih => exact ih h.2

theorem addToQueue {m : PageMem} (h : Linked m.mem m.pages) (hp : p ∉ m.pages)
    (hlt : ∀ q ∈ m.pages, q < 2 ^ 64) :
    Linked (m.addToQueue p).mem (m.addToQueue p).pages := by
  constructor
  · have hhead : m.pages.headD 0 < 256 ^ 8 := by
      cases hps : m.pages with
      | nil => simp
      | cons q qs => exact hlt q (by simp [hps])
    simp only [PageMem.addToQueue, Function.update_self]
    rw [Bytes.word_setWord_self _ _ (by omega), Nat.mod_eq_of_lt hhead]
  · apply h.congr
    intro q hq
    have hqp : q ≠ p := fun heq => hp (heq ▸ hq)
    simp [PageMem.addToQueue, hqp]

end Linked

theorem GoodPage.lt {p : ℕ} (h : GoodPage p) : p < 2 ^ 64 := by
  obtain ⟨n, hn, rfl⟩ := h
  simp only [kspaceMask]
  omega

/-- **The head of the queue is zero exactly when it is the only page** and zero but for the
link. -/
theorem oneZeroPage_iff {m : PageMem} {p : ℕ} {ps : List ℕ} (hl : Linked m.mem m.pages)
    (hp : m.pages = p :: ps) (hgood : ∀ q ∈ ps, GoodPage q) :
    m.mem p = .zero ↔ OneZeroPage m := by
  rw [hp] at hl
  constructor
  · intro hz
    refine ⟨p, ?_, fun i _ => by rw [hz, Bytes.get_zero]⟩
    have hlink := hl.1
    rw [hz, Bytes.word_zero] at hlink
    cases ps with
    | nil => exact hp
    | cons q qs => exact absurd hlink.symm (hgood q (by simp)).ne_zero
  · rintro ⟨q, hq, hzero⟩
    rw [hp] at hq
    cases hq
    apply Bytes.ext_get
    intro i _
    rw [Bytes.get_zero]
    by_cases hi : i < 8
    · have hword := (Bytes.word_eq_zero_iff _ 0 8).mp hl.1 i hi
      rwa [Nat.zero_add] at hword
    · exact hzero i (by omega)

/-! ## After the early initializers -/

namespace PageMem

theorem initPages_linked {top : ℕ} (htop : top < 2 ^ 64) (fuel p : ℕ) {s : PageMem}
    (h : Linked s.mem s.pages) (hlt : ∀ q ∈ s.pages, q < p ∧ q < 2 ^ 64) :
    Linked (initPages top fuel p s).mem (initPages top fuel p s).pages := by
  induction fuel generalizing p s with
  | zero => exact h
  | succ fuel ih =>
      rw [initPages]
      split_ifs with hp
      · apply ih
        · apply h.addToQueue
          · intro hmem
            have := (hlt p hmem).1
            omega
          · exact fun q hq => (hlt q hq).2
        · intro q hq
          rw [addToQueue_pages, List.mem_cons] at hq
          rcases hq with rfl | hq
          · simp only [pageSize]
            omega
          · have := hlt q hq
            simp only [pageSize]
            omega
      · exact h

theorem init_linked (e : ℕ) (mem : ℕ → Bytes 4096) :
    Linked (init e mem).mem (init e mem).pages := by
  have htop : p2k phystop < 2 ^ 64 := by decide
  rw [init]
  generalize p2k phystop = top at htop ⊢
  exact initPages_linked htop _ _ trivial (by simp)

/-- The kernel image lies in the kernel's part of the address space. -/
theorem init_booted {e : ℕ} (he : kspaceMask ≤ e) (mem : ℕ → Bytes 4096) :
    Booted (init e mem) := by
  obtain ⟨h1, h2, h3, h4⟩ := init_spec e mem
  refine ⟨init_nodup e mem, ?_, h2, h3, h4⟩
  intro p hp
  rw [h1, List.mem_reverse, List.mem_map] at hp
  obtain ⟨i, hi, rfl⟩ := hp
  have hi := List.mem_range.mp hi
  refine ⟨(firstPage e - kspaceMask) / 4096 + i, ?_, ?_⟩
  · simp only [totalPage, firstPage, pageBase, pageSize, p2k, phystop, kspaceMask] at *
    omega
  · simp only [firstPage, pageBase, pageSize, kspaceMask] at *
    omega

end PageMem

/-! ## Every call keeps the links -/

/-- What holds along every history. -/
def History (all : List ℕ) (s : PtSys) : Prop :=
  (∃ T, PtOk all T s) ∧ Linked s.sys.m.mem s.sys.m.pages

namespace History

variable {all : List ℕ} {T : TableMap} {s s' : PtSys}

theorem of_booted {m : PageMem} (hm : Booted m) (hl : Linked m.mem m.pages) :
    History m.pages (PtSys.start m) := ⟨⟨_, PtOk.init hm⟩, hl⟩

theorem init {e : ℕ} (he : kspaceMask ≤ e) (mem : ℕ → Bytes 4096) :
    History (PageMem.init e mem).pages (PtSys.start (PageMem.init e mem)) :=
  of_booted (PageMem.init_booted he mem) (PageMem.init_linked e mem)

theorem linked_page (h : PtOk all T s) (hl : Linked s.sys.m.mem s.sys.m.pages) {c : PageCall}
    {sys' : PageSys} (hs : s.sys.step c = some sys') : Linked sys'.m.mem sys'.m.pages := by
  have hfree : ∀ p ∈ s.sys.held, p ∉ s.sys.m.pages := fun p hp => (h.acct.held p hp).2
  have hlt : ∀ q ∈ s.sys.m.pages, q < 2 ^ 64 := fun q hq => (h.supply.good q hq).lt
  cases c with
  | kallocPage =>
      cases hp : s.sys.m.pages with
      | nil => simp [PageSys.step, PageMem.kallocPage, PageMem.fetchFromQueue, hp] at hs
      | cons p ps =>
          simp only [PageSys.step, PageMem.kallocPage, PageMem.fetchFromQueue, hp,
            Option.some.injEq] at hs
          rw [hp] at hl
          rw [← hs]
          exact hl.2
  | getZeroPage =>
      cases hz : s.sys.m.zeroPage with
      | some z =>
          simp only [PageSys.step, PageMem.getZeroPage, hz, Option.some.injEq] at hs
          rw [← hs]
          exact hl
      | none =>
          cases hp : s.sys.m.pages with
          | nil =>
              simp [PageSys.step, PageMem.getZeroPage, PageMem.kallocPage,
                PageMem.fetchFromQueue, hp, hz] at hs
          | cons p ps =>
              simp only [PageSys.step, PageMem.getZeroPage, PageMem.kallocPage,
                PageMem.fetchFromQueue, hp, hz, Option.some.injEq] at hs
              rw [hp] at hl
              rw [← hs]
              exact hl.2
  | kfreePage p =>
      simp only [PageSys.step, Option.ite_none_right_eq_some, Option.some.injEq] at hs
      obtain ⟨hmem, rfl⟩ := hs
      rcases s.sys.m.kfreePage_cases p with ⟨-, -, heq⟩ | ⟨-, -, heq⟩ | ⟨-, heq⟩
      · rw [heq]
        exact hl
      · rw [heq]
        exact Linked.addToQueue (m := { s.sys.m with
          zeroPageCnt := 0, allocPageCnt := s.sys.m.allocPageCnt - 1 }) hl (hfree p hmem) hlt
      · rw [heq]
        exact Linked.addToQueue (m := { s.sys.m with
          allocPageCnt := s.sys.m.allocPageCnt - 1 }) hl (hfree p hmem) hlt
  | write p c =>
      simp only [PageSys.step, Option.ite_none_right_eq_some, Option.some.injEq] at hs
      obtain ⟨hmem, rfl⟩ := hs
      apply hl.congr
      intro q hq
      have hqp : q ≠ p := by
        rintro rfl
        exact hfree q hmem hq
      simp [hqp]

/-- A table is no page of the queue, so writing to it breaks no link. -/
theorem linked_setPte {m : PageMem} {t i v : ℕ} (hl : Linked m.mem m.pages) (ht : t ∉ m.pages) :
    Linked (m.setPte t i v).mem (m.setPte t i v).pages := by
  apply hl.congr
  intro q hq
  apply PageMem.setPte_mem_of_ne
  rintro rfl
  exact ht hq

theorem linked_grown {pd : ℕ} {key : ℕ → ℕ} {T' : TableMap} {m m' : PageMem}
    (g : Grown pd key T T' m m') (hl : Linked m.mem m.pages) : Linked m'.mem m'.pages := by
  obtain ⟨l, heq, -⟩ := g.taken
  rw [heq] at hl
  exact hl.drop.congr g.queue

/-- **Every call keeps what holds along a history.** -/
theorem step {c : PtCall} (h : History all s) (hs : s.step c = some s') : History all s' := by
  obtain ⟨⟨T, hT⟩, hl⟩ := h
  obtain ⟨T', hT', -⟩ := hT.step hs
  refine ⟨⟨T', hT'⟩, ?_⟩
  cases c with
  | getPte pd va alloc =>
      rw [PtSys.step, Option.bind_eq_bind, Option.bind_eq_some_iff] at hs
      obtain ⟨⟨slot, pt, m'⟩, hg, hs⟩ := hs
      cases alloc with
      | true =>
          obtain ⟨T'', t, -, -, -, g⟩ := hT.tables.getPte_true hT.supply hg
          cases hs
          exact linked_grown g hl
      | false =>
          rw [hT.tables.getPte_false] at hg
          cases hg
          cases hs
          exact hl
  | write slot v =>
      rw [PtSys.step, Option.bind_eq_bind, Option.bind_eq_some_iff] at hs
      obtain ⟨⟨⟨t, i⟩, pd, x⟩, hfind, hs⟩ := hs
      have hslot : (t, i) = slot := by simpa using List.find?_some hfind
      subst hslot
      obtain ⟨ht, -⟩ := hT.ptrs t i pd x (List.mem_of_find?_eq_some hfind)
      cases hs
      exact linked_setPte hl (hT.tables.used _ _ _ _ ht)
  | vmmap pd va ka flags =>
      rw [PtSys.step, Option.bind_eq_bind, Option.bind_eq_some_iff] at hs
      obtain ⟨⟨pt, m'⟩, hv, hs⟩ := hs
      rw [PageMem.vmmap, Option.bind_eq_bind, Option.bind_eq_some_iff] at hv
      obtain ⟨⟨slot, pt', m''⟩, hg, hv⟩ := hv
      obtain ⟨T'', t, rfl, ht, htab, g⟩ := hT.tables.getPte_true hT.supply hg
      cases hv
      cases hs
      exact linked_setPte (linked_grown g hl) (htab.used _ _ _ _ ht)
  | page c =>
      rw [PtSys.step, Option.bind_eq_bind, Option.bind_eq_some_iff] at hs
      obtain ⟨sys', hs', hs⟩ := hs
      cases hs
      exact linked_page hT hl hs'

theorem runs (h : History all s) {cs : List PtCall} (hr : OsLab.runs PtSys.step s cs = some s') :
    History all s' := by
  induction cs generalizing s with
  | nil =>
      cases hr
      exact h
  | cons c cs ih =>
      rw [runs_cons, Option.bind_eq_some_iff] at hr
      obtain ⟨t, ht, hr⟩ := hr
      exact ih (h.step ht) hr

theorem evolves {P : PtCall → Prop} {s s' : Machine} (h : History all s.pt)
    (he : EvolvesBy P s s') : History all s'.pt := by
  obtain ⟨cs, -, hcs⟩ := he.calls
  exact h.runs hcs

/-- A call that takes no page makes no zero page either. -/
theorem frees_step {c : PtCall} (h : History all s) (hc : c.Frees) (hs : s.step c = some s') :
    s.sys.m.pages.length ≤ s'.sys.m.pages.length ∧ s'.sys.lives = s.sys.lives := by
  obtain ⟨⟨T, hT⟩, -⟩ := h
  cases c with
  | getPte pd va alloc =>
      cases hc
      rw [PtSys.step, hT.tables.getPte_false] at hs
      cases hs
      exact ⟨le_refl _, rfl⟩
  | write slot v =>
      rw [PtSys.step, Option.bind_eq_bind, Option.bind_eq_some_iff] at hs
      obtain ⟨_, -, hs⟩ := hs
      cases hs
      exact ⟨le_refl _, rfl⟩
  | vmmap => cases hc
  | page c =>
      cases c with
      | kfreePage p =>
          simp only [PtSys.step, PageSys.step, Option.bind_eq_bind, Option.bind_eq_some_iff,
            Option.ite_none_right_eq_some, Option.some.injEq] at hs
          obtain ⟨_, ⟨-, rfl⟩, rfl⟩ := hs
          refine ⟨?_, rfl⟩
          rcases s.sys.m.kfreePage_cases p with ⟨-, -, heq⟩ | ⟨-, -, heq⟩ | ⟨-, heq⟩
          all_goals
            simp only [heq, PageMem.addToQueue_pages, List.length_cons]
            omega
      | _ => cases hc

theorem frees {s s' : Machine} (h : History all s.pt) (he : EvolvesBy PtCall.Frees s s') :
    s.pt.sys.m.pages.length ≤ s'.pt.sys.m.pages.length ∧ s'.pt.sys.lives = s.pt.sys.lives := by
  obtain ⟨cs, hP, hcs⟩ := he.calls
  generalize s.pt = t at h hcs ⊢
  induction cs generalizing t with
  | nil =>
      cases hcs
      exact ⟨le_refl _, rfl⟩
  | cons c cs ih =>
      rw [runs_cons, Option.bind_eq_some_iff] at hcs
      obtain ⟨u, hu, hcs⟩ := hcs
      obtain ⟨hle, hlives⟩ := h.frees_step (hP c List.mem_cons_self) hu
      obtain ⟨hle', hlives'⟩ := ih (fun c hc => hP c (List.mem_cons_of_mem _ hc)) u (h.step hu) hcs
      exact ⟨hle.trans hle', hlives'.trans hlives⟩

/-- What `left_page_cnt` returns: a page less for each zero page made. -/
theorem leftPageCnt {e : ℕ} (h : History all s) (he : all.length = totalPage e) :
    s.sys.m.leftPageCnt e = (((s.sys.m.pages.length : ℤ) - s.sys.lives) % 2 ^ 64).toNat := by
  obtain ⟨⟨T, hT⟩, -⟩ := h
  rw [PageMem.leftPageCnt, hT.acct.count, he]
  congr 2
  ring

/-- As long as the count of the pages fits its 64 bits, so does that of the zero pages. -/
theorem lives_lt (h : History all s) (hcnt : s.sys.m.allocPageCnt < 2 ^ 63) :
    s.sys.lives < 2 ^ 63 := by
  obtain ⟨⟨T, hT⟩, -⟩ := h
  have hle := (hT.acct.nodup.subperm hT.acct.sub).length_le
  have hcount := hT.acct.count
  omega

end History

/-- `vmmap` leaves the page that it maps as it is, and its entry is the last one written. -/
theorem PtOk.vmmap_step {all : List ℕ} {T : TableMap} {s s' : PtSys} {pd va p flags : ℕ}
    (h : PtOk all T s) (hp : p ∈ s.sys.held) (hs : s.step (.vmmap pd va p flags) = some s') :
    s'.sys.m.mem p = s.sys.m.mem p ∧ s'.touched pd (va / 2 ^ 21 % 2 ^ 27) = true ∧
      s'.last pd (vpn va) = (k2p p ||| flags ||| pteValid) % 2 ^ 64 := by
  rw [PtSys.step, Option.bind_eq_bind, Option.bind_eq_some_iff] at hs
  obtain ⟨⟨pt, m'⟩, hv, hs⟩ := hs
  rw [PageMem.vmmap, Option.bind_eq_bind, Option.bind_eq_some_iff] at hv
  obtain ⟨⟨slot, pt', m''⟩, hg, hv⟩ := hv
  obtain ⟨T', t, rfl, ht, -, g⟩ := h.tables.getPte_true h.supply hg
  generalize k2p p ||| flags ||| pteValid = v at hv hs ⊢
  cases hv
  cases hs
  -- neither the tables that were there nor the new ones are the page
  have htp : p ≠ t := by
    rintro rfl
    rcases g.new _ _ _ _ ht with hold | ⟨-, -, -, hmem⟩
    · exact (h.own _ _ _ _ hold).2 hp
    · exact (h.acct.held p hp).2 hmem
  refine ⟨?_, ?_, ?_⟩
  · refine (PageMem.setPte_mem_of_ne htp).trans (g.frame p (h.acct.held p hp).2 ?_)
    intro pd' k x hT
    exact (h.own _ _ _ _ hT).2 hp
  · rw [← leafKey_eq]
    simp [PtSys.record, PtSys.touch, vpn_div]
  · simp [PtSys.record]

/-! ## The fault -/

theorem EvolvesBy.beforeAlloc {s t : Machine} {addr : ℕ} (h : s.beforeAlloc addr = some t) :
    EvolvesBy PtCall.Frees s t := by
  rw [Machine.beforeAlloc, Option.bind_eq_bind, Option.bind_eq_some_iff] at h
  obtain ⟨u, hu, h⟩ := h
  have hget : EvolvesBy PtCall.Frees s u := EvolvesBy.call hu rfl
  split_ifs at h
  · cases h
    exact hget
  · exact hget.trans (EvolvesBy.call h trivial)

namespace Machine

variable {all : List ℕ} {T : TableMap} {s s' t : Machine} {pd va addr p : ℕ} {r : ℤ}

/-- `get_pte` without `alloc` returns a pointer and does nothing else. -/
theorem call_getPte_false (h : PtOk all T s.pt) (pd va : ℕ) :
    s.call (.getPte pd va false) = some { s with pt := { s.pt with
      ptrs := ((T pd 3 (leafKey va)).map fun t => (t, vaPart3 va)).toList.map
        (fun p => (p, pd, vpn va)) ++ s.pt.ptrs } } := by
  rw [call, PtSys.step, h.tables.getPte_false]
  simp [PtSys.setMem]

theorem entryAt_eq {slot : Option (ℕ × ℕ)} {rest : ℕ × PageMem}
    (h : s.pt.lookup s.cur addr = some (slot, rest)) :
    s.entryAt addr = (slot.map s.entry).getD 0 := by
  rw [entryAt, h]
  cases slot with
  | none => rfl
  | some slot => rw [Option.map_some, Option.getD_some]

/-- A first touch maps a fresh page. -/
theorem pgfault_firstTouch (h : PtOk all T s.pt) (hf : s.FirstTouch addr)
    (hr : s.pgfault addr = some (r, s')) :
    ∃ t, s.beforeAlloc addr = some t ∧ t.mapFresh addr = some s' := by
  simp only [pgfault, h.lookup_eq, call_getPte_false h, Option.bind_eq_bind,
    Option.bind_some] at hr
  simp only [beforeAlloc, call_getPte_false h, Option.bind_eq_bind, Option.bind_some]
  rw [Option.bind_eq_some_iff] at hr
  obtain ⟨j, hj, hr⟩ := hr
  rw [Option.bind_eq_some_iff] at hr
  obtain ⟨st, hst, hr⟩ := hr
  have hentry := entryAt_eq (h.lookup_eq s.cur addr)
  generalize (T s.cur 3 (leafKey addr)).map (fun t => (t, vaPart3 addr)) = slot at hr hentry ⊢
  -- `get_pte` has changed no entry
  set u : Machine := { s with pt := { s.pt with
    ptrs := slot.toList.map (fun p => (p, s.cur, vpn addr)) ++ s.pt.ptrs } } with hu
  have hpte : (slot.map u.entry).getD 0 = s.entryAt addr := hentry.symm
  rw [hpte] at hr
  have hmap : ∀ v : Machine, (v.mapFresh addr).map ((0, ·)) = some (r, s') →
      v.mapFresh addr = some s' := by
    intro v hv
    rw [Option.map_eq_some_iff] at hv
    obtain ⟨w, hw, heq⟩ := hv
    cases heq
    exact hw
  rcases hf with ⟨⟨j', st', hj', hst', hswap⟩, hlazy⟩ | ⟨hro, -⟩
  · rw [hj] at hj'
    cases hj'
    rw [hst] at hst'
    cases hst'
    rcases hlazy with h0 | ⟨hro, hvalid⟩
    · rw [if_pos h0, if_neg (by simp [hswap])] at hr
      rw [h0, if_pos (Nat.zero_and _)]
      exact ⟨u, rfl, hmap u hr⟩
    · rw [if_pos hro]
      refine ⟨u, rfl, hmap u ?_⟩
      by_cases h0 : s.entryAt addr = 0
      · rwa [if_pos h0, if_neg (by simp [hswap])] at hr
      · rwa [if_neg h0, if_neg (by simp [hro]), if_pos hvalid, if_neg (by simp [hswap])] at hr
  · have h0 : s.entryAt addr ≠ 0 := by
      intro h0
      rw [h0] at hro
      exact hro (Nat.zero_and _)
    rw [if_neg h0, if_pos hro, Option.bind_eq_some_iff] at hr
    obtain ⟨v, hv, hr⟩ := hr
    rw [if_neg hro]
    exact ⟨v, hv, hmap v hr⟩

/-- The entry that `vmmap` writes for a user page is valid and leads to the page. -/
theorem userEntry (h : GoodPage p) :
    (k2p p ||| (pteUserData ||| pteRw) ||| pteValid) % 2 ^ 64 &&& pteValid ≠ 0 ∧
      p2k (pteAddress ((k2p p ||| (pteUserData ||| pteRw) ||| pteValid) % 2 ^ 64)) = p := by
  have hflags : pteUserData ||| pteRw ||| pteValid = 1607 := by decide
  rw [Nat.or_assoc, hflags, Nat.mod_eq_of_lt (h.entry_lt (by decide))]
  refine ⟨?_, h.p2k_pteAddress (by decide)⟩
  obtain ⟨n, -, -, hk⟩ := h.k2p_eq
  rw [hk, or_flags (by decide), pteValid, Nat.and_one_is_mod]
  omega

/-- A lookup that succeeds, for any test and any use of what it finds. -/
theorem bind_guard {α β γ : Type} {x : Option (Option α × β)} {a : α} {b : β} {c : α → Prop}
    [DecidablePred c] {f : α → γ} (h : x = some (some a, b)) (hc : ¬ c a) :
    (do
      let (o, _) ← x
      let o ← o
      if c o then none else some (f o)) = some (f a) := by
  subst h
  simp [hc]

theorem page_of_entry {slot : ℕ × ℕ} {rest : ℕ × PageMem} {v : ℕ}
    (h : s.pt.lookup pd va = some (some slot, rest)) (hv : s.entry slot = v)
    (hvalid : v &&& pteValid ≠ 0) : s.page pd va = some (s.mem (p2k (pteAddress v))) := by
  have hguard : ¬ s.entry slot &&& pteValid = 0 := by
    rw [hv]
    exact hvalid
  have hpage : s.page pd va = some (s.mem (p2k (pteAddress (s.entry slot)))) := by
    rw [page]
    exact bind_guard h hguard
  rw [hpage, hv]

/-- What a process sees where `vmmap` has mapped one of its pages: the page as it was. -/
theorem page_vmmap (h : PtOk all T s.pt) (hp : p ∈ s.pt.sys.held)
    (hr : s.call (.vmmap pd va p (pteUserData ||| pteRw)) = some s') :
    s'.page pd va = some (s.mem p) := by
  have hgood : GoodPage p := h.good p (h.acct.held p hp).1
  rw [call, Option.map_eq_some_iff] at hr
  obtain ⟨pt', hstep, rfl⟩ := hr
  obtain ⟨T', hT', -⟩ := h.step hstep
  have hmap := hT'.isMap
  obtain ⟨hmem, htouched, hlast⟩ := h.vmmap_step hp hstep
  obtain ⟨slot, hlook, hnone⟩ := hmap.find pd va
  cases slot with
  | none =>
      rw [hnone.mp rfl] at htouched
      cases htouched
  | some slot =>
      have hentry := (hmap.value pd va slot hlook).trans hlast
      obtain ⟨hvalid, haddr⟩ := userEntry hgood
      rw [page_of_entry (s := { s with pt := pt' }) hlook hentry hvalid, haddr]
      exact congrArg some hmem

/-- `alloc_page_for_user` returns the page at the head of the queue, as it is. -/
theorem allocPageForUser_spec (h : History all s.pt) (hr : s.allocPageForUser = some (p, s')) :
    ∃ t ps, s.reclaim (s.offline.length + 1) = some t ∧ t.cur = s.cur ∧ History all t.pt ∧
      t.pt.sys.m.pages = p :: ps ∧ s'.cur = s.cur ∧ History all s'.pt ∧ p ∈ s'.pt.sys.held ∧
      s'.mem p = t.mem p := by
  simp only [allocPageForUser, Option.bind_eq_bind, Option.bind_eq_some_iff] at hr
  obtain ⟨t, ht, u, hu, p', hp', hr⟩ := hr
  cases hr
  have et := EvolvesBy.reclaim _ ht
  have eu : EvolvesBy (fun _ => True) s s' :=
    (et.mono fun _ _ => trivial).trans (EvolvesBy.call hu trivial)
  have hhist := h.evolves eu
  rw [call, Option.map_eq_some_iff] at hu
  obtain ⟨pt', hstep, rfl⟩ := hu
  rw [PtSys.step, Option.bind_eq_bind, Option.bind_eq_some_iff] at hstep
  obtain ⟨sys', hsys, hstep⟩ := hstep
  cases hstep
  cases hpages : t.pt.sys.m.pages with
  | nil => simp [PageSys.step, PageMem.kallocPage, PageMem.fetchFromQueue, hpages] at hsys
  | cons q qs =>
      simp only [PageSys.step, PageMem.kallocPage, PageMem.fetchFromQueue, hpages,
        Option.some.injEq] at hsys
      have hq : q = p := by
        rw [← hsys] at hp'
        exact Option.some.inj hp'
      subst hq
      refine ⟨t, qs, ht, et.cur, h.evolves et, hpages, eu.cur, hhist, ?_, ?_⟩
      · rw [← hsys]
        exact List.mem_cons_self
      · simp only [mem]
        rw [← hsys]

/-- The process sees the page that was at the head of the queue, as it was. -/
theorem mapFresh_spec (h : History all s.pt) (hr : s.mapFresh addr = some s') :
    ∃ t p ps, s.reclaim (s.offline.length + 1) = some t ∧ History all t.pt ∧
      t.pt.sys.m.pages = p :: ps ∧ s'.page s.cur addr = some (t.mem p) := by
  rw [mapFresh, Option.bind_eq_bind, Option.bind_eq_some_iff] at hr
  obtain ⟨⟨p, u⟩, halloc, hmap⟩ := hr
  obtain ⟨t, ps, ht, -, hth, hpages, hcur, ⟨⟨T, hT⟩, -⟩, hheld, hmem⟩ :=
    allocPageForUser_spec h halloc
  refine ⟨t, p, ps, ht, hth, hpages, ?_⟩
  rw [← hcur, ← hmem]
  exact page_vmmap hT hheld hmap

end Machine

theorem History.oneZeroPage_iff {all : List ℕ} {s : PtSys} {p : ℕ} {ps : List ℕ}
    (h : History all s) (hp : s.sys.m.pages = p :: ps) :
    s.sys.m.mem p = .zero ↔ OneZeroPage s.sys.m := by
  obtain ⟨⟨T, hT⟩, hl⟩ := h
  apply OsLab.oneZeroPage_iff hl hp
  intro q hq
  exact hT.supply.good q (by simp [hp, hq])

/-! ## The state before the fault -/

section Ahead

variable {all : List ℕ} {s t u s' : Machine} {addr : ℕ} {r : ℤ}

/-- Swapping out leaves more than one page, or has nothing to do. -/
theorem History.oneZeroPage_reclaim (h : History all t.pt) (hall : all.length = totalPage t.image)
    (hlives : t.pt.sys.lives < 2 ^ 63) {fuel : ℕ} (hr : t.reclaim (fuel + 1) = some u) :
    OneZeroPage u.pt.sys.m ↔ OneZeroPage t.pt.sys.m ∧ 2 ≤ t.pt.sys.lives := by
  have he := EvolvesBy.reclaim _ hr
  obtain ⟨hle, hsame⟩ := h.frees he
  have hleft := h.leftPageCnt hall
  have hself : reversedPages < t.pt.sys.m.leftPageCnt t.image → u = t := by
    intro hlt
    rw [Machine.reclaim_self hlt] at hr
    exact (Option.some.inj hr).symm
  simp only [reversedPages] at hself
  rw [hleft] at hself
  constructor
  · intro hone
    have hend := Machine.reclaim_left hr
    rw [(h.evolves he).leftPageCnt (he.image ▸ hall), hsame, reversedPages] at hend
    obtain ⟨p, hp, -⟩ := id hone
    rw [hp, List.length_singleton] at hend hle
    have htwo : 2 ≤ t.pt.sys.lives := by omega
    rw [hself (by omega)] at hone
    exact ⟨hone, htwo⟩
  · rintro ⟨hone, htwo⟩
    obtain ⟨p, hp, -⟩ := id hone
    rw [hp, List.length_singleton] at hself
    rw [hself (by omega)]
    exact hone

/-- What the fault does before it allocates: it puts the zero page into the queue, or changes neither
the queue nor its pages. -/
theorem History.oneZeroPage_beforeAlloc (h : History all s.pt) (hf : s.FirstTouch addr)
    (hb : s.beforeAlloc addr = some t) :
    OneZeroPage t.pt.sys.m ∧ 2 ≤ t.pt.sys.lives ↔ s.OneZeroPageAhead addr := by
  obtain ⟨⟨T, hT⟩, -⟩ := id h
  have hlives := (h.frees (EvolvesBy.beforeAlloc hb)).2
  rw [Machine.beforeAlloc, Machine.call_getPte_false hT, Option.bind_eq_bind, Option.bind_some] at hb
  rw [hlives, and_comm, Machine.OneZeroPageAhead]
  refine and_congr_right fun _ => ?_
  by_cases hro : s.entryAt addr &&& pteRo = 0
  · rw [if_pos hro] at hb
    cases hb
    have hlast : ¬ s.LastZeroRef addr := fun hlast => hlast.1 hro
    simp [hlast]
  · rw [if_neg hro] at hb
    obtain ⟨-, hzero⟩ : _ ∧ s.pt.sys.m.zeroPage = _ := by
      rcases hf with ⟨-, h0 | ⟨hro', -⟩⟩ | hcow
      · rw [h0] at hro
        exact absurd (Nat.zero_and _) hro
      · exact absurd hro' hro
      · exact hcow
    simp only [Machine.call, PtSys.step, PageSys.step, Option.map_eq_some_iff, Option.bind_eq_bind,
      Option.bind_eq_some_iff, Option.ite_none_right_eq_some, Option.some.injEq] at hb
    obtain ⟨_, ⟨_, ⟨-, rfl⟩, rfl⟩, rfl⟩ := hb
    simp only
    rcases s.pt.sys.m.kfreePage_cases (p2k (pteAddress (s.entryAt addr))) with
      ⟨-, hcnt, heq⟩ | ⟨-, hcnt, heq⟩ | ⟨hz, -⟩
    · -- other references are left
      have hlast : ¬ s.LastZeroRef addr := by
        rintro ⟨-, hone⟩
        rw [hone] at hcnt
        exact hcnt rfl
      rw [heq]
      simp only [hlast, not_false_eq_true, forall_const, false_imp_iff, and_true]
      exact Iff.rfl
    · have hlast : s.LastZeroRef addr := ⟨hro, by omega⟩
      rw [heq]
      simp only [hlast, not_true_eq_false, false_imp_iff, true_and, forall_const]
      generalize p2k (pteAddress (s.entryAt addr)) = z at hzero ⊢
      constructor
      · rintro ⟨p, hp, hbytes⟩
        obtain ⟨rfl, hnil⟩ := List.cons.inj hp
        refine ⟨hnil, ?_⟩
        intro z' hz' i hi
        rw [hzero] at hz'
        cases hz'
        have hbyte := hbytes i hi
        simp only [PageMem.addToQueue, Function.update_self] at hbyte
        rwa [Bytes.get_setWord_of_notMem _ (by omega)] at hbyte
      · rintro ⟨hnil, hbytes⟩
        refine ⟨z, congrArg (z :: ·) hnil, ?_⟩
        intro i hi
        simp only [PageMem.addToQueue, Function.update_self]
        rw [Bytes.get_setWord_of_notMem _ (by omega)]
        exact hbytes z hzero i hi
    · exact absurd hzero hz

/-- **A first touch**, by the state before the fault. -/
theorem History.firstTouch (h : History all s.pt) (hall : all.length = totalPage s.image)
    (hcnt : s.pt.sys.m.allocPageCnt < 2 ^ 63) (hf : s.FirstTouch addr)
    (hr : s.pgfault addr = some (r, s')) :
    s'.page s.cur addr = some .zero ↔ s.OneZeroPageAhead addr := by
  obtain ⟨⟨T, hT⟩, -⟩ := id h
  obtain ⟨t, ht, hmap⟩ := Machine.pgfault_firstTouch hT hf hr
  have et := EvolvesBy.beforeAlloc ht
  have hth := h.evolves et
  obtain ⟨u, p, ps, hu, huh, hpages, hpage⟩ := Machine.mapFresh_spec hth hmap
  have hlives : t.pt.sys.lives < 2 ^ 63 := by
    rw [(h.frees et).2]
    exact h.lives_lt hcnt
  rw [← h.oneZeroPage_beforeAlloc hf ht, ← hth.oneZeroPage_reclaim (et.image ▸ hall) hlives hu,
    ← huh.oneZeroPage_iff hpages, ← et.cur, hpage, Option.some.injEq]
  rfl

end Ahead

/-! ## A fault after booting -/

namespace Machine

variable {all : List ℕ} {T : TableMap} {s : Machine} {addr p : ℕ}

theorem call_kallocPage {ps : List ℕ} (h : s.pt.sys.m.pages = p :: ps) :
    s.call (.page .kallocPage) = some { s with pt := { s.pt with sys := { s.pt.sys with
      m := { s.pt.sys.m with pages := ps, allocPageCnt := s.pt.sys.m.allocPageCnt + 1 }
      held := p :: s.pt.sys.held } } } := by
  simp [call, PtSys.step, PageSys.step, PageMem.kallocPage, PageMem.fetchFromQueue, h]

/-- With enough pages a fresh page is mapped at once. -/
theorem mapFresh_progress (addr : ℕ) (hleft : reversedPages < s.pt.sys.m.leftPageCnt s.image)
    (hpages : 5 ≤ s.pt.sys.m.pages.length) : ∃ s', s.mapFresh addr = some s' := by
  have hreclaim : s.reclaim (s.offline.length + 1) = some s := by
    rw [reclaim, if_neg (by omega)]
  cases hp : s.pt.sys.m.pages with
  | nil => simp [hp] at hpages
  | cons p ps =>
      rw [hp, List.length_cons] at hpages
      simp only [mapFresh, allocPageForUser, hreclaim, call_kallocPage hp, Option.bind_eq_bind,
        Option.bind_some, List.head?_cons]
      obtain ⟨r, hr⟩ := PageMem.vmmap_progress (s := { s.pt.sys.m with
        pages := ps, allocPageCnt := s.pt.sys.m.allocPageCnt + 1 })
        (s.pt.root s.cur) addr p (pteUserData ||| pteRw) (by simpa using hpages)
      rw [call, PtSys.step, Option.bind_eq_bind, hr]
      exact ⟨_, rfl⟩

/-- A fault where nothing is mapped, with enough pages. -/
theorem pgfault_progress (h : PtOk all T s.pt) (hin : s.InMemory addr) (h0 : s.entryAt addr = 0)
    (hleft : reversedPages < s.pt.sys.m.leftPageCnt s.image)
    (hpages : 5 ≤ s.pt.sys.m.pages.length) : ∃ s', s.pgfault addr = some (0, s') := by
  obtain ⟨j, st, hj, hst, hswap⟩ := hin
  simp only [pgfault, h.lookup_eq, call_getPte_false h, Option.bind_eq_bind, Option.bind_some, hj,
    hst]
  have hentry := entryAt_eq (h.lookup_eq s.cur addr)
  generalize (T s.cur 3 (leafKey addr)).map (fun t => (t, vaPart3 addr)) = slot at hentry ⊢
  set u : Machine := { s with pt := { s.pt with
    ptrs := slot.toList.map (fun p => (p, s.cur, vpn addr)) ++ s.pt.ptrs } } with hu
  have hpte : (slot.map u.entry).getD 0 = s.entryAt addr := hentry.symm
  rw [hpte, if_pos h0, if_neg (by simp [hswap])]
  obtain ⟨s', hs'⟩ := mapFresh_progress (s := u) addr hleft hpages
  exact ⟨s', by rw [hs']; rfl⟩

/-- The machine after booting, with a kernel image of two megabytes, memory that is zero, and a
process whose heap is one page. -/
def booted : Machine where
  image := p2k (2 ^ 21)
  pt := PtSys.start (PageMem.init (p2k (2 ^ 21)) fun _ => .zero)
  cur := 0
  sections := fun _ => [⟨0, 0, pageSize⟩]
  online := fun _ => false
  swapValid := fun _ => false
  disk := fun _ => .zero
  offline := []

theorem booted_ok :
    PtOk booted.pt.sys.m.pages (fun _ _ _ => none) booted.pt :=
  PtOk.init (PageMem.init_booted (by decide) _)

theorem booted_pages : booted.pt.sys.m.pages.length = 257535 := by
  rw [booted, PtSys.start, (PageMem.init_spec _ _).1]
  simp only [List.length_reverse, List.length_map, List.length_range]
  decide

theorem booted_left : reversedPages < booted.pt.sys.m.leftPageCnt booted.image := by
  have hcount : booted.pt.sys.m.allocPageCnt = 0 := (PageMem.init_spec _ _).2.1
  rw [PageMem.leftPageCnt, hcount]
  decide

theorem booted_untouched : booted.InMemory 0 ∧ booted.entryAt 0 = 0 := by
  constructor
  · exact ⟨0, ⟨0, 0, pageSize⟩, by decide, rfl, by decide⟩
  · rw [entryAt_eq (booted_ok.lookup_eq booted.cur 0), Option.map_none, Option.map_none,
      Option.getD_none]

theorem booted_firstTouch : booted.FirstTouch 0 :=
  .inl ⟨booted_untouched.1, .inl booted_untouched.2⟩

theorem booted_pgfault : ∃ s', booted.pgfault 0 = some (0, s') := by
  apply pgfault_progress booted_ok booted_untouched.1 booted_untouched.2 booted_left
  rw [booted_pages]
  decide

end Machine

/-! ## The result -/

/-- **A fresh page is zero exactly when the only one there is is zero but for the link**, after any
history in which the count of the pages fits its 64 bits: for a first touch through `pgfault`, and
for the page that `get_zero_page` makes.  A zero page that is there is handed out as it is. -/
theorem fresh_page_zero_iff {mem : ℕ → Bytes 4096} {s : Machine} (he : kspaceMask ≤ s.image)
    (h : Reach PtSys.step (fun _ _ => True) (PtSys.start (PageMem.init s.image mem)) s.pt)
    (hcnt : s.pt.sys.m.allocPageCnt < 2 ^ 63) :
    (∀ addr r s', s.FirstTouch addr → s.pgfault addr = some (r, s') →
      (s'.page s.cur addr = some .zero ↔ s.OneZeroPageAhead addr)) ∧
    ∀ z m', s.pt.sys.m.getZeroPage = (some z, m') →
      (m'.mem z = .zero ↔ match s.pt.sys.m.zeroPage with
        | some z => s.mem z = .zero
        | none => OneZeroPage s.pt.sys.m) := by
  have hist : History (PageMem.init s.image mem).pages s.pt := by
    apply h.invariant (History.init he mem)
    intro s c s' hs _ hstep
    exact hs.step hstep
  constructor
  · exact fun addr r s' hf hr => hist.firstTouch (PageMem.init_length s.image mem) hcnt hf hr
  · intro z m' hz
    cases hzp : s.pt.sys.m.zeroPage with
    | some w =>
        simp only [PageMem.getZeroPage, hzp, Prod.mk.injEq] at hz
        obtain ⟨hwz, rfl⟩ := hz
        cases hwz
        exact Iff.rfl
    | none =>
        cases hpages : s.pt.sys.m.pages with
        | nil =>
            simp [PageMem.getZeroPage, PageMem.kallocPage, PageMem.fetchFromQueue, hzp,
              hpages] at hz
        | cons p ps =>
            simp only [PageMem.getZeroPage, PageMem.kallocPage, PageMem.fetchFromQueue, hzp,
              hpages, Prod.mk.injEq, Option.some.injEq] at hz
            obtain ⟨rfl, rfl⟩ := hz
            exact hist.oneZeroPage_iff hpages

/-- A kernel image that leaves six pages, and a process whose heap is one page. -/
def Machine.small (pt : PtSys) : Machine where
  image := p2k phystop - 7 * pageSize
  pt := pt
  cur := 0
  sections := fun _ => [⟨0, 0, pageSize⟩]
  online := fun _ => false
  swapValid := fun _ => false
  disk := fun _ => .zero
  offline := []

/-- Two zero pages are made and given back, four pages are taken for tables, and one for something
else: the process gets the last page, which nobody has used. -/
theorem fresh_page_zero_last : ∃ s s' : Machine, s.FirstTouch 0 ∧ s.pgfault 0 = some (0, s') ∧
    s'.page s.cur 0 = some .zero := by
  let z := p2k phystop - pageSize
  let p := p2k phystop - 6 * pageSize
  have hrun : ((runs PtSys.step (PtSys.start (PageMem.init (p2k phystop - 7 * pageSize)
      fun _ => .zero)) [.page .getZeroPage, .page (.kfreePage z), .page .getZeroPage,
        .page (.kfreePage z), .getPte 0 0 true, .page .kallocPage]).map fun pt =>
      ((pt.sys.m.pages, pt.sys.lives, pt.sys.m.allocPageCnt),
        (List.range pageSize).all fun i => decide ((pt.sys.m.mem p).get i = 0),
        (Machine.small pt).entryAt 0, ((Machine.small pt).pgfault 0).map Prod.fst)) =
      some (([p], 2, 7), true, 0, some 0) := by decide +kernel
  obtain ⟨pt, hs, hlast⟩ := Option.map_eq_some_iff.mp hrun
  simp only [Prod.mk.injEq] at hlast
  obtain ⟨⟨hpages, hlives, hcnt⟩, hbytes, hentry, hfault⟩ := hlast
  obtain ⟨⟨r, s'⟩, hs', rfl⟩ := Option.map_eq_some_iff.mp hfault
  have htouch : (Machine.small pt).FirstTouch 0 :=
    .inl ⟨⟨0, ⟨0, 0, pageSize⟩, rfl, rfl, rfl⟩, .inl hentry⟩
  have himage : kspaceMask ≤ p2k phystop - 7 * pageSize := by decide
  have hahead : (Machine.small pt).OneZeroPageAhead 0 := by
    have hnot : ¬ (Machine.small pt).LastZeroRef 0 := by
      rw [Machine.LastZeroRef, hentry]
      exact fun hlast => hlast.1 (Nat.zero_and _)
    refine ⟨hlives.ge, fun _ => ⟨p, hpages, ?_⟩, fun hlast => absurd hlast hnot⟩
    intro i _
    by_cases hi : i < pageSize
    · exact of_decide_eq_true (List.all_eq_true.mp hbytes i (List.mem_range.mpr hi))
    · exact Bytes.get_of_le _ (not_lt.mp hi)
  refine ⟨_, s', htouch, hs', ?_⟩
  refine ((fresh_page_zero_iff (s := Machine.small pt) himage (Reach.init.of_runs _ hs) ?_).1
    0 0 s' htouch hs').mpr hahead
  change pt.sys.m.allocPageCnt < 2 ^ 63
  rw [hcnt]
  decide

/-- The first page that a process touches after booting is not zero. -/
theorem fresh_page_shows_link : Machine.booted.FirstTouch 0 ∧
    ∃ s', Machine.booted.pgfault 0 = some (0, s') ∧
      s'.page Machine.booted.cur 0 ≠ some .zero := by
  refine ⟨Machine.booted_firstTouch, ?_⟩
  obtain ⟨s', hs'⟩ := Machine.booted_pgfault
  refine ⟨s', hs', ?_⟩
  have hcnt : Machine.booted.pt.sys.m.allocPageCnt < 2 ^ 63 := by
    rw [show Machine.booted.pt.sys.m.allocPageCnt = 0 from (PageMem.init_spec _ _).2.1]
    decide
  rw [Ne, History.firstTouch (History.init (by decide) _) (PageMem.init_length _ _) hcnt
    Machine.booted_firstTouch hs']
  rintro ⟨htwo, -⟩
  exact absurd htwo (by decide)

end OsLab
