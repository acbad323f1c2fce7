import OsLab.Kernel.SwapTrip
import OsLab.Kernel.FreePgdir

/-!
# What a round of swapping leaves alone

Every round of the loops of `swapout` and `swapin` that returns, on any machine: the one
entry it writes, the page it gives back or takes, and the rest.  Nothing is assumed of the
section or its pages, so the page that goes back may be shared, and it keeps its contents as
long as it has another owner.

## Main definitions

* `View.Frees` — a round of the second loop of `swapout`.
* `View.Fetches` — a round of the first loop of `swapin`, from where a page has been found on.
* `Machine.pageOut_cases`, `Machine.reveal_cases`, `Machine.fetch_cases` — the rounds.
-/

namespace OsLab

namespace View

/-- The page that entry `x` leads to has gone to the run from `bno` on. -/
structure Frees (v v' : View) (pd x bno : ℕ) : Prop where
  free : findAndSet8Blocks v.swapValid = some (bno, v'.swapValid)
  owned : entryPage (v.entry pd x) ∈ v.held
  held : v'.held = v.held.erase (entryPage (v.entry pd x))
  entry : v'.entry = (v.store pd x (bno <<< 12 &&& notValid)).entry
  sections : v'.sections = v.sections
  /-- a page that has another owner keeps its contents -/
  mem : ∀ q ∈ v.held, q ≠ entryPage (v.entry pd x) ∨ 1 < v.held.count q → v'.mem q = v.mem q

/-- Page `p`, which was free, has come for entry `x`. -/
structure Fetches (v v' : View) (pd x p : ℕ) : Prop where
  page : p ∉ v.held
  good : GoodPage p
  held : v'.held = p :: v.held
  entry : v'.entry = (v.store pd x ((k2p p ||| pteUserData ||| pteValid) % 2 ^ 64)).entry
  sections : v'.sections = v.sections
  mem : ∀ q, q ≠ p → v'.mem q = v.mem q

end View

namespace Machine

variable {all : List ℕ} {T : TableMap} {s s' : Machine} {pd va x p bno : ℕ}

/-! ## Pages and blocks -/

/-- `write_page_to_disk` changes the disk and the flags. -/
theorem writePageToDisk_frame (h : PtOk all T s.pt) {ka : ℕ}
    (hs : s.writePageToDisk ka = some (bno, s')) :
    findAndSet8Blocks s.swapValid = some (bno, s'.swapValid) ∧
      Goes all T s s' { s.view T with swapValid := s'.swapValid, disk := s'.disk } := by
  simp only [writePageToDisk, Option.bind_eq_bind, Option.bind_eq_some_iff] at hs
  obtain ⟨⟨bno', valid⟩, hf, u, hu, hs⟩ := hs
  cases hs
  set w : Machine := { s with swapValid := valid }
  have hrun : Goes all T w s' { w.view T with disk := s'.disk } := by
    refine iterM_induction (fun _ t => Goes all T w t { w.view T with disk := t.disk }) hu
      (Goes.refl h) ?_
    intro i t t' _ ht hstep
    by_cases h0 : (t.view T).entry t.cur (vpn (ka + i * 512)) = 0
    · obtain ⟨y, hy, hg⟩ := onEntry_zero ht.ok h0
      rw [writeBlock, hy, Option.some.injEq] at hstep
      subst hstep
      have hdisk : y.disk = t.disk := congrArg View.disk hg.view
      rw [hdisk]
      exact ht.trans ⟨hg.ok, hg.ptrs, hg.view.trans ht.view⟩
    · obtain ⟨k, y, -, hy, hg, -⟩ := onEntry_ne ht.ok h0
      rw [writeBlock, hy, Option.some.injEq] at hstep
      subst hstep
      refine ht.trans ⟨hg.ok, hg.ptrs, ?_⟩
      have hview : y.view T = { w.view T with disk := t.disk } := hg.view.trans ht.view
      have hnext : ∀ disk, ({ y with disk := disk } : Machine).view T =
          { y.view T with disk := disk } := fun _ => rfl
      rw [hnext, hview]
  have hvalid : s'.swapValid = valid := congrArg View.swapValid hrun.view
  rw [hvalid]
  exact ⟨hf, hrun.ok, hrun.ptrs, hrun.view⟩

/-- `kfree_page`, of any page that has been handed out. -/
theorem kfreePage_frame (h : PtOk all T s.pt) (hs : s.call (.page (.kfreePage p)) = some s') :
    p ∈ s.pt.sys.held ∧ PtOk all T s'.pt ∧ s'.pt = { s.pt with sys := s'.pt.sys } ∧
      s' = { s with pt := s'.pt } ∧ s'.pt.sys.held = s.pt.sys.held.erase p ∧
      ∀ q ∈ s.pt.sys.held, q ≠ p ∨ 1 < s.pt.sys.held.count q → s'.mem q = s.mem q := by
  rw [call, Option.map_eq_some_iff] at hs
  obtain ⟨pt', hpt, rfl⟩ := hs
  rw [PtSys.step, Option.bind_eq_bind, Option.bind_eq_some_iff] at hpt
  obtain ⟨sys', hsys, hpt⟩ := hpt
  cases hpt
  have hok := h.page hsys
  rw [PageSys.step, Option.ite_none_right_eq_some, Option.some.injEq] at hsys
  obtain ⟨hmem, rfl⟩ := hsys
  refine ⟨hmem, hok, rfl, rfl, rfl, ?_⟩
  intro q hq hother
  show (s.pt.sys.m.kfreePage p).mem q = s.pt.sys.m.mem q
  by_cases hqp : q = p
  · -- a page with two owners is the zero page, and it stays
    subst hqp
    have hcount : 1 < s.pt.sys.held.count q := hother.resolve_left fun hne => hne rfl
    have hzero : s.pt.sys.m.zeroPage = some q := by
      by_contra hne
      have := h.acct.once q hq hne
      omega
    have hrefs := (h.acct.refs q hzero).2
    rcases s.pt.sys.m.kfreePage_cases q with ⟨-, -, heq⟩ | ⟨-, hlast, -⟩ | ⟨hne, -⟩
    · rw [heq]
    · omega
    · exact absurd hzero hne
  · exact PageMem.kfreePage_mem hqp

/-! ## The rounds -/

/-- **A round of the second loop of `swapout`.** -/
theorem pageOut_cases (h : PtOk all T s.pt) (hs : s.pageOut pd va = some s') :
    PtOk all T s'.pt ∧ (((s.view T).entry pd (vpn va) = 0 ∧ s'.view T = s.view T) ∨
      (s.view T).entry pd (vpn va) ≠ 0 ∧ ∃ bno, (s.view T).Frees (s'.view T) pd (vpn va) bno) := by
  by_cases h0 : (s.view T).entry pd (vpn va) = 0
  · obtain ⟨t, ht, hg⟩ := onEntry_zero h h0
    rw [pageOut, ht, Option.some.injEq] at hs
    subst hs
    exact ⟨hg.ok, Or.inl ⟨h0, hg.view⟩⟩
  · obtain ⟨k, u, -, hu, hg, hptr⟩ := onEntry_ne h h0
    rw [pageOut, hu] at hs
    simp only [Option.bind_eq_bind, Option.bind_eq_some_iff] at hs
    obtain ⟨⟨bno, w⟩, hw, y, hy, hs⟩ := hs
    obtain ⟨hf, hgw⟩ := writePageToDisk_frame hg.ok hw
    rw [hg.view] at hgw
    have hptrw := hgw.ptrs hptr
    have hentry : w.entry (k, vaPart3 va) = (s.view T).entry pd (vpn va) := by
      rw [entry_eq hgw.ok hptrw, hgw.view]
    obtain ⟨hheld, hoky, hpty, hyw, heldy, hmemy⟩ := kfreePage_frame hgw.ok hy
    have hptry : ((k, vaPart3 va), pd, vpn va) ∈ y.pt.ptrs := by
      rw [hpty]
      exact hptrw
    obtain ⟨t, ht, hgt⟩ := call_write hoky hptry (bno <<< 12 &&& notValid)
    rw [ht, Option.some.injEq] at hs
    subst hs
    rw [Nat.mod_eq_of_lt (and_notValid_lt _)] at hgt
    have hheldw : w.pt.sys.held = s.pt.sys.held := congrArg View.held hgw.view
    have hview : y.view T = { w.view T with
        mem := (y.view T).mem, free := (y.view T).free, held := (y.view T).held,
        allocPageCnt := (y.view T).allocPageCnt, zeroPage := (y.view T).zeroPage } := by
      rw [hyw, hpty]
      rfl
    refine ⟨hgt.ok, Or.inr ⟨h0, bno, ?_⟩⟩
    rw [hgt.view]
    constructor
    case free =>
      rw [View.store_swapValid, hview, hgw.view]
      rwa [show u.swapValid = s.swapValid from congrArg View.swapValid hg.view] at hf
    case owned =>
      rw [hentry, hheldw] at hheld
      exact hheld
    case held =>
      show y.pt.sys.held = _
      rw [heldy, hentry, hheldw]
      rfl
    case entry => rw [hview, hgw.view]; rfl
    case sections =>
      show (y.view T).sections = _
      rw [hview, hgw.view]
    case mem =>
      intro q hq hother
      have hleaf : ¬ IsLeaf T q := h.not_isLeaf hq
      show (y.view T).mem q = _
      rw [view_mem hleaf, hmemy q (hheldw.symm ▸ hq) (by rw [hentry, hheldw]; exact hother),
        ← view_mem hleaf, hgw.view]

/-- **A round of the second loop of `swapin`.** -/
theorem reveal_cases (h : PtOk all T s.pt) (hs : s.reveal pd va = some s') :
    PtOk all T s'.pt ∧ s'.view T = if (s.view T).entry pd (vpn va) = 0 then s.view T else
      (s.view T).store pd (vpn va) (((s.view T).entry pd (vpn va) ||| pteValid) % 2 ^ 64) := by
  split_ifs with h0
  · obtain ⟨t, ht, hg⟩ := onEntry_zero h h0
    rw [reveal, ht, Option.some.injEq] at hs
    subst hs
    exact ⟨hg.ok, hg.view⟩
  · obtain ⟨k, u, -, hu, hg, hptr⟩ := onEntry_ne h h0
    obtain ⟨t, ht, hgt⟩ := call_write hg.ok hptr (u.entry (k, vaPart3 va) ||| pteValid)
    rw [reveal, hu, ht, Option.some.injEq] at hs
    subst hs
    refine ⟨hgt.ok, hgt.view.trans ?_⟩
    rw [entry_eq hg.ok hptr, hg.view]

/-- What follows on `reclaim` in a round of the first loop of `swapin`. -/
def fetch (pd p : ℕ) (slot : ℕ × ℕ) (s : Machine) : Option Machine := do
  let s ← s.call (.page .kallocPage)
  let page ← s.pt.sys.held.head?
  let s ← s.readPageFromDisk page (s.entry slot >>> 12)
  let s := { s with swapValid := release8Blocks s.swapValid (s.entry slot >>> 12) }
  s.call (.vmmap pd p page pteUserData)

theorem fetch_cases (h : PtOk all T s.pt) {t : ℕ} (ht : T pd 3 (leafKey va) = some t)
    (hs : s.fetch pd va (t, vaPart3 va) = some s') :
    PtOk all T s'.pt ∧ ∃ p, (s.view T).Fetches (s'.view T) pd (vpn va) p := by
  simp only [fetch, Option.bind_eq_bind, Option.bind_eq_some_iff] at hs
  obtain ⟨a, ha, p, hp, b, hb, hs⟩ := hs
  cases hfree : (s.view T).free with
  | nil =>
      have hpages : s.pt.sys.m.pages = [] := hfree
      simp [call, PtSys.step, PageSys.step, PageMem.kallocPage, PageMem.fetchFromQueue, hpages] at ha
  | cons p' ps =>
      obtain ⟨a', ha', hga, hhead⟩ := call_kalloc h hfree
      rw [ha, Option.some.injEq] at ha'
      subst ha'
      rw [hp, Option.some.injEq] at hhead
      subst hhead
      have hnot : p ∉ (s.view T).held := by
        intro hin
        exact (h.acct.held p hin).2 (show p ∈ (s.view T).free by rw [hfree]; exact List.mem_cons_self)
      obtain ⟨b', hb', hgb⟩ := readPageFromDisk_goes hga.ok (p := p)
        (by rw [hga.view]; exact List.mem_cons_self) (a.entry (t, vaPart3 va) >>> 12)
      rw [hb, Option.some.injEq] at hb'
      subst hb'
      set c : Machine := { b with
        swapValid := release8Blocks b.swapValid (b.entry (t, vaPart3 va) >>> 12) } with hc
      obtain ⟨d, hd, hgd⟩ := call_vmmap (s := c) hgb.ok ht p pteUserData
      rw [hd, Option.some.injEq] at hs
      subst hs
      refine ⟨hgd.ok, p, ?_⟩
      have hview := view_setSwapValid (T := T) b
        (release8Blocks b.swapValid (b.entry (t, vaPart3 va) >>> 12))
      rw [hgd.view, hview, hgb.view, hga.view]
      constructor
      case page => exact hnot
      case good =>
        refine hga.ok.good p (hga.ok.acct.held p ?_).1
        show p ∈ (a.view T).held
        rw [hga.view]
        exact List.mem_cons_self
      case held => rfl
      case entry => rfl
      case sections => rfl
      case mem =>
        intro q hq
        exact Function.update_of_ne hq _ _

end Machine

/-! ## The second loop of `swapout` -/

/-- Entry `x` leads to page `q`. -/
def View.Leads (v : View) (pd x q : ℕ) : Prop := v.entry pd x ≠ 0 ∧ entryPage (v.entry pd x) = q

instance (v : View) (pd x q : ℕ) : Decidable (v.Leads pd x q) :=
  inferInstanceAs (Decidable (v.entry pd x ≠ 0 ∧ entryPage (v.entry pd x) = q))

/-- How many of the first `n` entries lead to page `q`. -/
def View.leadCount (v : View) (pd : ℕ) (x : ℕ → ℕ) (n q : ℕ) : ℕ :=
  Nat.count (fun i => v.Leads pd (x i) q) n

theorem View.leadCount_succ (v : View) (pd : ℕ) (x : ℕ → ℕ) (n q : ℕ) :
    v.leadCount pd x (n + 1) q = v.leadCount pd x n q + if v.Leads pd (x n) q then 1 else 0 :=
  Nat.count_succ _ n

theorem View.leadCount_mono {v u : View} {pd n q : ℕ} {x : ℕ → ℕ}
    (h : ∀ i, i < n → u.Leads pd (x i) q → v.Leads pd (x i) q) :
    u.leadCount pd x n q ≤ v.leadCount pd x n q := Nat.count_mono_left h

/-- An entry that was not zero has been given a free run. -/
def View.Paged (v v' : View) (pd x : ℕ) : Prop :=
  (v.entry pd x = 0 ∧ v'.entry pd x = 0) ∨ v.entry pd x ≠ 0 ∧ ∃ bno, swapStart ≤ bno ∧
    bno + 8 ≤ swapEnd ∧ v.swapValid (bno - swapStart) = false ∧
      v'.entry pd x = bno <<< 12 &&& notValid

/-- After `k` rounds of the second loop of `swapout`, over pages with different numbers. -/
structure Vacating (v₀ : View) (pd n : ℕ) (x : ℕ → ℕ) (k : ℕ) (v : View) : Prop where
  sections : v.sections = v₀.sections
  other : ∀ pd' y, (pd' = pd → ∀ i, i < k → y ≠ x i) → v.entry pd' y = v₀.entry pd' y
  done : ∀ i, i < k → v₀.Paged v pd (x i)
  flags : ∀ i, v₀.swapValid i = true → v.swapValid i = true
  /-- a page loses an owner for each entry that led to it -/
  owners : ∀ q, v₀.held.count q ≤ v.held.count q + v₀.leadCount pd x k q
  mem : ∀ q, v₀.leadCount pd x k q < v₀.held.count q → v.mem q = v₀.mem q

namespace Vacating

variable {v₀ v v' : View} {pd n k : ℕ} {x : ℕ → ℕ}

theorem init (v₀ : View) (pd n : ℕ) (x : ℕ → ℕ) : Vacating v₀ pd n x 0 v₀ where
  sections := rfl
  other _ _ _ := rfl
  done _ hi := absurd hi (Nat.not_lt_zero _)
  flags _ h := h
  owners _ := Nat.le_add_right _ _
  mem _ _ := rfl

/-- The entry of the next round is as it was. -/
theorem entry_eq (h : Vacating v₀ pd n x k v) (hinj : ∀ i j, i < n → j < n → x i = x j → i = j)
    (hk : k < n) : v.entry pd (x k) = v₀.entry pd (x k) := by
  refine h.other pd (x k) fun _ i hi heq => ?_
  have := hinj k i hk (by omega) heq
  omega

/-- A round for an empty entry. -/
theorem skip (h : Vacating v₀ pd n x k v) (hinj : ∀ i j, i < n → j < n → x i = x j → i = j)
    (hk : k < n) (h0 : v.entry pd (x k) = 0) : Vacating v₀ pd n x (k + 1) v := by
  have hentry := h.entry_eq hinj hk
  have hcount : ∀ q, v₀.leadCount pd x (k + 1) q = v₀.leadCount pd x k q := by
    intro q
    rw [View.leadCount_succ, if_neg fun hl => hl.1 (hentry.symm.trans h0), Nat.add_zero]
  constructor
  case sections => exact h.sections
  case other => exact fun pd' y hy => h.other pd' y fun hpd i hi => hy hpd i (by omega)
  case done =>
    intro i hi
    rcases Nat.lt_succ_iff_lt_or_eq.mp hi with hlt | rfl
    · exact h.done i hlt
    · exact Or.inl ⟨hentry.symm.trans h0, h0⟩
  case flags => exact h.flags
  case owners => simpa only [hcount] using h.owners
  case mem => simpa only [hcount] using h.mem

/-- A round that frees a page. -/
theorem step (h : Vacating v₀ pd n x k v) (hinj : ∀ i j, i < n → j < n → x i = x j → i = j)
    (hk : k < n) (h0 : v.entry pd (x k) ≠ 0) {bno : ℕ} (hf : v.Frees v' pd (x k) bno) :
    Vacating v₀ pd n x (k + 1) v' := by
  have hentry := h.entry_eq hinj hk
  obtain ⟨hlo, hhi, hfree, hset⟩ := findAndSet8Blocks_spec hf.free
  have hleads : ∀ q, v₀.Leads pd (x k) q ↔ entryPage (v.entry pd (x k)) = q := by
    intro q
    rw [View.Leads, ← hentry]
    exact and_iff_right h0
  constructor
  case sections => rw [hf.sections, h.sections]
  case other =>
    intro pd' y hy
    have hne : ¬ (pd' = pd ∧ y = x k) := fun heq => hy heq.1 k (by omega) heq.2
    rw [hf.entry, View.store_entry, if_neg hne]
    exact h.other pd' y fun hpd i hi => hy hpd i (by omega)
  case done =>
    intro i hi
    rw [View.Paged, hf.entry, View.store_entry]
    rcases Nat.lt_succ_iff_lt_or_eq.mp hi with hlt | rfl
    · have hne : ¬ (pd = pd ∧ x i = x k) := by
        rintro ⟨-, heq⟩
        have := hinj i k (by omega) hk heq
        omega
      rw [if_neg hne]
      exact h.done i hlt
    · rw [if_pos ⟨rfl, rfl⟩]
      refine Or.inr ⟨fun h0' => h0 (hentry.trans h0'), bno, hlo, hhi, ?_, rfl⟩
      have hclear := hfree (bno - swapStart) (by omega) (by omega)
      by_contra hset₀
      rw [h.flags _ (by simpa using hset₀)] at hclear
      cases hclear
  case flags =>
    intro i hi
    rw [hset, h.flags i hi, Bool.or_true]
  case owners =>
    intro q
    have hbefore := h.owners q
    rw [hf.held, View.leadCount_succ, List.count_erase]
    by_cases hq : entryPage (v.entry pd (x k)) = q
    · rw [if_pos ((hleads q).mpr hq)]
      have : (entryPage (v.entry pd (x k)) == q) = true := by simpa using hq
      simp only [this, if_true]
      omega
    · rw [if_neg fun hl => hq ((hleads q).mp hl)]
      have : (entryPage (v.entry pd (x k)) == q) = false := by simpa using hq
      simp only [this]
      exact hbefore
  case mem =>
    intro q hq
    rw [View.leadCount_succ] at hq
    have hbefore := h.owners q
    rw [hf.mem q (List.count_pos_iff.mp (by omega)) ?_]
    · exact h.mem q (by omega)
    · by_cases heq : q = entryPage (v.entry pd (x k))
      · right
        rw [if_pos ((hleads q).mpr heq.symm)] at hq
        omega
      · exact Or.inl heq

end Vacating

/-- **The second loop of `swapout`**, whenever it returns. -/
theorem Machine.pageOut_vacating {all : List ℕ} {T : TableMap} {s s' : Machine}
    (h : PtOk all T s.pt) {pd n : ℕ} {addr : ℕ → ℕ}
    (hinj : ∀ i j, i < n → j < n → vpn (addr i) = vpn (addr j) → i = j)
    (hs : iterM (fun k s => s.pageOut pd (addr k)) n s = some s') :
    PtOk all T s'.pt ∧ Vacating (s.view T) pd n (fun k => vpn (addr k)) n (s'.view T) := by
  refine iterM_induction (fun k (t : Machine) => PtOk all T t.pt ∧
    Vacating (s.view T) pd n (fun k => vpn (addr k)) k (t.view T)) hs ⟨h, Vacating.init _ _ _ _⟩ ?_
  intro k t t' hk hP hstep
  obtain ⟨hok, hcase⟩ := pageOut_cases hP.1 hstep
  refine ⟨hok, ?_⟩
  rcases hcase with ⟨h0, hview⟩ | ⟨h0, bno, hf⟩
  · rw [hview]
    exact hP.2.skip hinj hk h0
  · exact hP.2.step hinj hk h0 hf

end OsLab
