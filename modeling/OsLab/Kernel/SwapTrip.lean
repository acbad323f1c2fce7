import OsLab.Kernel.SwapLoops

/-!
# There and back

What `swapout` and then `swapin` do to the pages of a section.  For each page,
`write_page_to_disk` looks up the address in the directory of the *current* process,
and in each of its eight rounds it finds the same page and copies its first 512 bytes.
So a page comes back as it was exactly when its eight blocks are all equal to what is
stored for it (`swap_round_trip_iff`): for the section of the current process, when the
page repeats its first block eight times.

## Main definitions

* `Machine.OwnPages` — the mapped pages of a section are its own.
* `ComesBack` — what the trip should do.
* `Machine.Repeats` — when it does.
-/

namespace OsLab

/-- The address of page `k` of a section. -/
def Section.addr (st : Section) (k : ℕ) : ℕ := st.start + k * pageSize

/-- The rounds of a loop over the pages of a section, `end` included. -/
def Section.rounds (st : Section) : ℕ :=
  if st.start ≤ st.stop then (st.stop - st.start) / pageSize + 1 else 0

namespace Machine

/-- The entry of directory `pd` for an address, zero if there is no table for it. -/
def pteAt (s : Machine) (pd va : ℕ) : ℕ :=
  match s.pt.lookup pd va with
  | some (some slot, _) => s.entry slot
  | _ => 0

/-- The page that this entry leads to. -/
def pageAt (s : Machine) (pd va : ℕ) : ℕ := entryPage (s.pteAt pd va)

/-- Page `k` of the section is mapped. -/
def Mapped (s : Machine) (pd : ℕ) (st : Section) (k : ℕ) : Prop := s.pteAt pd (st.addr k) ≠ 0

instance (s : Machine) (pd : ℕ) (st : Section) : DecidablePred (s.Mapped pd st) :=
  fun k => inferInstanceAs (Decidable (s.pteAt pd (st.addr k) ≠ 0))

/-- **The mapped pages of a section are its own.**  The loops run to `end` inclusive. -/
structure OwnPages (s : Machine) (pd : ℕ) (st : Section) : Prop where
  aligned : st.start % pageSize = 0
  valid : ∀ k, k < st.rounds → s.Mapped pd st k → s.pteAt pd (st.addr k) &&& pteValid ≠ 0
  held : ∀ k, k < st.rounds → s.Mapped pd st k → s.pageAt pd (st.addr k) ∈ s.pt.sys.held
  plain : ∀ k, k < st.rounds → s.Mapped pd st k →
    s.pt.sys.m.zeroPage ≠ some (s.pageAt pd (st.addr k))
  inj : ∀ j k, j < st.rounds → k < st.rounds → s.Mapped pd st j → s.Mapped pd st k →
    s.pageAt pd (st.addr j) = s.pageAt pd (st.addr k) → j = k
  /-- another process that swaps the section out does not share its pages -/
  apart : pd ≠ s.cur → ∀ j k, j < st.rounds → k < st.rounds → s.Mapped pd st j →
    s.Mapped pd st k → s.pteAt s.cur (st.addr k) ≠ 0 →
    s.pageAt s.cur (st.addr k) ≠ s.pageAt pd (st.addr j)
  /-- nor does it see a page of entries there -/
  tables : pd ≠ s.cur → ∀ k, k < st.rounds → s.Mapped pd st k → s.pteAt s.cur (st.addr k) ≠ 0 →
    ∀ pd' va slot rest, s.pt.lookup pd' va = some (some slot, rest) →
      slot.1 ≠ s.pageAt s.cur (st.addr k)

/-- The swap area has a run for each mapped page. -/
def EnoughRuns (s : Machine) (pd : ℕ) (st : Section) : Prop :=
  (takeRuns (s.Mapped pd st) s.swapValid st.rounds).isSome

/-- `left_page_cnt` is above the limit for swapping, as a number without wrap-around. -/
def EnoughPages (s : Machine) : Prop :=
  (reversedPages : ℤ) < totalPage s.image - s.pt.sys.m.allocPageCnt

/-- What block `b` of the run for page `k` holds after `write_page_to_disk`: the first block of
the page that the *current* process has at the address, or what was on the disk. -/
def stored (s : Machine) (pd : ℕ) (st : Section) (k b : ℕ) : Bytes 512 :=
  if s.pteAt s.cur (st.addr k) = 0 then s.disk (runAt (s.Mapped pd st) s.swapValid k + b)
  else firstBlock (s.mem (s.pageAt s.cur (st.addr k)))

/-- **Each mapped page consists of the blocks that are stored for it.** -/
def Repeats (s : Machine) (pd : ℕ) (st : Section) : Prop :=
  ∀ k, st.addr k < st.stop → s.Mapped pd st k → ∀ b, b < 8 → ∀ i, i < 512 →
    (s.mem (s.pageAt pd (st.addr k))).get (b * 512 + i) = (s.stored pd st k b).get i

end Machine

/-- **What the trip should do**, for section `j` of directory `pd`. -/
structure ComesBack (s s' : Machine) (pd j : ℕ) (st : Section) : Prop where
  /-- a page that was mapped is mapped again, with the same bytes -/
  mapped : ∀ k, st.addr k < st.stop → s.Mapped pd st k →
    ∃ c, s.page pd (st.addr k) = some c ∧ s'.page pd (st.addr k) = some c
  unmapped : ∀ k, st.addr k < st.stop → ¬ s.Mapped pd st k → s'.pteAt pd (st.addr k) = 0
  flag : ∃ st', (s'.sections pd)[j]? = some st' ∧ st'.flags &&& stSwap = 0
  runs : s'.swapValid = s.swapValid

/-! ## From machines to views -/

theorem takeRuns_congr {p q : ℕ → Prop} [DecidablePred p] [DecidablePred q] (h : ∀ k, p k ↔ q k)
    (valid : ℕ → Bool) (n : ℕ) : takeRuns p valid n = takeRuns q valid n := by
  simp only [takeRuns, h]

theorem runAt_congr {p q : ℕ → Prop} [DecidablePred p] [DecidablePred q] (h : ∀ k, p k ↔ q k)
    (valid : ℕ → Bool) (k : ℕ) : runAt p valid k = runAt q valid k := by
  rw [runAt, runAt, takeRuns_congr h]

namespace Machine

variable {all : List ℕ} {T : TableMap} {s s' : Machine} {pd j k va : ℕ} {st : Section}

theorem pteAt_eq (h : PtOk all T s.pt) (pd va : ℕ) :
    s.pteAt pd va = (s.view T).entry pd (vpn va) := by
  rw [pteAt, h.lookup_eq]
  cases ht : T pd 3 (leafKey va) with
  | none =>
      have hz := h.zero pd (leafKey va) (vaPart3 va) ht (vaPart3_lt va)
      rw [← vpn_eq] at hz
      exact hz.symm
  | some t =>
      have hleaf := h.leaf pd (leafKey va) t (vaPart3 va) ht (vaPart3_lt va)
      rw [← vpn_eq] at hleaf
      exact hleaf

theorem mapped_iff (h : PtOk all T s.pt) (pd : ℕ) (st : Section) (k : ℕ) :
    s.Mapped pd st k ↔ (s.view T).Uses pd (fun k => vpn (st.addr k)) k := by
  rw [Mapped, View.Uses, pteAt_eq h]

theorem pageAt_eq (h : PtOk all T s.pt) (pd va : ℕ) :
    s.pageAt pd va = entryPage ((s.view T).entry pd (vpn va)) := by
  rw [pageAt, pteAt_eq h]

theorem forPages_eq (f : Machine → ℕ → Option Machine) (st : Section) (s : Machine) :
    forPages f st s = iterM (fun k s => f s (st.addr k)) st.rounds s := rfl

theorem forPages_flags (f : Machine → ℕ → Option Machine) (st : Section) (flags : ℕ)
    (s : Machine) : forPages f { st with flags := flags } s = forPages f st s := rfl

/-- Below `end` there is a round for each page. -/
theorem lt_rounds (h : st.addr k < st.stop) : k < st.rounds := by
  have hle : st.start ≤ st.stop := by
    simp only [Section.addr] at h
    omega
  simp only [Section.addr, pageSize] at h
  simp only [Section.rounds, if_pos hle, pageSize]
  omega

theorem addr_mod (h : st.start % pageSize = 0) (k : ℕ) : st.addr k % pageSize = 0 := by
  simp only [Section.addr, pageSize] at *
  omega

/-- Every table of the last level is found at some address. -/
theorem lookup_leaf (h : PtOk all T s.pt) {x t : ℕ} (ht : T pd 3 x = some t) :
    ∃ va slot, s.pt.lookup pd va = some (some slot, s.pt.root pd, s.pt.sys.m) ∧ slot.1 = t := by
  have h2 := (h.tables.parent pd 2 x (by simp [ht])).2
  have h1 := (h.tables.parent pd 1 _ h2).2
  have h0 := (h.tables.parent pd 0 _ h1).2
  have htop := h.tables.top pd _ h0
  have hkey : leafKey (x * 2 ^ 21) = x := by
    rw [leafKey_eq]
    omega
  refine ⟨x * 2 ^ 21, (t, vaPart3 (x * 2 ^ 21)), ?_, rfl⟩
  rw [h.lookup_eq, hkey, ht, Option.map_some]

/-- Pages that are a section's own are so in the view. -/
theorem OwnPages.owns (h : PtOk all T s.pt) (hall : ∀ p ∈ all, kspaceMask < p)
    (hown : s.OwnPages pd st) : Owns T (s.view T) pd st.rounds fun k => vpn (st.addr k) := by
  have hheld : ∀ k, k < st.rounds → (s.view T).Uses pd (fun k => vpn (st.addr k)) k →
      (s.view T).own pd (fun k => vpn (st.addr k)) k ∈ s.pt.sys.held := by
    intro k hk hu
    have := hown.held k hk ((mapped_iff h pd st k).mpr hu)
    rwa [pageAt_eq h] at this
  have hinj : ∀ j k, j < st.rounds → k < st.rounds →
      (s.view T).Uses pd (fun k => vpn (st.addr k)) j →
      (s.view T).Uses pd (fun k => vpn (st.addr k)) k →
      (s.view T).own pd (fun k => vpn (st.addr k)) j =
        (s.view T).own pd (fun k => vpn (st.addr k)) k → j = k := by
    intro j k hj hk hu hu' heq
    apply hown.inj j k hj hk ((mapped_iff h pd st j).mpr hu) ((mapped_iff h pd st k).mpr hu')
    rw [pageAt_eq h, pageAt_eq h]
    exact heq
  constructor
  case addr =>
    intro k hk hu h0
    have hmem := (h.acct.held _ (hheld k hk hu)).1
    -- an entry without an address leads to no page that is handed out
    have hpage : (s.view T).own pd (fun k => vpn (st.addr k)) k = kspaceMask := by
      rw [View.own, ← entryPage_and_notValid, h0, entryPage, pteAddress, Nat.zero_and, p2k,
        Nat.zero_add]
    rw [hpage] at hmem
    exact absurd (hall _ hmem) (lt_irrefl _)
  case held => exact hheld
  case plain =>
    intro k hk hu
    have := hown.plain k hk ((mapped_iff h pd st k).mpr hu)
    rwa [pageAt_eq h] at this
  case inj => exact hinj
  case leaf =>
    intro k hk hu hne
    by_cases hpd : pd = s.cur
    · have := h.not_isLeaf (hheld k hk hu)
      rw [View.own, hpd] at this
      exact this
    · rintro ⟨pd', x, ht⟩
      obtain ⟨va, slot, hl, hslot⟩ := lookup_leaf h ht
      have := hown.tables hpd k hk ((mapped_iff h pd st k).mpr hu)
        (by rw [pteAt_eq h]; exact hne) pd' va slot _ hl
      rw [pageAt_eq h, hslot] at this
      exact this rfl
  case apart =>
    intro j k hj hk hu hu' hne heq
    by_cases hpd : pd = s.cur
    · apply hinj j k hj hk hu hu'
      rw [← heq]
      show entryPage ((s.view T).entry s.cur _) = entryPage ((s.view T).entry pd _)
      rw [hpd]
    · exfalso
      apply hown.apart hpd j k hj hk ((mapped_iff h pd st j).mpr hu)
        ((mapped_iff h pd st k).mpr hu') (by rw [pteAt_eq h]; exact hne)
      rw [pageAt_eq h, pageAt_eq h]
      exact heq

/-- Setting the flags of a section changes none of this. -/
theorem OwnPages.start (h : PtOk all T s.pt) (hall : ∀ p ∈ all, kspaceMask < p)
    (hown : s.OwnPages pd st) (hruns : s.EnoughRuns pd st) (j f : ℕ) :
    Owns T ((s.setFlags pd j f).view T) pd st.rounds (fun k => vpn (st.addr k)) ∧
      (takeRuns (((s.setFlags pd j f).view T).Uses pd fun k => vpn (st.addr k))
        ((s.setFlags pd j f).view T).swapValid st.rounds).isSome := by
  have hownu : (s.setFlags pd j f).OwnPages pd st := ⟨hown.aligned, hown.valid, hown.held,
    hown.plain, hown.inj, hown.apart, hown.tables⟩
  refine ⟨OwnPages.owns h hall hownu, ?_⟩
  rw [← takeRuns_congr (mapped_iff (s := s.setFlags pd j f) h pd st)]
  exact hruns

/-! ## The two calls -/

/-- **`swapout`** leaves every mapped page in its run. -/
theorem swapout_writing (h : PtOk all T s.pt) (hall : ∀ p ∈ all, kspaceMask < p)
    (hst : (s.sections pd)[j]? = some st) (hfile : st.flags &&& stFile = 0)
    (hswap : st.flags &&& stSwap = 0) (hoff : pd = s.cur ∨ s.online pd = false)
    (hown : s.OwnPages pd st) (hruns : s.EnoughRuns pd st) :
    ∃ s', s.swapout pd j = some s' ∧ PtOk all T s'.pt ∧
      Writing ((s.setFlags pd j (st.flags ||| stSwap)).view T) pd st.rounds
        (fun k => vpn (st.addr k)) st.rounds (s'.view T) := by
  obtain ⟨howns, hr⟩ := hown.start h hall hruns j (st.flags ||| stSwap)
  set u := s.setFlags pd j (st.flags ||| stSwap) with hu
  have hok : PtOk all T u.pt := h
  obtain ⟨v, hv, hokv, hhide⟩ := hide_loop hok pd st.addr st.rounds
  obtain ⟨s', hs', hok', hw⟩ := pageOut_loop hokv (addr_mod hown.aligned) howns hr
    (Writing.init hhide howns)
  refine ⟨s', ?_, hok', hw⟩
  have hwait : ¬ (pd ≠ s.cur ∧ s.online pd = true) := by
    rintro ⟨hne, hon⟩
    rcases hoff with heq | hoff
    · exact hne heq
    · rw [hoff] at hon
      cases hon
  simp only [swapout, hst, Option.bind_eq_bind, Option.bind_some, if_neg hwait, hswap, ne_eq,
    not_true_eq_false, if_false, hfile, if_true]
  rw [← hu, forPages_eq, hv, Option.bind_some, forPages_eq, hs']

/-- **`swapin`** then brings every page back. -/
theorem swapin_reading {v₀ : View} (h : PtOk all T s.pt) (hlen : all.length = totalPage v₀.image)
    (hleft : (reversedPages : ℤ) < totalPage v₀.image - v₀.allocPageCnt)
    (howns : Owns T v₀ pd st.rounds fun k => vpn (st.addr k))
    (hr : (takeRuns (v₀.Uses pd fun k => vpn (st.addr k)) v₀.swapValid st.rounds).isSome)
    (hw : Writing v₀ pd st.rounds (fun k => vpn (st.addr k)) st.rounds (s.view T))
    (hst : (s.sections pd)[j]? = some { st with flags := st.flags ||| stSwap }) :
    ∃ t : Machine, s.swapin pd j =
        some (t.setFlags pd j ((st.flags ||| stSwap) &&& (2 ^ 64 - 1 - stSwap))) ∧
      PtOk all T t.pt ∧
      Reading v₀ pd st.rounds (fun k => vpn (st.addr k)) st.rounds (t.view T) := by
  obtain ⟨u, hu, hoku, hread⟩ := pageIn_loop h hlen hleft howns hr (Reading.init hw)
  obtain ⟨t, ht, hokt, hread'⟩ := reveal_loop hoku hread
  refine ⟨t, ?_, hokt, hread'⟩
  have hflag : ¬ (st.flags ||| stSwap) &&& stSwap = 0 := by
    rw [Nat.and_or_distrib_right, Nat.and_self]
    intro h0
    have := Nat.right_le_or (n := st.flags &&& stSwap) (m := stSwap)
    rw [h0] at this
    exact absurd this (by decide)
  simp only [swapin, hst, Option.bind_eq_bind, Option.bind_some, if_neg hflag]
  rw [forPages_flags, forPages_eq, hu, Option.bind_some, forPages_flags, forPages_eq, ht,
    Option.bind_some]

end Machine

/-! ## What has come back -/

namespace Machine

variable {all : List ℕ} {T : TableMap} {s t : Machine} {pd j k f f' : ℕ} {st : Section}

/-- What comes back as page `k` consists of the blocks that are stored for it. -/
theorem get_back (h : PtOk all T s.pt)
    (howns : Owns T ((s.setFlags pd j f).view T) pd st.rounds fun k => vpn (st.addr k))
    (hk : k < st.rounds) (hu : s.Mapped pd st k) {b i : ℕ} (hb : b < 8) (hi : i < 512) :
    (((s.setFlags pd j f).view T).back pd (fun k => vpn (st.addr k)) k).get (b * 512 + i) =
      (s.stored pd st k b).get i := by
  set v := (s.setFlags pd j f).view T with hv
  have hentry : v.entry v.cur (vpn (st.addr k)) = s.pteAt s.cur (st.addr k) :=
    (pteAt_eq h s.cur (st.addr k)).symm
  have hblock : v.block pd (fun k => vpn (st.addr k)) k b = s.stored pd st k b := by
    rw [View.block, View.outBlock, stored, hentry]
    by_cases h0 : s.pteAt s.cur (st.addr k) = 0
    · rw [if_pos h0, if_pos h0, View.run, runAt_congr (mapped_iff h pd st)]
      rfl
    · have hleaf := howns.leaf k hk ((mapped_iff h pd st k).mp hu) (hentry.symm ▸ h0)
      rw [hentry] at hleaf
      rw [if_neg h0, if_neg h0, hv, view_mem hleaf]
      rfl
  rw [View.back, Bytes.get_ofFn _ (by omega), show (b * 512 + i) / 512 = b by omega,
    show (b * 512 + i) % 512 = i by omega, hblock]

/-- The page that is mapped after the trip. -/
theorem page_back {v₀ : View} (h : PtOk all T t.pt)
    (hread : Reading v₀ pd st.rounds (fun k => vpn (st.addr k)) st.rounds (t.view T))
    (hk : k < st.rounds) (hu : v₀.Uses pd (fun k => vpn (st.addr k)) k) :
    t.page pd (st.addr k) = some (v₀.back pd (fun k => vpn (st.addr k)) k) := by
  obtain ⟨p, hp, hentry, hmem⟩ := hread.done k hk hu
  obtain ⟨hvalid, hpage, -⟩ := userEntry_valid (h.good p (h.acct.held p hp).1)
  have hshow := page_eq h pd (st.addr k) (by rw [hentry]; exact hvalid)
  rw [hshow, hentry, show p2k (pteAddress _) = p from hpage, ← hmem,
    view_mem (h.not_isLeaf hp)]

end Machine

/-- **A page comes back as it was exactly when it consists of what is stored for it.** -/
theorem comesBack_iff {all : List ℕ} {T : TableMap} {s t : Machine} {pd j f f' : ℕ} {st : Section}
    (h : PtOk all T s.pt) (ht : PtOk all T t.pt) (hown : s.OwnPages pd st)
    (howns : Owns T ((s.setFlags pd j f').view T) pd st.rounds fun k => vpn (st.addr k))
    (hread : Reading ((s.setFlags pd j f').view T) pd st.rounds (fun k => vpn (st.addr k))
      st.rounds (t.view T))
    (hflag : ∃ st', ((t.setFlags pd j f).sections pd)[j]? = some st' ∧ st'.flags &&& stSwap = 0) :
    ComesBack s (t.setFlags pd j f) pd j st ↔ s.Repeats pd st := by
  have hbefore : ∀ k, k < st.rounds → s.Mapped pd st k →
      s.page pd (st.addr k) = some (s.mem (s.pageAt pd (st.addr k))) := by
    intro k hk hu
    have hvalid := hown.valid k hk hu
    rw [Machine.pteAt_eq h] at hvalid
    rw [Machine.page_eq h pd (st.addr k) hvalid, Machine.pageAt_eq h]
    rfl
  have hafter : ∀ k, k < st.rounds → s.Mapped pd st k →
      (t.setFlags pd j f).page pd (st.addr k) = some
        (((s.setFlags pd j f').view T).back pd (fun k => vpn (st.addr k)) k) :=
    fun k hk hu => Machine.page_back (t := t) ht hread hk ((Machine.mapped_iff h pd st k).mp hu)
  constructor
  · intro hrt k hlt hu b hb i hi
    have hk := Machine.lt_rounds hlt
    obtain ⟨c, hc, hc'⟩ := hrt.mapped k hlt hu
    rw [hbefore k hk hu] at hc
    rw [hafter k hk hu, ← hc] at hc'
    rw [← Option.some.inj hc', Machine.get_back h howns hk hu hb hi]
  · intro hrep
    constructor
    case mapped =>
      intro k hlt hu
      have hk := Machine.lt_rounds hlt
      refine ⟨_, hbefore k hk hu, ?_⟩
      rw [hafter k hk hu, Option.some.injEq]
      apply Bytes.ext_get
      intro i hi
      have hget := Machine.get_back h howns hk hu (show i / 512 < 8 by omega)
        (show i % 512 < 512 by omega)
      have hsame := hrep k hlt hu (i / 512) (by omega) (i % 512) (by omega)
      rw [show i / 512 * 512 + i % 512 = i by omega] at hget hsame
      rw [hget, hsame]
    case unmapped =>
      intro k hlt hu
      have hzero := hread.zero k (Machine.lt_rounds hlt)
        fun hu' => hu ((Machine.mapped_iff h pd st k).mpr hu')
      rw [Machine.pteAt_eq (s := t.setFlags pd j f) ht]
      exact hzero
    case flag => exact hflag
    case runs =>
      funext i
      have hflags := hread.flags i
      rw [Bool.eq_iff_iff]
      refine Iff.trans hflags ⟨?_, Or.inl⟩
      rintro (hold | ⟨k, hle, hlt, -⟩)
      · exact hold
      · omega

/-! ## The result -/

theorem getElem?_setFlags {s : Machine} {pd j f : ℕ} {st : Section}
    (hst : (s.sections pd)[j]? = some st) :
    ((s.setFlags pd j f).sections pd)[j]? = some { st with flags := f } := by
  simp [Machine.setFlags, hst]

/-- The pages that are handed out lie behind the kernel image. -/
theorem PageMem.lt_of_mem_init {e p : ℕ} {mem : ℕ → Bytes 4096} (he : kspaceMask ≤ e)
    (hp : p ∈ (PageMem.init e mem).pages) : kspaceMask < p := by
  rw [(PageMem.init_spec e mem).1, List.mem_reverse, List.mem_map] at hp
  obtain ⟨i, -, rfl⟩ := hp
  simp only [firstPage, pageBase, pageSize, kspaceMask] at *
  omega

/-- Both calls return, and the pages come back if they consist of what is stored for them. -/
theorem PtOk.swap_trip {all : List ℕ} {T : TableMap} {s : Machine} {pd j : ℕ} {st : Section}
    (h : PtOk all T s.pt) (hall : ∀ p ∈ all, kspaceMask < p)
    (hlen : all.length = totalPage s.image) (hst : (s.sections pd)[j]? = some st)
    (hfile : st.flags &&& stFile = 0) (hswap : st.flags &&& stSwap = 0)
    (hoff : pd = s.cur ∨ s.online pd = false) (hown : s.OwnPages pd st)
    (hruns : s.EnoughRuns pd st) (hpages : s.EnoughPages) :
    ∃ s' s'', s.swapout pd j = some s' ∧ s'.swapin pd j = some s'' ∧
      (ComesBack s s'' pd j st ↔ s.Repeats pd st) := by
  obtain ⟨s', hs', hok', hw⟩ := Machine.swapout_writing h hall hst hfile hswap hoff hown hruns
  obtain ⟨howns, hr⟩ := hown.start h hall hruns j (st.flags ||| stSwap)
  set u := s.setFlags pd j (st.flags ||| stSwap) with hu
  have hlen' : all.length = totalPage (u.view T).image := hlen
  have hleft : (reversedPages : ℤ) < totalPage (u.view T).image - (u.view T).allocPageCnt := hpages
  have hst' : (s'.sections pd)[j]? = some { st with flags := st.flags ||| stSwap } := by
    rw [show s'.sections = u.sections from hw.stays.sections]
    exact getElem?_setFlags hst
  obtain ⟨t, ht, hokt, hread⟩ := Machine.swapin_reading hok' hlen' hleft howns hr hw hst'
  refine ⟨s', _, hs', ht, comesBack_iff h hokt hown howns hread ?_⟩
  have hstt : (t.sections pd)[j]? = some { st with flags := st.flags ||| stSwap } := by
    rw [show t.sections = u.sections from hread.stays.sections]
    exact getElem?_setFlags hst
  refine ⟨_, getElem?_setFlags hstt, ?_⟩
  rw [Nat.and_assoc, show (2 ^ 64 - 1 - stSwap) &&& stSwap = 0 by decide, Nat.and_zero]

/-- Tables and accounts are in order after any history. -/
theorem exists_ptOk {e : ℕ} (he : kspaceMask ≤ e) {mem : ℕ → Bytes 4096} {pt : PtSys}
    (h : Reach PtSys.step (fun _ _ => True) (PtSys.start (PageMem.init e mem)) pt) :
    ∃ T, PtOk (PageMem.init e mem).pages T pt := by
  refine h.invariant (P := fun t => ∃ T, PtOk (PageMem.init e mem).pages T t)
    ⟨_, PtOk.init (PageMem.init_booted he mem)⟩ ?_
  rintro t c t' ⟨T, hT⟩ - hs
  obtain ⟨T', hT', -⟩ := hT.step hs
  exact ⟨T', hT'⟩

/-- **The trip to the swap area brings the pages of a section back exactly when each consists of
what is stored for it.**  Both calls return when there are runs and pages enough. -/
theorem swap_round_trip_iff {mem : ℕ → Bytes 4096} {s : Machine} {pd j : ℕ} {st : Section}
    (he : kspaceMask ≤ s.image)
    (h : Reach PtSys.step (fun _ _ => True) (PtSys.start (PageMem.init s.image mem)) s.pt)
    (hst : (s.sections pd)[j]? = some st) (hfile : st.flags &&& stFile = 0)
    (hswap : st.flags &&& stSwap = 0) (hoff : pd = s.cur ∨ s.online pd = false)
    (hown : s.OwnPages pd st) (hruns : s.EnoughRuns pd st) (hpages : s.EnoughPages) :
    ∃ s' s'', s.swapout pd j = some s' ∧ s'.swapin pd j = some s'' ∧
      (ComesBack s s'' pd j st ↔ s.Repeats pd st) := by
  obtain ⟨T, hT⟩ := exists_ptOk he h
  exact hT.swap_trip (fun p hp => PageMem.lt_of_mem_init he hp) (PageMem.init_length s.image mem)
    hst hfile hswap hoff hown hruns hpages

/-! ## A heap of one page -/

/-- In the section of the current process a page consists of what is stored for it when it repeats
its first block. -/
theorem Machine.repeats_cur (s : Machine) (st : Section) : s.Repeats s.cur st ↔
    ∀ k, st.addr k < st.stop → s.Mapped s.cur st k → ∀ b, b < 8 → ∀ i, i < 512 →
      (s.mem (s.pageAt s.cur (st.addr k))).get (b * 512 + i) =
        (s.mem (s.pageAt s.cur (st.addr k))).get i := by
  have hget : ∀ k, s.Mapped s.cur st k → ∀ b i, i < 512 →
      (s.stored s.cur st k b).get i = (s.mem (s.pageAt s.cur (st.addr k))).get i := by
    intro k hu b i hi
    rw [stored, if_neg hu, firstBlock, Bytes.get_ofFn _ hi]
  constructor
  · intro h k hlt hu b hb i hi
    rw [h k hlt hu b hb i hi, hget k hu b i hi]
  · intro h k hlt hu b hb i hi
    rw [h k hlt hu b hb i hi, hget k hu b i hi]

/-- After booting, the current process has written `c` to the one page of its heap. -/
structure OnePage (s : Machine) (c : Bytes 4096) : Prop where
  image : s.image = p2k (2 ^ 21)
  cur : s.cur = 0
  sections : s.sections = fun _ => [⟨0, 0, pageSize⟩]
  swapValid : s.swapValid = fun _ => false
  run : Reach PtSys.step (fun _ _ => True)
    (PtSys.start (PageMem.init (p2k (2 ^ 21)) fun _ => .zero)) s.pt
  zeroPage : s.pt.sys.m.zeroPage = none
  count : s.pt.sys.m.allocPageCnt ≤ 5
  held : s.pageAt 0 0 ∈ s.pt.sys.held
  page : s.mem (s.pageAt 0 0) = c
  valid : s.pteAt 0 0 &&& pteValid ≠ 0
  empty : s.pteAt 0 pageSize = 0

/-- What `vmmap` does to the accounts and the record. -/
theorem PtSys.vmmap_accounts {s s' : PtSys} {pd va ka flags : ℕ}
    (hs : s.step (.vmmap pd va ka flags) = some s') (hroom : 4 ≤ s.sys.m.pages.length) :
    s'.sys.held = s.sys.held ∧ s'.sys.lives = s.sys.lives ∧
      s.sys.m.pages.length ≤ s'.sys.m.pages.length + 4 ∧
      ∀ pd' x, ¬ (pd' = pd ∧ x = vpn va) → s'.last pd' x = s.last pd' x := by
  obtain ⟨slot, pt', m', hg, hlen⟩ := s.sys.m.getPte_room (s.root pd) va hroom
  rw [PtSys.step, PageMem.vmmap, hg] at hs
  cases hs
  refine ⟨rfl, rfl, hlen, ?_⟩
  intro pd' x hx
  simp only [PtSys.record, PtSys.touch, PtSys.setMem, if_neg hx]

/-- After booting, a page has been handed out and mapped at address 0. -/
theorem exists_mapped : ∃ T pt p, PtOk Machine.booted.pt.sys.m.pages T pt ∧
    Reach PtSys.step (fun _ _ => True) Machine.booted.pt pt ∧ pt.sys.held = [p] ∧
      pt.sys.lives = 0 ∧ 257530 ≤ pt.sys.m.pages.length ∧
      pt.last 0 0 = (k2p p ||| (pteUserData ||| pteRw) ||| pteValid) % 2 ^ 64 ∧
      ∀ pd x, ¬ (pd = 0 ∧ x = 0) → pt.last pd x = 0 := by
  have hok := Machine.booted_ok
  have hlen := Machine.booted_pages
  cases hp : Machine.booted.pt.sys.m.pages with
  | nil => simp [hp] at hlen
  | cons p ps =>
      rw [hp, List.length_cons] at hlen
      have hs₁ := Machine.call_kallocPage hp
      rw [Machine.call, Option.map_eq_some_iff] at hs₁
      obtain ⟨pt₁, hs₁, heq⟩ := hs₁
      have hpt₁ := congrArg Machine.pt heq
      simp only at hpt₁
      obtain ⟨T₁, hT₁, -⟩ := hok.step hs₁
      have hheld₁ : pt₁.sys.held = [p] := by rw [hpt₁]; rfl
      have hroom : 257534 ≤ pt₁.sys.m.pages.length := by
        have hpages₁ : pt₁.sys.m.pages = ps := by rw [hpt₁]
        rw [hpages₁]
        omega
      -- the page is mapped
      obtain ⟨r, hr⟩ := PageMem.vmmap_progress (s := pt₁.sys.m) (pt₁.root 0) 0 p
        (pteUserData ||| pteRw) (by omega)
      have hs₂ : ∃ pt₂, pt₁.step (.vmmap 0 0 p (pteUserData ||| pteRw)) = some pt₂ := by
        rw [PtSys.step, hr]
        exact ⟨_, rfl⟩
      obtain ⟨pt₂, hs₂⟩ := hs₂
      obtain ⟨T, hT, -⟩ := hT₁.step hs₂
      obtain ⟨-, -, hlast⟩ := hT₁.vmmap_step (by rw [hheld₁]; exact List.mem_singleton_self p) hs₂
      obtain ⟨hheld, hlives, hpages, hother⟩ := PtSys.vmmap_accounts hs₂ (by omega)
      rw [hp] at hT
      refine ⟨T, pt₂, p, hT, (Reach.init.step trivial hs₁).step trivial hs₂, hheld.trans hheld₁,
        ?_, by omega, hlast, ?_⟩
      · rw [hlives, hpt₁]
        rfl
      · intro pd x hx
        rw [hother pd x hx, hpt₁]
        rfl

/-- After booting, the current process has written `c` to the one page that is mapped. -/
theorem exists_onePage_alone (c : Bytes 4096) : ∃ s, OnePage s c ∧ s.offline = [] ∧
    ∀ pd va, ¬ (pd = 0 ∧ vpn va = 0) → s.pteAt pd va = 0 := by
  obtain ⟨T, pt, p, hT, hrun, hheld, hlives, hpages, hlast, hother⟩ := exists_mapped
  set s : Machine := { Machine.booted with pt := pt } with hs
  have hmem : p ∈ (s.view T).held := by
    show p ∈ pt.sys.held
    rw [hheld]
    exact List.mem_singleton_self p
  obtain ⟨t, ht, hg⟩ := Machine.call_fill (s := s) hT hmem c
  rw [Machine.call, Option.map_eq_some_iff] at ht
  obtain ⟨pt', hstep, rfl⟩ := ht
  obtain ⟨hvalid, hpage⟩ := Machine.userEntry (hT.good p (hT.acct.held p hmem).1)
  have hentry : ({ s with pt := pt' } : Machine).pteAt 0 0 =
      (k2p p ||| (pteUserData ||| pteRw) ||| pteValid) % 2 ^ 64 := by
    rw [Machine.pteAt_eq hg.ok, hg.view]
    exact hlast
  have hpageAt : ({ s with pt := pt' } : Machine).pageAt 0 0 = p := by
    rw [Machine.pageAt, hentry]
    exact hpage
  have hmem' : p ∈ (({ s with pt := pt' } : Machine).view T).held := by
    rw [hg.view]
    exact hmem
  have hempty : ∀ pd va, ¬ (pd = 0 ∧ vpn va = 0) → ({ s with pt := pt' } : Machine).pteAt pd va = 0 := by
    intro pd va hne
    rw [Machine.pteAt_eq hg.ok, hg.view]
    exact hother pd (vpn va) hne
  refine ⟨{ s with pt := pt' }, ?_, rfl, hempty⟩
  constructor
  case image => rfl
  case cur => rfl
  case sections => rfl
  case swapValid => rfl
  case run => exact hrun.step trivial hstep
  case zeroPage =>
    have hz : pt'.sys.m.zeroPage = pt.sys.m.zeroPage := congrArg View.zeroPage hg.view
    rw [hz]
    have hback := hT.acct.back
    by_contra hne
    rw [if_neg hne, hlives] at hback
    omega
  case count =>
    have hc : pt'.sys.m.allocPageCnt = pt.sys.m.allocPageCnt := congrArg View.allocPageCnt hg.view
    show pt'.sys.m.allocPageCnt ≤ 5
    rw [hc, hT.acct.count, hlives, Machine.booted_pages]
    push_cast
    omega
  case held => rw [hpageAt]; exact hmem'
  case page =>
    rw [hpageAt, ← Machine.view_mem (hg.ok.not_isLeaf hmem'), hg.view]
    exact Function.update_self _ _ _
  case valid => rw [hentry]; exact hvalid
  case empty => exact hempty 0 pageSize (by decide)

theorem exists_onePage (c : Bytes 4096) : ∃ s, OnePage s c := by
  obtain ⟨s, h, -⟩ := exists_onePage_alone c
  exact ⟨s, h⟩

/-- The section of that heap. -/
def heapPage : Section := ⟨0, 0, pageSize⟩

namespace OnePage

variable {s : Machine} {c : Bytes 4096}

theorem mapped_iff (h : OnePage s c) {k : ℕ} (hk : k < heapPage.rounds) :
    s.Mapped 0 heapPage k ↔ k = 0 := by
  have hrounds : heapPage.rounds = 2 := by decide
  rw [hrounds] at hk
  constructor
  · intro hu
    by_contra hne
    obtain rfl : k = 1 := by omega
    exact hu h.empty
  · rintro rfl hz
    have hvalid := h.valid
    rw [show s.pteAt 0 0 = 0 from hz, Nat.zero_and] at hvalid
    exact hvalid rfl

theorem ownPages (h : OnePage s c) : s.OwnPages 0 heapPage := by
  have hmapped : ∀ k, k < heapPage.rounds → s.Mapped 0 heapPage k → k = 0 :=
    fun k hk => (h.mapped_iff hk).mp
  constructor
  case aligned => rfl
  case valid =>
    intro k hk hu
    rw [hmapped k hk hu]
    exact h.valid
  case held =>
    intro k hk hu
    rw [hmapped k hk hu]
    exact h.held
  case plain =>
    intro k _ _
    rw [h.zeroPage]
    exact Option.some_ne_none _ |>.symm
  case inj =>
    intro j k hj hk huj huk _
    rw [hmapped j hj huj, hmapped k hk huk]
  all_goals exact fun hne => absurd h.cur.symm hne

theorem enoughRuns (h : OnePage s c) : s.EnoughRuns 0 heapPage := by
  have hrounds : heapPage.rounds = 2 := by decide
  have h0 : s.Mapped 0 heapPage 0 := (h.mapped_iff (by decide)).mpr rfl
  have h1 : ¬ s.Mapped 0 heapPage 1 := by
    intro h1
    have := (h.mapped_iff (k := 1) (by decide)).mp h1
    omega
  rw [Machine.EnoughRuns, hrounds, takeRuns_skip h1, takeRuns_succ, h.swapValid]
  simp only [takeRuns, iterM_zero, Option.bind_some, if_pos h0, Option.isSome_map]
  decide

theorem enoughPages (h : OnePage s c) : s.EnoughPages := by
  have hcount := h.count
  have htotal : totalPage (p2k (2 ^ 21)) = 257535 := by decide
  rw [Machine.EnoughPages, h.image, htotal, reversedPages]
  omega

/-- What is stored for the page: its first block. -/
theorem repeats_iff (h : OnePage s c) : s.Repeats 0 heapPage ↔
    ∀ b, b < 8 → ∀ i, i < 512 → c.get (b * 512 + i) = c.get i := by
  have hcur := h.cur
  have hrep := Machine.repeats_cur s heapPage
  rw [hcur] at hrep
  rw [hrep]
  constructor
  · intro hall
    have h0 := hall 0 (by decide) ((h.mapped_iff (by decide)).mpr rfl)
    rw [show s.mem (s.pageAt 0 (heapPage.addr 0)) = c from h.page] at h0
    exact h0
  · intro hc k hlt hu
    rw [(h.mapped_iff (Machine.lt_rounds hlt)).mp hu,
      show s.mem (s.pageAt 0 (heapPage.addr 0)) = c from h.page]
    exact hc

end OnePage

/-- A page whose eight blocks are the same, with the low bytes of their offsets -/
def repeatedBlock : Bytes 4096 := Bytes.ofFn fun i => UInt8.ofNat (i % 512)

/-- A page of eight equal blocks comes back. -/
theorem swap_round_trip_repeated : ∃ s s' s'', OnePage s repeatedBlock ∧
    repeatedBlock.get 513 = 1 ∧ s.swapout 0 0 = some s' ∧ s'.swapin 0 0 = some s'' ∧
    ComesBack s s'' 0 0 heapPage := by
  obtain ⟨s, h⟩ := exists_onePage repeatedBlock
  have hrun := h.run
  rw [← h.image] at hrun
  have hst : (s.sections 0)[0]? = some heapPage := by rw [h.sections]; rfl
  obtain ⟨s', s'', hs', hs'', hiff⟩ := swap_round_trip_iff (by rw [h.image]; decide) hrun hst
    (by decide) (by decide) (Or.inl h.cur.symm) h.ownPages h.enoughRuns h.enoughPages
  have hget : ∀ i, i < 4096 → repeatedBlock.get i = UInt8.ofNat (i % 512) := fun i hi =>
    Bytes.get_ofFn _ hi
  refine ⟨s, s', s'', h, hget 513 (by decide), hs', hs'', hiff.mpr (h.repeats_iff.mpr ?_)⟩
  intro b hb i hi
  rw [hget _ (by omega), hget _ (by omega), Nat.mul_add_mod_self_right]

/-- A page whose second block differs from its first does not come back, although everything is
as `swapout` and `swapin` need it. -/
theorem swap_loses_second_block :
    ¬ ∀ (mem : ℕ → Bytes 4096) (s : Machine) (pd j : ℕ) (st : Section), kspaceMask ≤ s.image →
      Reach PtSys.step (fun _ _ => True) (PtSys.start (PageMem.init s.image mem)) s.pt →
      (s.sections pd)[j]? = some st → st.flags &&& stFile = 0 → st.flags &&& stSwap = 0 →
      (pd = s.cur ∨ s.online pd = false) → s.OwnPages pd st → s.EnoughRuns pd st →
      s.EnoughPages → ∃ s' s'', s.swapout pd j = some s' ∧ s'.swapin pd j = some s'' ∧
        ComesBack s s'' pd j st := by
  intro hclaim
  obtain ⟨s, h⟩ := exists_onePage (Bytes.zero.setWord 512 1 1)
  have he : kspaceMask ≤ s.image := by rw [h.image]; decide
  have hrun := h.run
  rw [← h.image] at hrun
  have hst : (s.sections 0)[0]? = some heapPage := by rw [h.sections]; rfl
  obtain ⟨s', s'', hs', hs'', hrt⟩ := hclaim _ s 0 0 heapPage he hrun hst (by decide) (by decide)
    (Or.inl h.cur.symm) h.ownPages h.enoughRuns h.enoughPages
  obtain ⟨T, hT⟩ := exists_ptOk he hrun
  obtain ⟨t', t'', ht', ht'', hiff⟩ := hT.swap_trip (fun p hp => PageMem.lt_of_mem_init he hp)
    (PageMem.init_length _ _) hst (by decide) (by decide) (Or.inl h.cur.symm) h.ownPages
    h.enoughRuns h.enoughPages
  rw [hs'] at ht'
  cases ht'
  rw [hs''] at ht''
  cases ht''
  -- the first byte of the second block is not that of the first
  have hbyte := h.repeats_iff.mp (hiff.mp hrt) 1 (by decide) 0 (by decide)
  exact absurd hbyte (by decide)

end OsLab
