import OsLab.Kernel.SwapReclaim

/-!
# Swapping and what lies beyond the section

`pgfault`, `sbrk` and `free_sections` take a section to be `[begin, end)`, and the loops of
`swapout` and `swapin` run to `end` inclusive.  So a page that is mapped at `end` goes to the
swap area with the section, or is read from there although it never went, and swapping stays
inside the section exactly when nothing is mapped at `end`.

## Main definitions

* `Section.Outside`, `Inside` — beyond the section, and what swapping should leave alone.
* `Machine.OwnedOutside` — what is mapped there does not hang on the section.
* `Machine.EndFree`, `Machine.EndKept` — nothing is mapped at the end that swapping would change.
* `swap_inside_iff` — when swapping stays inside.
-/

namespace OsLab

namespace Section

/-- No page of `[begin, end)` is that of address `va`. -/
def Outside (st : Section) (va : ℕ) : Prop :=
  ∀ a, st.start ≤ a → a < st.stop → vpn a ≠ vpn va

/-- The rounds of the loops that come to a page of `[begin, end)`. -/
def inner (st : Section) : ℕ :=
  if st.start < st.stop ∧ st.stop % pageSize ≠ 0 then st.rounds
  else (st.stop - st.start + (pageSize - 1)) / pageSize

/-- The loops come to address `end`. -/
def ToEnd (st : Section) : Prop := st.start ≤ st.stop ∧ (st.stop - st.start) % pageSize = 0

end Section

/-- **What swapping should leave alone**: the entries of the directory beyond the section, and the
pages that are mapped there. -/
structure Inside (s s' : Machine) (pd : ℕ) (st : Section) : Prop where
  ptes : ∀ va, st.Outside va → s'.pteAt pd va = s.pteAt pd va
  pages : ∀ va, st.Outside va → s'.page pd va = s.page pd va

namespace Machine

/-- **What is mapped beyond the section has an owner of its own**, that `swapout` does not take,
and a page there that has gone to the disk has its run. -/
structure OwnedOutside (s : Machine) (pd : ℕ) (st : Section) : Prop where
  owners : ∀ va, st.Outside va → s.pteAt pd va &&& pteValid ≠ 0 →
    s.uses pd st st.inner (s.pageAt pd va) < s.pt.sys.held.count (s.pageAt pd va)
  runs : ∀ va, st.Outside va → s.pteAt pd va ≠ 0 → s.pteAt pd va &&& pteValid = 0 →
    s.swapValid (s.pteAt pd va >>> 12 - swapStart) = true

/-- Nothing is mapped at the end of the section, if the loops come to it and it is no page of the
section. -/
def EndFree (s : Machine) (pd : ℕ) (st : Section) : Prop :=
  st.ToEnd → st.Outside st.stop → s.pteAt pd st.stop = 0

/-- Nothing is mapped there that `swapout` would change: for a section with `ST_FILE` it only
clears `PTE_VALID`. -/
def EndKept (s : Machine) (pd : ℕ) (st : Section) : Prop :=
  st.ToEnd → st.Outside st.stop → s.pteAt pd st.stop = 0 ∨
    st.flags &&& stFile ≠ 0 ∧ s.pteAt pd st.stop &&& pteValid = 0

/-! ## The pages beyond a section -/

/-- They come to the pages of the section, and perhaps to `end`. -/
theorem rounds_eq (st : Section) :
    st.rounds = st.inner + 1 ∧ st.addr st.inner = st.stop ∧
      (st.start = st.stop ∨ st.stop % pageSize = 0) ∨ st.rounds = st.inner := by
  simp only [Section.inner]
  split_ifs with hin
  · exact Or.inr rfl
  · simp only [Section.rounds, Section.addr, pageSize] at *
    split_ifs with hle
    · omega
    · omega

theorem outside_ne {st : Section} {va k : ℕ} (h : st.Outside va) (hk : k < st.inner) :
    vpn va ≠ vpn (st.addr k) := by
  intro heq
  have hstart : st.start ≤ st.addr k := by
    simp only [Section.addr]
    omega
  by_cases hlt : st.addr k < st.stop
  · exact h (st.addr k) hstart hlt heq.symm
  · -- the page of `end` begins before it
    simp only [Section.inner] at hk
    split_ifs at hk with hin
    · have hle := rounds_addr_le hk
      refine h (st.stop - 1) (by omega) (by omega) (heq ▸ ?_)
      rw [show st.addr k = st.stop by omega]
      simp only [vpn, pageSize] at *
      omega
    · simp only [Section.addr, pageSize] at *
      omega

/-- An address beyond the section that the loops come to is `end`. -/
theorem outside_rounds {st : Section} {va k : ℕ} (h : st.Outside va) (hk : k < st.rounds)
    (heq : vpn va = vpn (st.addr k)) :
    st.ToEnd ∧ st.Outside st.stop ∧ k = st.inner ∧ vpn va = vpn st.stop := by
  have hge : st.inner ≤ k := by
    by_contra hlt
    exact outside_ne h (by omega) heq
  rcases rounds_eq st with ⟨hrounds, haddr, -⟩ | hrounds
  · obtain rfl : k = st.inner := by omega
    rw [haddr] at heq
    refine ⟨?_, ?_, rfl, heq⟩
    · simp only [Section.ToEnd, Section.addr, pageSize] at *
      omega
    · intro a hlo hhi ha
      exact h a hlo hhi (ha.trans heq.symm)
  · omega

/-- If `end` is beyond the section and the loops come to it, that is their last round. -/
theorem rounds_of_toEnd {st : Section} (hend : st.ToEnd) (hout : st.Outside st.stop) :
    st.rounds = st.inner + 1 ∧ st.addr st.inner = st.stop := by
  rcases rounds_eq st with ⟨hrounds, haddr, -⟩ | hrounds
  · exact ⟨hrounds, haddr⟩
  · obtain ⟨hle, hmod⟩ := hend
    have hlast : st.addr ((st.stop - st.start) / pageSize) = st.stop := by
      simp only [Section.addr, pageSize] at *
      omega
    refine absurd ?_ (outside_ne hout (k := (st.stop - st.start) / pageSize) ?_)
    · rw [hlast]
    · rw [← hrounds, Section.rounds, if_pos hle]
      omega

/-- The last round, if it is for `end`, is for a page beyond the section. -/
theorem outside_stop {st : Section} (hstop : st.stop < 2 ^ 48)
    (h : st.start = st.stop ∨ st.stop % pageSize = 0) : st.Outside st.stop := by
  intro a hlo hhi heq
  simp only [vpn, pageSize] at *
  omega

/-! ## What is mapped beyond the section -/

variable {all : List ℕ} {T : TableMap} {s s' : Machine} {pd j : ℕ} {st : Section}

/-- Clearing `PTE_VALID` changes no entry in which it is clear. -/
theorem and_notValid_of_invalid {e : ℕ} (h : e &&& pteValid = 0) (hlt : e < 2 ^ 64) :
    e &&& notValid = e := by
  have hmask : notValid ||| pteValid = 2 ^ 64 - 1 := by decide
  have hall : e &&& (notValid ||| pteValid) = e := by
    rw [hmask, Nat.and_two_pow_sub_one_eq_mod, Nat.mod_eq_of_lt hlt]
  rwa [Nat.and_or_distrib_left, h, Nat.or_zero] at hall

/-- Entries are words. -/
theorem pteAt_lt (h : PtOk all T s.pt) (pd va : ℕ) : s.pteAt pd va < 2 ^ 64 := by
  rw [pteAt, h.lookup_eq]
  cases T pd 3 (leafKey va) with
  | none => exact Nat.two_pow_pos 64
  | some t => exact Bytes.word_lt _ _ _

/-- A lookup whose result does not pass a test. -/
theorem bind_guard_none {α β γ : Type} {x : Option (Option α × β)} {c : α → Prop}
    [DecidablePred c] {f : α → γ} (h : ∀ a b, x = some (some a, b) → c a) :
    (do
      let (o, _) ← x
      let o ← o
      if c o then none else some (f o)) = none := by
  cases x with
  | none => rfl
  | some r =>
      obtain ⟨o, b⟩ := r
      cases o with
      | none => rfl
      | some a => simp [h a b rfl]

/-- Where no page is mapped, no page is shown. -/
theorem page_none {va : ℕ} (hv : s.pteAt pd va &&& pteValid = 0) : s.page pd va = none := by
  rw [page]
  refine bind_guard_none fun slot rest hl => ?_
  have hpte : s.pteAt pd va = s.entry slot := by rw [pteAt, hl]
  rwa [hpte] at hv

/-- A page is shown as before if its entry and its contents are as before. -/
theorem page_congr {t : Machine} (h : PtOk all T s.pt) (ht : PtOk all T t.pt) {va : ℕ}
    (hpte : t.pteAt pd va = s.pteAt pd va)
    (hmem : s.pteAt pd va &&& pteValid ≠ 0 → s.pageAt pd va ∈ s.pt.sys.held ∧
      (t.view T).mem (s.pageAt pd va) = (s.view T).mem (s.pageAt pd va)) :
    t.page pd va = s.page pd va := by
  by_cases hv : s.pteAt pd va &&& pteValid = 0
  · rw [page_none hv, page_none (by rw [hpte]; exact hv)]
  · obtain ⟨hheld, hsame⟩ := hmem hv
    have hleaf := h.not_isLeaf hheld
    rw [view_mem hleaf, view_mem hleaf] at hsame
    have hvt : t.pteAt pd va &&& pteValid ≠ 0 := by
      rw [hpte]
      exact hv
    rw [pteAt_eq h] at hv
    rw [pteAt_eq ht] at hvt
    rw [page_eq h pd va hv, page_eq ht pd va hvt, ← pteAt_eq h, ← pteAt_eq ht, hpte]
    exact congrArg some hsame

/-- **When `swapout` stays inside the section.** -/
theorem swapout_inside_iff (h : PtOk all T s.pt) (huser : s.UserSections)
    (hst : (s.sections pd)[j]? = some st) (hs : s.swapout pd j = some s')
    (hown : s.OwnedOutside pd st) : Inside s s' pd st ↔ s.EndKept pd st := by
  have hstop := huser pd st (List.mem_of_getElem? hst)
  obtain ⟨hok, -, -, hout⟩ := swapout_frame h hstop hst hs
  constructor
  · intro hin hend hoff
    obtain ⟨hrounds, haddr⟩ := rounds_of_toEnd hend hoff
    have hsame := hin.ptes st.stop hoff
    rw [pteAt_eq h, pteAt_eq hok, ← haddr] at hsame
    rw [← haddr, pteAt_eq h]
    by_cases hfile : st.flags &&& stFile = 0
    · rcases hout.paged hfile st.inner (by omega) with h0 | ⟨hne, bno, hlo, hhi, hfree, hrun⟩
      · exact Or.inl (hsame.symm.trans h0)
      · -- the entry has the number of a run that is not taken
        exfalso
        obtain ⟨hmask, -, hshift⟩ := run_entry hlo hhi
        have hentry : s.pteAt pd st.stop = bno <<< 12 := by
          rw [pteAt_eq h, ← haddr, ← hsame, hrun, hmask]
        have hinvalid : s.pteAt pd st.stop &&& pteValid = 0 := by
          rw [hentry, ← hmask, Nat.and_assoc, show notValid &&& pteValid = 0 by decide,
            Nat.and_zero]
        have htaken := hown.runs st.stop hoff (by rw [pteAt_eq h, ← haddr]; exact hne) hinvalid
        rw [hentry, hshift] at htaken
        exact absurd (htaken.symm.trans hfree) (by decide)
    · right
      refine ⟨hfile, ?_⟩
      rw [← hsame, hout.file hfile st.inner (by omega), Nat.and_assoc,
        show notValid &&& pteValid = 0 by decide, Nat.and_zero]
  · intro hkept
    have hptes : ∀ va, st.Outside va → s'.pteAt pd va = s.pteAt pd va := by
      intro va hva
      by_cases hround : ∃ i, i < st.rounds ∧ vpn va = vpn (st.addr i)
      · obtain ⟨i, hi, heq⟩ := hround
        obtain ⟨hend, hoff, -, hvpn⟩ := outside_rounds hva hi heq
        have hpte : s.pteAt pd st.stop = s.pteAt pd va := by
          rw [pteAt_eq h, pteAt_eq h, hvpn]
        have hlast := hkept hend hoff
        rw [hpte] at hlast
        have hlt := pteAt_lt h pd va
        rw [pteAt_eq hok, heq]
        rw [pteAt_eq h, heq] at hlast hlt ⊢
        by_cases hfile : st.flags &&& stFile = 0
        · have h0 := hlast.resolve_right fun hr => hr.1 hfile
          rcases hout.paged hfile i hi with h0' | ⟨hne, -⟩
          · rw [h0, h0']
          · exact absurd h0 hne
        · rw [hout.file hfile i hi]
          rcases hlast with h0 | ⟨-, hinvalid⟩
          · rw [h0, Nat.zero_and]
          · exact and_notValid_of_invalid hinvalid hlt
      · rw [pteAt_eq h, pteAt_eq hok]
        exact hout.other pd (vpn va) fun _ i hi heq => hround ⟨i, hi, heq⟩
    refine ⟨hptes, fun va hva => page_congr h hok (hptes va hva) fun hv => ?_⟩
    have howners := hown.owners va hva hv
    refine ⟨List.count_pos_iff.mp (Nat.zero_lt_of_lt howners), hout.mem _ fun hfile => ?_⟩
    have hcount : (s.view T).leadCount pd (fun i => vpn (st.addr i)) st.rounds (s.pageAt pd va) =
        s.uses pd st st.inner (s.pageAt pd va) := by
      rw [uses_eq h]
      rcases rounds_eq st with ⟨hrounds, haddr, hlast⟩ | hrounds
      · have hoff := outside_stop hstop hlast
        have hend : st.ToEnd := by
          simp only [Section.ToEnd, Section.addr, pageSize] at *
          omega
        have h0 := (hkept hend hoff).resolve_right fun hr => hr.1 hfile
        rw [hrounds, View.leadCount_succ, if_neg, Nat.add_zero]
        rintro ⟨hne, -⟩
        rw [haddr, ← pteAt_eq h] at hne
        exact hne h0
      · rw [hrounds]
    rw [hcount]
    exact howners

/-- **When `swapin` stays inside the section.** -/
theorem swapin_inside_iff (h : PtOk all T s.pt) (huser : s.UserSections) (hpd : pd ∉ s.offline)
    (hst : (s.sections pd)[j]? = some st) (hs : s.swapin pd j = some s')
    (hguard : ∀ va, st.Outside va → s.pteAt pd va &&& pteValid ≠ 0 → s.Guarded (s.pageAt pd va)) :
    Inside s s' pd st ↔ s.EndFree pd st := by
  have hin := swapin_frame h huser hpd hst hs
  constructor
  · intro hinside hend hoff
    obtain ⟨hrounds, haddr⟩ := rounds_of_toEnd hend hoff
    have hsame := hinside.ptes st.stop hoff
    by_contra hne
    have hne' : (s.view T).entry pd (vpn (st.addr st.inner)) ≠ 0 := by
      rw [haddr, ← pteAt_eq h]
      exact hne
    -- a page that was free is mapped now
    obtain ⟨p, hgood, hentry, hnew⟩ := hin.done st.inner (by omega) hne'
    rw [haddr, ← pteAt_eq hin.ok, hsame] at hentry
    obtain ⟨hvalid, hpage, -⟩ := userEntry_valid hgood
    rw [← hentry] at hvalid hpage
    exact hnew p (hpage ▸ hguard st.stop hoff hvalid) rfl
  · intro hfree
    have hptes : ∀ va, st.Outside va → s'.pteAt pd va = s.pteAt pd va := by
      intro va hva
      rw [pteAt_eq h, pteAt_eq hin.ok]
      by_cases hround : ∃ i, i < st.rounds ∧ vpn va = vpn (st.addr i)
      · obtain ⟨i, hi, heq⟩ := hround
        obtain ⟨hend, hoff, -, hvpn⟩ := outside_rounds hva hi heq
        have h0 : (s.view T).entry pd (vpn va) = 0 := by
          rw [hvpn, ← pteAt_eq h]
          exact hfree hend hoff
        rw [h0, heq]
        exact hin.empty i hi (by rw [← heq]; exact h0)
      · exact hin.other (vpn va) fun i hi heq => hround ⟨i, hi, heq⟩
    refine ⟨hptes, fun va hva => page_congr h hin.ok (hptes va hva) fun hv => ?_⟩
    have hg := hguard va hva hv
    exact ⟨List.count_pos_iff.mp (Nat.zero_lt_of_lt hg), hin.mem _ hg⟩

end Machine

/-- **Swapping stays inside the section exactly when nothing is mapped at its end.**  The sections
are those of users, what is mapped beyond this one has an owner of its own, and the directory is
not one of those that `alloc_page_for_user` swaps out. -/
theorem swap_inside_iff {e : ℕ} {mem : ℕ → Bytes 4096} {s : Machine} {pd j : ℕ} {st : Section}
    (he : kspaceMask ≤ e)
    (h : Reach PtSys.step (fun _ _ => True) (PtSys.start (PageMem.init e mem)) s.pt)
    (huser : s.UserSections) (hst : (s.sections pd)[j]? = some st) :
    (∀ s', s.swapout pd j = some s' → s.OwnedOutside pd st →
      (Inside s s' pd st ↔ s.EndKept pd st)) ∧
    ∀ s', s.swapin pd j = some s' → pd ∉ s.offline →
      (∀ va, st.Outside va → s.pteAt pd va &&& pteValid ≠ 0 → s.Guarded (s.pageAt pd va)) →
      (Inside s s' pd st ↔ s.EndFree pd st) := by
  obtain ⟨T, hT⟩ := exists_ptOk he h
  exact ⟨fun s' hs hown => Machine.swapout_inside_iff hT huser hst hs hown,
    fun s' hs hpd hguard => Machine.swapin_inside_iff hT huser hpd hst hs hguard⟩

/-! ## A heap of one page and an empty one -/

/-- The heap with one page goes out and comes back. -/
theorem swap_inside_one : ∃ s s' s'', OnePage s .zero ∧ s.swapout 0 0 = some s' ∧
    s'.swapin 0 0 = some s'' ∧ Inside s s' 0 heapPage ∧
      Inside s' s'' 0 ⟨stSwap, 0, pageSize⟩ := by
  obtain ⟨s, h, hoff, hempty⟩ := exists_onePage_alone .zero
  have hrun := h.run
  have hst : (s.sections 0)[0]? = some heapPage := by rw [h.sections]; rfl
  have hrun' := h.run
  rw [← h.image] at hrun'
  obtain ⟨s', s'', hs', hs'', -⟩ := swap_round_trip_iff (by rw [h.image]; decide) hrun' hst
    (by decide) (by decide) (Or.inl h.cur.symm) h.ownPages h.enoughRuns h.enoughPages
  have hzero : ∀ va, heapPage.Outside va → s.pteAt 0 va = 0 := by
    intro va hva
    refine hempty 0 va fun hpage => ?_
    exact hva 0 (le_refl 0) (by decide) hpage.2.symm
  have huser : s.UserSections := by
    intro pd st hin
    rw [h.sections, List.mem_singleton] at hin
    rw [hin]
    decide
  have hend : heapPage.Outside heapPage.stop := Machine.outside_stop (by decide) (Or.inr (by decide))
  have hin : Inside s s' 0 heapPage := by
    refine ((swap_inside_iff (by decide) hrun huser hst).1 s' hs' ⟨?_, ?_⟩).mpr ?_
    · intro va hva hv
      rw [hzero va hva, Nat.zero_and] at hv
      exact absurd rfl hv
    · intro va hva hne
      exact absurd (hzero va hva) hne
    · exact fun _ _ => Or.inl (hzero _ hend)
  refine ⟨s, s', s'', h, hs', hs'', hin, ?_⟩
  -- after `swapout`
  obtain ⟨T, hT⟩ := exists_ptOk (by decide) hrun
  obtain ⟨-, hoff', -, hout⟩ := Machine.swapout_frame hT (by decide) hst hs'
  obtain ⟨-, -, cs, -, hcs⟩ := EvolvesBy.swapout hs'
  have hsec : s'.sections = Function.update s.sections 0
      ((s.sections 0).modify 0 fun st => { st with flags := heapPage.flags ||| stSwap }) :=
    hout.sections
  have hst' : (s'.sections 0)[0]? = some ⟨stSwap, 0, pageSize⟩ := by
    rw [hsec, Function.update_self, List.getElem?_modify_eq, hst]
    rfl
  refine ((swap_inside_iff (by decide) (hrun.of_runs cs hcs)
    (Machine.userSections_of_flags huser hsec) hst').2 s'' hs'' ?_ ?_).mpr ?_
  · rw [hoff', hoff]
    exact List.not_mem_nil
  · intro va hva hv
    rw [hin.ptes va hva, hzero va hva, Nat.zero_and] at hv
    exact absurd rfl hv
  · intro _ _
    exact (hin.ptes _ hend).trans (hzero _ hend)

namespace OnePage

variable {s : Machine} {c : Bytes 4096}

/-- The heap is empty, and the page at its end is somebody's text. -/
def emptyHeap (s : Machine) : Machine := { s with sections := fun _ => [⟨0, 0, 0⟩] }

theorem swapout_emptyHeap (h : OnePage s c) : ∃ s', (emptyHeap s).swapout 0 0 = some s' := by
  obtain ⟨T, hT⟩ := exists_ptOk (by decide) h.run
  have hmapped : (emptyHeap s).Mapped 0 ⟨0, 0, 0⟩ 0 := (h.mapped_iff (by decide)).mpr rfl
  have hone : ∀ k, k < (⟨0, 0, 0⟩ : Section).rounds → k = 0 := by
    intro k hk
    rw [show (⟨0, 0, 0⟩ : Section).rounds = 1 by decide] at hk
    omega
  have hown : (emptyHeap s).OwnPages 0 ⟨0, 0, 0⟩ := by
    constructor
    case aligned => rfl
    case valid =>
      intro k hk _
      rw [hone k hk]
      exact h.valid
    case held =>
      intro k hk _
      rw [hone k hk]
      exact h.held
    case plain =>
      intro k _ _ hz
      rw [show (emptyHeap s).pt.sys.m.zeroPage = none from h.zeroPage] at hz
      cases hz
    case inj =>
      intro i k hi hk _ _ _
      rw [hone i hi, hone k hk]
    all_goals exact fun hne => absurd h.cur.symm hne
  have hruns : (emptyHeap s).EnoughRuns 0 ⟨0, 0, 0⟩ := by
    rw [Machine.EnoughRuns, show (⟨0, 0, 0⟩ : Section).rounds = 1 by decide, takeRuns_succ,
      show (emptyHeap s).swapValid = fun _ => false from h.swapValid]
    simp only [takeRuns, iterM_zero, Option.bind_some, if_pos hmapped, Option.isSome_map]
    decide
  obtain ⟨s', hs', -⟩ := Machine.swapout_writing (s := emptyHeap s) (j := 0) hT
    (fun p hp => PageMem.lt_of_mem_init (by decide) hp) rfl (by decide) (by decide)
    (Or.inl h.cur.symm) hown hruns
  exact ⟨s', hs'⟩

end OnePage

/-- The page at the end of an empty heap goes to the disk with it. -/
theorem swap_takes_the_end : ¬ ∀ (e : ℕ) (mem : ℕ → Bytes 4096) (s : Machine) (pd j : ℕ)
    (st : Section), kspaceMask ≤ e →
    Reach PtSys.step (fun _ _ => True) (PtSys.start (PageMem.init e mem)) s.pt →
    s.UserSections → (s.sections pd)[j]? = some st →
    (∀ s', s.swapout pd j = some s' → s.OwnedOutside pd st → Inside s s' pd st) ∧
    ∀ s', s.swapin pd j = some s' → pd ∉ s.offline →
      (∀ va, st.Outside va → s.pteAt pd va &&& pteValid ≠ 0 → s.Guarded (s.pageAt pd va)) →
      Inside s s' pd st := by
  intro hclaim
  obtain ⟨s, h, hoff, hempty⟩ := exists_onePage_alone .zero
  obtain ⟨s', hs'⟩ := h.swapout_emptyHeap
  obtain ⟨T, hT⟩ := exists_ptOk (by decide) h.run
  have huser : (OnePage.emptyHeap s).UserSections := by
    intro pd st hin
    rw [List.mem_singleton.mp hin]
    decide
  have hvpn : ∀ va, s.pteAt 0 va ≠ 0 → s.pteAt 0 va = s.pteAt 0 0 := by
    intro va hne
    have hva : vpn va = 0 := by
      by_contra hva
      exact hne (hempty 0 va fun hpage => hva hpage.2)
    rw [Machine.pteAt_eq hT, Machine.pteAt_eq hT, hva]
    rfl
  have hown : (OnePage.emptyHeap s).OwnedOutside 0 ⟨0, 0, 0⟩ := by
    constructor
    case owners =>
      intro va _ hv
      have hpte : s.pteAt 0 va = s.pteAt 0 0 := by
        refine hvpn va fun h0 => hv ?_
        rw [show (OnePage.emptyHeap s).pteAt 0 va = 0 from h0, Nat.zero_and]
      have hheld : s.pageAt 0 va ∈ s.pt.sys.held := by
        rw [Machine.pageAt, hpte]
        exact h.held
      exact List.count_pos_iff.mpr hheld
    case runs =>
      intro va _ hne hv
      have hpte : (OnePage.emptyHeap s).pteAt 0 va = s.pteAt 0 0 := hvpn va hne
      rw [hpte] at hv
      exact absurd hv h.valid
  have hin := (hclaim _ _ (OnePage.emptyHeap s) 0 0 ⟨0, 0, 0⟩ (by decide) h.run huser rfl).1 s'
    hs' hown
  rcases (Machine.swapout_inside_iff (s := OnePage.emptyHeap s) hT huser rfl hs' hown).mp hin
    ⟨le_refl 0, rfl⟩ (fun a _ ha => absurd ha (Nat.not_lt_zero a)) with h0 | ⟨hfile, -⟩
  · refine h.valid ?_
    rw [show s.pteAt 0 0 = 0 from h0, Nat.zero_and]
  · exact hfile (by decide)

end OsLab
