import OsLab.Kernel.SwapFrame
import Mathlib.Algebra.Order.BigOperators.Group.List

/-!
# What swapping does to everybody

`swapout` and `swapin` from any machine whose tables are in order, whenever they return.
`swapout` takes an owner from a page for each entry of the section that leads to it, and
`alloc_page_for_user`, on which `swapin` relies, takes one for each entry of the processes
that it swaps out.  A page keeps its contents as long as it has more owners than that.

## Main definitions

* `Machine.uses`, `Machine.reclaimUses` — the owners that a page may lose.
* `Machine.Guarded` — it has more than those.
* `SwappedOut`, `Machine.SwappedIn` — what the calls do.
* `Machine.Spared` — what `alloc_page_for_user` leaves alone.
-/

namespace OsLab

namespace Machine

/-- How many of the first `n` entries of the section lead to page `q`. -/
def uses (s : Machine) (pd : ℕ) (st : Section) (n q : ℕ) : ℕ :=
  Nat.count (fun k => s.pteAt pd (st.addr k) ≠ 0 ∧ s.pageAt pd (st.addr k) = q) n

/-- How often page `q` would be freed if directory `pd` were swapped out to make room: once for
each entry that the loops come to, unless it is swapped out already. -/
def lastUses (s : Machine) (q pd : ℕ) : ℕ :=
  match (s.sections pd)[(s.sections pd).length - 1]? with
  | none => 0
  | some st => if st.flags &&& stSwap = 0 then s.uses pd st st.rounds q else 0

/-- How often `alloc_page_for_user` may free page `q`. -/
def reclaimUses (s : Machine) (q : ℕ) : ℕ := (s.offline.map (s.lastUses q)).sum

/-- The sections lie in the address space of users. -/
def UserSections (s : Machine) : Prop := ∀ pd, ∀ st ∈ s.sections pd, st.stop < 2 ^ 48

/-- More owners hold on to page `q` than `alloc_page_for_user` will take. -/
def Guarded (s : Machine) (q : ℕ) : Prop := s.reclaimUses q < s.pt.sys.held.count q

/-! ## The loops of a section -/

theorem rounds_addr_le {st : Section} {k : ℕ} (hk : k < st.rounds) : st.addr k ≤ st.stop := by
  simp only [Section.rounds, Section.addr, pageSize] at *
  split_ifs at hk
  · omega
  · omega

/-- The loops come to each page once. -/
theorem rounds_inj {st : Section} (hstop : st.stop < 2 ^ 48) (i j : ℕ) (hi : i < st.rounds)
    (hj : j < st.rounds) (heq : vpn (st.addr i) = vpn (st.addr j)) : i = j := by
  have hi' := rounds_addr_le hi
  have hj' := rounds_addr_le hj
  simp only [vpn, Section.addr, pageSize] at *
  omega

/-! ## What `swapout` does to everything else -/

theorem call_offline {c : PtCall} {s s' : Machine} (hs : s.call c = some s') :
    s'.offline = s.offline := by
  rw [call, Option.map_eq_some_iff] at hs
  obtain ⟨pt, -, rfl⟩ := hs
  rfl

theorem onEntry_offline {f : Machine → ℕ × ℕ → Option Machine} {s s' : Machine} {pd va : ℕ}
    (hf : ∀ t slot t', f t slot = some t' → t'.offline = t.offline)
    (hs : s.onEntry f pd va = some s') : s'.offline = s.offline := by
  simp only [onEntry, Option.bind_eq_bind, Option.bind_eq_some_iff] at hs
  obtain ⟨⟨slot, rest⟩, -, t, ht, hs⟩ := hs
  cases slot with
  | none =>
      cases hs
      exact call_offline ht
  | some slot =>
      simp only at hs
      split_ifs at hs
      · cases hs
        exact call_offline ht
      · exact (hf _ _ _ hs).trans (call_offline ht)

theorem iterM_offline {f : ℕ → Machine → Option Machine} {n : ℕ} {s s' : Machine}
    (hf : ∀ i t t', f i t = some t' → t'.offline = t.offline) (hs : iterM f n s = some s') :
    s'.offline = s.offline :=
  iterM_induction (fun _ t => t.offline = s.offline) hs rfl
    fun i t t' _ ht hstep => (hf i t t' hstep).trans ht

theorem writePageToDisk_offline {ka bno : ℕ} {s s' : Machine}
    (hs : s.writePageToDisk ka = some (bno, s')) : s'.offline = s.offline := by
  simp only [writePageToDisk, Option.bind_eq_bind, Option.bind_eq_some_iff] at hs
  obtain ⟨⟨bno', valid⟩, -, u, hu, hs⟩ := hs
  cases hs
  have hrounds : s'.offline = ({ s with swapValid := valid } : Machine).offline := by
    refine iterM_offline (fun i t t' ht => ?_) hu
    refine onEntry_offline (fun t slot t' ht => ?_) ht
    cases ht
    rfl
  exact hrounds

theorem pageOut_offline {pd va : ℕ} {s s' : Machine} (hs : s.pageOut pd va = some s') :
    s'.offline = s.offline := by
  refine onEntry_offline (fun t slot t' ht => ?_) hs
  simp only [Option.bind_eq_bind, Option.bind_eq_some_iff] at ht
  obtain ⟨⟨bno, u⟩, hu, w, hw, ht⟩ := ht
  exact (call_offline ht).trans ((call_offline hw).trans (writePageToDisk_offline hu))

end Machine

/-- After the first loop an entry leads where it led before, if anywhere. -/
theorem Hiding.leads {v u : View} {pd n i q : ℕ} {x : ℕ → ℕ} (h : Hiding v pd x n u) (hi : i < n)
    (hl : u.Leads pd (x i) q) : v.Leads pd (x i) q := by
  rw [View.Leads, h.done i hi, entryPage_and_notValid] at hl
  refine ⟨?_, hl.2⟩
  intro h0
  rw [h0, Nat.zero_and] at hl
  exact hl.1 rfl

/-- **What `swapout` does** to the entries, and to the pages of everybody. -/
structure SwappedOut (v v' : View) (pd j : ℕ) (st : Section) : Prop where
  sections : v'.sections = Function.update v.sections pd
    ((v.sections pd).modify j fun st' => { st' with flags := st.flags ||| stSwap })
  other : ∀ pd' y, (pd' = pd → ∀ i, i < st.rounds → y ≠ vpn (st.addr i)) →
    v'.entry pd' y = v.entry pd' y
  file : st.flags &&& stFile ≠ 0 → ∀ i, i < st.rounds →
    v'.entry pd (vpn (st.addr i)) = v.entry pd (vpn (st.addr i)) &&& notValid
  paged : st.flags &&& stFile = 0 → ∀ i, i < st.rounds → v'.entry pd (vpn (st.addr i)) = 0 ∨
    v.entry pd (vpn (st.addr i)) ≠ 0 ∧ ∃ bno, swapStart ≤ bno ∧ bno + 8 ≤ swapEnd ∧
      v.swapValid (bno - swapStart) = false ∧
        v'.entry pd (vpn (st.addr i)) = bno <<< 12 &&& notValid
  owners : ∀ q, v.held.count q ≤
    v'.held.count q + v.leadCount pd (fun i => vpn (st.addr i)) st.rounds q
  mem : ∀ q, (st.flags &&& stFile = 0 →
    v.leadCount pd (fun i => vpn (st.addr i)) st.rounds q < v.held.count q) →
    v'.mem q = v.mem q

namespace Machine

variable {all : List ℕ} {T : TableMap} {s s' : Machine} {pd j : ℕ} {st : Section}

theorem swapout_frame (h : PtOk all T s.pt) (hstop : st.stop < 2 ^ 48)
    (hst : (s.sections pd)[j]? = some st) (hs : s.swapout pd j = some s') :
    PtOk all T s'.pt ∧ s'.offline = s.offline ∧ st.flags &&& stSwap = 0 ∧
      SwappedOut (s.view T) (s'.view T) pd j st := by
  rw [swapout, hst] at hs
  simp only [Option.bind_eq_bind, Option.bind_some] at hs
  rw [Option.ite_none_left_eq_some, Option.ite_none_left_eq_some, not_not,
    Option.bind_eq_some_iff] at hs
  obtain ⟨-, hswap, u, hu, hs⟩ := hs
  rw [forPages_eq] at hu
  have hoff : u.offline = (s.setFlags pd j (st.flags ||| stSwap)).offline :=
    iterM_offline (fun i t t' ht => onEntry_offline (fun _ _ _ => call_offline) ht) hu
  obtain ⟨u', hu', hok, hhide⟩ := hide_loop (s := s.setFlags pd j (st.flags ||| stSwap)) h pd
    st.addr st.rounds
  rw [hu, Option.some.injEq] at hu'
  subst hu'
  have hother : ∀ pd' y, (pd' = pd → ∀ i, i < st.rounds → y ≠ vpn (st.addr i)) →
      (u.view T).entry pd' y = (s.view T).entry pd' y := by
    intro pd' y hy
    by_cases hpd : pd' = pd
    · subst hpd
      exact hhide.todo y (hy rfl)
    · exact congrFun (hhide.other pd' hpd) y
  have hsections : (u.view T).sections = Function.update s.sections pd
      ((s.sections pd).modify j fun st' => { st' with flags := st.flags ||| stSwap }) := by
    rw [hhide.rest]
    rfl
  have hheld : (u.view T).held = (s.view T).held := by
    rw [hhide.rest]
    rfl
  have hmem : (u.view T).mem = (s.view T).mem := by
    rw [hhide.rest]
    rfl
  split_ifs at hs with hfile
  · -- the pages go to the disk
    rw [forPages_eq] at hs
    obtain ⟨hok', hvac⟩ := pageOut_vacating hok (rounds_inj hstop) hs
    have hoff' : s'.offline = u.offline := iterM_offline (fun _ _ _ => pageOut_offline) hs
    have hcount : ∀ q, (u.view T).leadCount pd (fun i => vpn (st.addr i)) st.rounds q ≤
        (s.view T).leadCount pd (fun i => vpn (st.addr i)) st.rounds q :=
      fun q => View.leadCount_mono fun i hi hl =>
        hhide.leads (x := fun i => vpn (st.addr i)) hi hl
    refine ⟨hok', hoff'.trans hoff, hswap, ?_⟩
    constructor
    case sections => exact hvac.sections.trans hsections
    case other => exact fun pd' y hy => (hvac.other pd' y hy).trans (hother pd' y hy)
    case file => exact fun hne => absurd hfile hne
    case paged =>
      intro _ i hi
      have hvalid : (u.view T).swapValid = (s.view T).swapValid := by
        rw [hhide.rest]
        rfl
      rcases hvac.done i hi with ⟨-, h0⟩ | ⟨hne, hrun⟩
      · exact Or.inl h0
      · rw [hvalid] at hrun
        refine Or.inr ⟨?_, hrun⟩
        intro h0
        have h0' : ((s.setFlags pd j (st.flags ||| stSwap)).view T).entry pd
            (vpn (st.addr i)) = 0 := h0
        rw [hhide.done i hi, h0', Nat.zero_and] at hne
        exact hne rfl
    case owners =>
      intro q
      have hq := hvac.owners q
      rw [hheld] at hq
      have := hcount q
      omega
    case mem =>
      intro q hq
      have hlt := hq hfile
      rw [hvac.mem q (by rw [hheld]; exact lt_of_le_of_lt (hcount q) hlt), hmem]
  · cases hs
    refine ⟨hok, hoff, hswap, ?_⟩
    constructor
    case sections => exact hsections
    case other => exact hother
    case file => exact fun _ i hi => hhide.done i hi
    case paged => exact fun h0 => absurd h0 hfile
    case owners =>
      intro q
      rw [hheld]
      exact Nat.le_add_right _ _
    case mem => exact fun q _ => congrFun hmem q

theorem uses_eq (h : PtOk all T s.pt) (pd : ℕ) (st : Section) (n q : ℕ) :
    s.uses pd st n q = (s.view T).leadCount pd (fun i => vpn (st.addr i)) n q := by
  have hleads : ∀ k, (s.pteAt pd (st.addr k) ≠ 0 ∧ s.pageAt pd (st.addr k) = q) ↔
      (s.view T).Leads pd (vpn (st.addr k)) q := by
    intro k
    rw [pteAt_eq h, pageAt_eq h, View.Leads]
  exact le_antisymm (Nat.count_mono_left fun k _ => (hleads k).mp)
    (Nat.count_mono_left fun k _ => (hleads k).mpr)

/-! ## What `alloc_page_for_user` does to everything else -/

/-- `t` comes of `s` without a change to a directory that may not be swapped out. -/
structure Spared (all : List ℕ) (T : TableMap) (s t : Machine) : Prop where
  ok : PtOk all T t.pt
  user : t.UserSections
  offline : t.offline ⊆ s.offline
  entry : ∀ pd, pd ∉ s.offline → ∀ y, (t.view T).entry pd y = (s.view T).entry pd y
  guarded : ∀ q, s.Guarded q → t.Guarded q
  mem : ∀ q, s.Guarded q → (t.view T).mem q = (s.view T).mem q

theorem Spared.refl (h : PtOk all T s.pt) (huser : s.UserSections) : Spared all T s s where
  ok := h
  user := huser
  offline := List.Subset.refl _
  entry _ _ _ := rfl
  guarded _ hq := hq
  mem _ _ := rfl

theorem Spared.trans {t u : Machine} (h : Spared all T s t) (h' : Spared all T t u) :
    Spared all T s u where
  ok := h'.ok
  user := h'.user
  offline := List.Subset.trans h'.offline h.offline
  entry pd hpd y := (h'.entry pd (fun hin => hpd (h.offline hin)) y).trans (h.entry pd hpd y)
  guarded q hq := h'.guarded q (h.guarded q hq)
  mem q hq := (h'.mem q (h.guarded q hq)).trans (h.mem q hq)

/-- A directory with the same sections and entries would cost a page as many owners. -/
theorem lastUses_congr {t : Machine} (h : PtOk all T s.pt) (ht : PtOk all T t.pt) (q : ℕ)
    (hsec : t.sections pd = s.sections pd)
    (hentry : ∀ y, (t.view T).entry pd y = (s.view T).entry pd y) :
    t.lastUses q pd = s.lastUses q pd := by
  have huses : ∀ st n, t.uses pd st n q = s.uses pd st n q := by
    intro st n
    rw [uses_eq h, uses_eq ht]
    refine le_antisymm (View.leadCount_mono fun i _ hl => ?_) (View.leadCount_mono fun i _ hl => ?_)
    · rwa [View.Leads, hentry] at hl
    · rwa [View.Leads, hentry]
  simp only [lastUses, hsec, huses]

theorem userSections_of_flags {t : Machine} (huser : s.UserSections) {f : ℕ}
    (h : t.sections = Function.update s.sections pd
      ((s.sections pd).modify j fun st => { st with flags := f })) : t.UserSections := by
  intro pd' st hst
  rw [h] at hst
  by_cases hpd : pd' = pd
  · subst hpd
    rw [Function.update_self] at hst
    obtain ⟨i, hi⟩ := List.mem_iff_getElem?.mp hst
    rw [List.getElem?_modify, Option.map_eq_map, Option.map_eq_some_iff] at hi
    obtain ⟨st', hst', heq⟩ := hi
    have hstop := huser pd' st' (List.mem_of_getElem? hst')
    split_ifs at heq
    · subst heq
      exact hstop
    · subst heq
      exact hstop
  · rw [Function.update_of_ne hpd] at hst
    exact huser pd' st hst

/-- The next process is swapped out. -/
theorem spared_swapout {rest : List ℕ} (h : PtOk all T s.pt) (huser : s.UserSections)
    (hoff : s.offline = pd :: rest)
    (hs : ({ s with offline := rest } : Machine).swapout pd ((s.sections pd).length - 1) = some s') :
    Spared all T s s' := by
  set u : Machine := { s with offline := rest } with hu
  obtain ⟨st, hst, -⟩ := Option.bind_eq_some_iff.mp hs
  have hstop := huser pd st (List.mem_of_getElem? hst)
  obtain ⟨hok, hoff', hswap, hout⟩ := swapout_frame (s := u) h hstop hst hs
  have hother : ∀ pd', pd' ≠ pd → ∀ y, (s'.view T).entry pd' y = (s.view T).entry pd' y :=
    fun pd' hne y => hout.other pd' y fun heq => absurd heq hne
  have hlast : ∀ q pd', s'.lastUses q pd' ≤ s.lastUses q pd' := by
    intro q pd'
    by_cases hpd : pd' = pd
    · -- it is marked as swapped out
      subst hpd
      have hsec : s'.sections pd' = (s.sections pd').modify ((s.sections pd').length - 1)
          fun st' => { st' with flags := st.flags ||| stSwap } := by
        rw [show s'.sections = _ from hout.sections, Function.update_self]
        rfl
      have hflag : (st.flags ||| stSwap) &&& stSwap ≠ 0 := by
        rw [Nat.and_or_distrib_right, Nat.and_self]
        intro h0
        have := Nat.right_le_or (n := st.flags &&& stSwap) (m := stSwap)
        rw [h0] at this
        exact absurd this (by decide)
      have hnone : s'.lastUses q pd' = 0 := by
        rw [lastUses, hsec, List.length_modify, List.getElem?_modify_eq, hst]
        exact if_neg hflag
      omega
    · refine (lastUses_congr h hok q ?_ (hother pd' hpd)).le
      rw [show s'.sections = _ from hout.sections, Function.update_of_ne hpd]
      rfl
  have hsum : ∀ q, s'.reclaimUses q + s.lastUses q pd ≤ s.reclaimUses q := by
    intro q
    have hle : (rest.map (s'.lastUses q)).sum ≤ (rest.map (s.lastUses q)).sum :=
      List.sum_le_sum fun pd' _ => hlast q pd'
    have hoff'' : s'.offline = rest := hoff'
    rw [reclaimUses, reclaimUses, hoff, hoff'', List.map_cons, List.sum_cons]
    omega
  have hpd : ∀ q, s.lastUses q pd =
      (s.view T).leadCount pd (fun i => vpn (st.addr i)) st.rounds q := by
    intro q
    rw [lastUses, hst, ← uses_eq h]
    exact if_pos hswap
  constructor
  case ok => exact hok
  case user => exact userSections_of_flags (s := u) huser hout.sections
  case offline =>
    rw [hoff', hoff]
    exact List.subset_cons_self _ _
  case entry =>
    intro pd' hnot y
    refine hother pd' ?_ y
    rintro rfl
    exact hnot (hoff ▸ List.mem_cons_self)
  case guarded =>
    intro q hq
    have howners : s.pt.sys.held.count q ≤ s'.pt.sys.held.count q +
        (s.view T).leadCount pd (fun i => vpn (st.addr i)) st.rounds q := hout.owners q
    have := hsum q
    rw [Guarded] at hq ⊢
    rw [hpd] at this
    omega
  case mem =>
    intro q hq
    refine hout.mem q fun _ => ?_
    have := hsum q
    rw [hpd] at this
    rw [Guarded] at hq
    show (s.view T).leadCount pd (fun i => vpn (st.addr i)) st.rounds q < s.pt.sys.held.count q
    omega

theorem spared_reclaim (fuel : ℕ) {s t : Machine} (h : PtOk all T s.pt) (huser : s.UserSections)
    (hs : s.reclaim fuel = some t) : Spared all T s t := by
  induction fuel generalizing s with
  | zero => cases hs
  | succ fuel ih =>
      rw [reclaim] at hs
      split_ifs at hs
      · cases hoff : s.offline with
        | nil =>
            rw [hoff] at hs
            cases hs
        | cons pd rest =>
            rw [hoff] at hs
            simp only at hs
            split_ifs at hs with hnone
            · -- a process without sections is passed over
              have hskip : Spared all T s { s with offline := rest } := by
                refine ⟨h, huser, ?_, fun _ _ _ => rfl, ?_, fun _ _ => rfl⟩
                · rw [hoff]
                  exact List.subset_cons_self _ _
                · intro q hq
                  rw [Guarded, reclaimUses, hoff, List.map_cons, List.sum_cons] at hq
                  show (rest.map (s.lastUses q)).sum < s.pt.sys.held.count q
                  omega
              exact hskip.trans (ih hskip.ok hskip.user hs)
            · rw [Option.bind_eq_bind, Option.bind_eq_some_iff] at hs
              obtain ⟨u, hu, hs⟩ := hs
              have hspared := spared_swapout h huser hoff hu
              exact hspared.trans (ih hspared.ok hspared.user hs)
      · cases hs
        exact Spared.refl h huser

/-! ## What `swapin` does -/

theorem pageIn_eq (s : Machine) (pd va : ℕ) : s.pageIn pd va = s.onEntry (fun u slot =>
    (u.reclaim (u.offline.length + 1)).bind (fetch pd va slot)) pd va := by
  simp only [pageIn, allocPageForUser, Option.bind_eq_bind, Option.bind_assoc, Option.bind_some]
  rfl

theorem fetch_offline {slot : ℕ × ℕ} {va : ℕ} (hs : s.fetch pd va slot = some s') :
    s'.offline = s.offline := by
  simp only [fetch, Option.bind_eq_bind, Option.bind_eq_some_iff] at hs
  obtain ⟨a, ha, p, -, b, hb, hs⟩ := hs
  rw [readPageFromDisk, Option.ite_none_left_eq_some] at hb
  have hread : b.offline = a.offline := iterM_offline (fun _ _ _ => call_offline) hb.2
  exact (call_offline hs).trans (hread.trans (call_offline ha))

/-- An entry for a page that was not `q`. -/
def NewPage (s : Machine) (e : ℕ) : Prop :=
  ∃ p, GoodPage p ∧ e = (k2p p ||| pteUserData ||| pteValid) % 2 ^ 64 ∧ ∀ q, s.Guarded q → q ≠ p

/-- After `k` rounds of the first loop of `swapin`, over pages with different numbers. -/
structure Filling (all : List ℕ) (T : TableMap) (s : Machine) (pd : ℕ) (x : ℕ → ℕ) (k : ℕ)
    (t : Machine) : Prop where
  ok : PtOk all T t.pt
  user : t.UserSections
  offline : t.offline ⊆ s.offline
  other : ∀ y, (∀ i, i < k → y ≠ x i) → (t.view T).entry pd y = (s.view T).entry pd y
  empty : ∀ i, i < k → (s.view T).entry pd (x i) = 0 → (t.view T).entry pd (x i) = 0
  done : ∀ i, i < k → (s.view T).entry pd (x i) ≠ 0 → s.NewPage ((t.view T).entry pd (x i))
  guarded : ∀ q, s.Guarded q → t.Guarded q
  mem : ∀ q, s.Guarded q → (t.view T).mem q = (s.view T).mem q

theorem Filling.init (h : PtOk all T s.pt) (huser : s.UserSections) (pd : ℕ) (x : ℕ → ℕ) :
    Filling all T s pd x 0 s where
  ok := h
  user := huser
  offline := List.Subset.refl _
  other _ _ := rfl
  empty _ hi := absurd hi (Nat.not_lt_zero _)
  done _ hi := absurd hi (Nat.not_lt_zero _)
  guarded _ hq := hq
  mem _ _ := rfl

/-- What is fetched for one directory costs the pages of nobody an owner. -/
theorem guarded_of_fetches {t : Machine} (h : PtOk all T s.pt) (ht : PtOk all T t.pt) {x p q : ℕ}
    (hf : (s.view T).Fetches (t.view T) pd x p) (hoff : t.offline = s.offline)
    (hpd : pd ∉ s.offline) (hq : s.Guarded q) : t.Guarded q := by
  have hlast : ∀ pd' ∈ s.offline, t.lastUses q pd' = s.lastUses q pd' := by
    intro pd' hin
    refine lastUses_congr h ht q (congrFun hf.sections pd') fun y => ?_
    rw [hf.entry, View.store_entry, if_neg]
    rintro ⟨rfl, -⟩
    exact hpd hin
  have hheld : t.pt.sys.held = p :: s.pt.sys.held := hf.held
  rw [Guarded, reclaimUses, hoff, List.map_congr_left hlast, hheld, List.count_cons]
  rw [Guarded, reclaimUses] at hq
  omega

/-- Nothing is shown to have changed. -/
theorem spared_of_goes {u : Machine} (h : PtOk all T s.pt) (huser : s.UserSections)
    (hg : Goes all T s u (s.view T)) (hoff : u.offline = s.offline) : Spared all T s u := by
  have hsec : u.sections = s.sections := congrArg View.sections hg.view
  have hlast : ∀ q, u.lastUses q = s.lastUses q := by
    intro q
    funext pd
    exact lastUses_congr h hg.ok q (congrFun hsec pd) fun y => by rw [hg.view]
  refine ⟨hg.ok, ?_, ?_, fun _ _ _ => by rw [hg.view], ?_, fun _ _ => by rw [hg.view]⟩
  · intro pd st hst
    rw [hsec] at hst
    exact huser pd st hst
  · rw [hoff]
    exact List.Subset.refl _
  · intro q hq
    have hheld : u.pt.sys.held = s.pt.sys.held := congrArg View.held hg.view
    rwa [Guarded, reclaimUses, hoff, hlast, hheld]

namespace Filling

variable {t t' u : Machine} {n k : ℕ} {x addr : ℕ → ℕ}

/-- Another directory may change. -/
theorem spared (h : Filling all T s pd x k t) (hpd : pd ∉ s.offline) (hu : Spared all T t u) :
    Filling all T s pd x k u := by
  have hentry := hu.entry pd fun hin => hpd (h.offline hin)
  constructor
  case ok => exact hu.ok
  case user => exact hu.user
  case offline => exact List.Subset.trans hu.offline h.offline
  case other => exact fun y hy => (hentry y).trans (h.other y hy)
  case empty => exact fun i hi h0 => (hentry _).trans (h.empty i hi h0)
  case done =>
    intro i hi h0
    rw [hentry]
    exact h.done i hi h0
  case guarded => exact fun q hq => hu.guarded q (h.guarded q hq)
  case mem => exact fun q hq => (hu.mem q (h.guarded q hq)).trans (h.mem q hq)

/-- A round for an empty entry. -/
theorem skip (h : Filling all T s pd x k t) (hne : ∀ i, i < k → x k ≠ x i)
    (h0 : (t.view T).entry pd (x k) = 0) : Filling all T s pd x (k + 1) t := by
  have hentry := h.other (x k) hne
  obtain ⟨h1, h2, h3, h4, h5, h6, h7, h8⟩ := h
  refine ⟨h1, h2, h3, fun y hy => h4 y fun i hi => hy i (by omega), ?_, ?_, h7, h8⟩
  · intro i hi h0'
    rcases Nat.lt_succ_iff_lt_or_eq.mp hi with hlt | rfl
    · exact h5 i hlt h0'
    · exact h0
  · intro i hi hne'
    rcases Nat.lt_succ_iff_lt_or_eq.mp hi with hlt | rfl
    · exact h6 i hlt hne'
    · exact absurd (hentry.symm.trans h0) hne'

/-- A round that fetches a page. -/
theorem fetches {p : ℕ} (h : Filling all T s pd x k t) (hne : ∀ i, i < k → x k ≠ x i)
    (h0 : (t.view T).entry pd (x k) ≠ 0) (hpd : pd ∉ s.offline) (hok : PtOk all T t'.pt)
    (hoff : t'.offline = t.offline) (hf : (t.view T).Fetches (t'.view T) pd (x k) p) :
    Filling all T s pd x (k + 1) t' := by
  have hpd' : pd ∉ t.offline := fun hin => hpd (h.offline hin)
  have hnew : ∀ q, s.Guarded q → q ≠ p := by
    rintro q hq rfl
    have hg := h.guarded q hq
    rw [Guarded] at hg
    exact hf.page (List.count_pos_iff.mp (Nat.zero_lt_of_lt hg))
  have hstore : ∀ y, y ≠ x k → (t'.view T).entry pd y = (t.view T).entry pd y := by
    intro y hy
    rw [hf.entry, View.store_entry_of_ne hy]
  constructor
  case ok => exact hok
  case user =>
    intro pd' st hst
    rw [show t'.sections = t.sections from hf.sections] at hst
    exact h.user pd' st hst
  case offline =>
    rw [hoff]
    exact h.offline
  case other =>
    intro y hy
    rw [hstore y (hy k (by omega))]
    exact h.other y fun i hi => hy i (by omega)
  case empty =>
    intro i hi h0'
    rcases Nat.lt_succ_iff_lt_or_eq.mp hi with hlt | rfl
    · rw [hstore _ fun heq => hne i hlt heq.symm]
      exact h.empty i hlt h0'
    · exact absurd ((h.other _ hne).trans h0') h0
  case done =>
    intro i hi hne'
    rcases Nat.lt_succ_iff_lt_or_eq.mp hi with hlt | rfl
    · rw [hstore _ fun heq => hne i hlt heq.symm]
      exact h.done i hlt hne'
    · rw [hf.entry, View.store_entry_self]
      exact ⟨p, hf.good, rfl, hnew⟩
  case guarded => exact fun q hq => guarded_of_fetches h.ok hok hf hoff hpd' (h.guarded q hq)
  case mem => exact fun q hq => (hf.mem q (hnew q hq)).trans (h.mem q hq)

/-- One round. -/
theorem step (h : Filling all T s pd (fun k => vpn (addr k)) k t) (hpd : pd ∉ s.offline)
    (hinj : ∀ i j, i < n → j < n → vpn (addr i) = vpn (addr j) → i = j) (hk : k < n)
    (hs : t.pageIn pd (addr k) = some t') :
    Filling all T s pd (fun k => vpn (addr k)) (k + 1) t' := by
  have hne : ∀ i, i < k → vpn (addr k) ≠ vpn (addr i) := by
    intro i hi heq
    have := hinj k i hk (by omega) heq
    omega
  have hpd' : pd ∉ t.offline := fun hin => hpd (h.offline hin)
  rw [pageIn_eq] at hs
  by_cases h0 : (t.view T).entry pd (vpn (addr k)) = 0
  · obtain ⟨u, hu, hg⟩ := onEntry_zero h.ok h0
    have hoff : u.offline = t.offline := onEntry_offline (f := fun s _ => some s)
      (fun _ _ _ hx => by cases hx; rfl) (hu _)
    rw [hu, Option.some.injEq] at hs
    subst hs
    refine (h.spared hpd (spared_of_goes h.ok h.user hg hoff)).skip hne ?_
    rw [hg.view]
    exact h0
  · obtain ⟨l, u, hl, hu, hg, -⟩ := onEntry_ne h.ok h0
    have hoff : u.offline = t.offline := onEntry_offline (f := fun s _ => some s)
      (fun _ _ _ hx => by cases hx; rfl) (hu _)
    rw [hu, Option.bind_eq_some_iff] at hs
    obtain ⟨w, hw, hs⟩ := hs
    have hspared := spared_of_goes h.ok h.user hg hoff
    have hspared' := hspared.trans (spared_reclaim _ hspared.ok hspared.user hw)
    obtain ⟨hok, p, hf⟩ := fetch_cases hspared'.ok hl hs
    refine (h.spared hpd hspared').fetches hne ?_ hpd hok (fetch_offline hs) hf
    rw [hspared'.entry pd hpd']
    exact h0

end Filling

/-- **What `swapin` does** to the entries of the directory, and to the pages that are guarded. -/
structure SwappedIn (all : List ℕ) (T : TableMap) (s : Machine) (pd : ℕ) (st : Section)
    (s' : Machine) : Prop where
  ok : PtOk all T s'.pt
  other : ∀ y, (∀ i, i < st.rounds → y ≠ vpn (st.addr i)) →
    (s'.view T).entry pd y = (s.view T).entry pd y
  empty : ∀ i, i < st.rounds → (s.view T).entry pd (vpn (st.addr i)) = 0 →
    (s'.view T).entry pd (vpn (st.addr i)) = 0
  done : ∀ i, i < st.rounds → (s.view T).entry pd (vpn (st.addr i)) ≠ 0 →
    s.NewPage ((s'.view T).entry pd (vpn (st.addr i)))
  mem : ∀ q, s.Guarded q → (s'.view T).mem q = (s.view T).mem q

/-- A round of the second loop changes nothing: the entries are valid already. -/
theorem reveal_filled {t u u' : Machine} {n k : ℕ} {addr : ℕ → ℕ}
    (h : Filling all T s pd (fun k => vpn (addr k)) n t) (hok : PtOk all T u.pt)
    (hview : u.view T = t.view T) (hk : k < n) (hs : u.reveal pd (addr k) = some u') :
    PtOk all T u'.pt ∧ u'.view T = t.view T := by
  obtain ⟨hok', hview'⟩ := reveal_cases hok hs
  rw [hview] at hview'
  refine ⟨hok', hview'.trans ?_⟩
  split_ifs with h0
  · rfl
  · have hne : (s.view T).entry pd (vpn (addr k)) ≠ 0 := fun h0' => h0 (h.empty k hk h0')
    obtain ⟨p, hgood, hentry, -⟩ := h.done k hk hne
    rw [hentry, (userEntry_valid hgood).2.2, ← hentry, View.store_self]

theorem swapin_frame (h : PtOk all T s.pt) (huser : s.UserSections) (hpd : pd ∉ s.offline)
    (hst : (s.sections pd)[j]? = some st) (hs : s.swapin pd j = some s') :
    SwappedIn all T s pd st s' := by
  have hinj := rounds_inj (huser pd st (List.mem_of_getElem? hst))
  rw [swapin, hst] at hs
  simp only [Option.bind_eq_bind, Option.bind_some] at hs
  rw [Option.ite_none_left_eq_some, Option.bind_eq_some_iff] at hs
  obtain ⟨-, t, ht, hs⟩ := hs
  rw [forPages_eq] at ht
  obtain ⟨u, hu, hs⟩ := Option.bind_eq_some_iff.mp hs
  rw [forPages_eq] at hu
  cases hs
  have hfill : Filling all T s pd (fun k => vpn (st.addr k)) st.rounds t :=
    iterM_induction (fun k t => Filling all T s pd (fun k => vpn (st.addr k)) k t) ht
      (Filling.init h huser _ _) fun k t t' hk hP hstep => hP.step hpd hinj hk hstep
  obtain ⟨hok, hview⟩ := iterM_induction (fun _ w => PtOk all T w.pt ∧ w.view T = t.view T) hu
    ⟨hfill.ok, rfl⟩ fun k w w' hk hP hstep => reveal_filled hfill hP.1 hP.2 hk hstep
  have hset : ((u.setFlags pd j (st.flags &&& (2 ^ 64 - 1 - stSwap))).view T).entry =
      (t.view T).entry := by
    rw [← hview]
    rfl
  constructor
  case ok => exact hok
  case other =>
    rw [hset]
    exact hfill.other
  case empty =>
    rw [hset]
    exact hfill.empty
  case done =>
    rw [hset]
    exact hfill.done
  case mem =>
    intro q hq
    rw [← hfill.mem q hq, ← hview]
    rfl

end Machine

end OsLab
