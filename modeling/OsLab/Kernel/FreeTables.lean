import OsLab.Kernel.FreePgdir

/-!
# Tearing down page tables

`free_pt_r` of `kernel/pt.c` with everything it does to the pages in order: the entries it
reads and the calls of `kfree_page`.  `kfree_page` writes into the page it is given, so an
entry must be read before the page of its table is freed.

The other side is `get_pte`: the pages that a call has taken from the queue are recorded for
the directory of the call.

## Main definitions

* `PtEvent`, `FreeState.freePtREvents` — the function, with its events.
* `eventsBelow` — the events for the tables of a directory.
* `PtBuild.step` — calls that build page tables, with the pages taken for them.
* `free_pt_r_teardown` — what is freed is what was taken.
-/

namespace OsLab

/-- Entry `i` of the table at `t` is read, or `kfree_page(p)` is called. -/
inductive PtEvent
  | read (t i : ℕ)
  | free (p : ℕ)
  deriving DecidableEq, Repr

namespace PtEvent

/-- The page that is freed. -/
def freed : PtEvent → Option ℕ
  | read _ _ => none
  | free p => some p

/-- The page of the event. -/
def page : PtEvent → ℕ
  | read t _ => t
  | free p => p

/-- The second event is no read of the page that the first one frees. -/
def Before (e e' : PtEvent) : Prop := ∀ t i, e = free t → e' ≠ read t i

theorem before_of_page {e e' : PtEvent} (h : e.page ≠ e'.page) : Before e e' := by
  rintro t i rfl rfl
  exact h rfl

theorem read_before (t i : ℕ) (e : PtEvent) : Before (read t i) e := by
  intro t' i' h
  cases h

theorem before_free (e : PtEvent) (p : ℕ) : Before e (free p) := by
  intro t i _ h
  cases h

end PtEvent

/-- `free_pt_r(pt, num)` with its events, where `k` is `3 - num`, as `freePtR` -/
def FreeState.freePtREvents : ℕ → ℕ → FreeState → FreeState × List PtEvent
  | 0, pt, st =>
      if pt ≠ 0 then (st.kfreePage (p2k (pteAddress pt)), [.free (p2k (pteAddress pt))])
      else (st, [])
  | k + 1, pt, st =>
      if pt ≠ 0 then
        let ptin := if k + 1 = 3 then pt else p2k (pteAddress pt)
        let r := (List.range 512).foldl (fun r i =>
          let r' := freePtREvents k (r.1.mem.pte ptin i) r.1
          (r'.1, r.2 ++ .read ptin i :: r'.2)) (st, [])
        (r.1.kfreePage (p2k (pteAddress pt)), r.2 ++ [.free (p2k (pteAddress pt))])
      else (st, [])

/-! ## The events of a teardown -/

/-- What is done to the tables at and below the one of level `3 - k` with the address bits `x`. -/
def eventsBelow (T : TableMap) (pd : ℕ) : ℕ → ℕ → List PtEvent
  | 0, x => (T pd 3 x).toList.map .free
  | k + 1, x =>
      match T pd (3 - (k + 1)) x with
      | none => []
      | some t =>
          (List.range 512).flatMap (fun i => .read t i :: eventsBelow T pd k (x * 512 + i)) ++
            [.free t]

section Events

variable {T : TableMap} {root : ℕ → ℕ} {m : PageMem} {st : FreeState} {pd k x t i : ℕ}
  {e : PtEvent}

/-- Without the reads these are the tables in the order they are freed. -/
theorem eventsBelow_freed : (eventsBelow T pd k x).filterMap PtEvent.freed = below T pd k x := by
  induction k generalizing x with
  | zero =>
      rw [eventsBelow, below]
      cases T pd 3 x with
      | none => rfl
      | some t => rfl
  | succ k ih =>
      rw [eventsBelow, below]
      cases T pd (3 - (k + 1)) x with
      | none => rfl
      | some t =>
          have hentry : ∀ i, (PtEvent.read t i :: eventsBelow T pd k (x * 512 + i)).filterMap
              PtEvent.freed = below T pd k (x * 512 + i) := by
            intro i
            rw [List.filterMap_cons, ih]
            rfl
          rw [List.filterMap_append, List.filterMap_flatMap]
          simp only [hentry, List.filterMap_cons, List.filterMap_nil, PtEvent.freed]

/-- Only tables are concerned. -/
theorem page_mem_below (h : e ∈ eventsBelow T pd k x) : e.page ∈ below T pd k x := by
  induction k generalizing x with
  | zero =>
      rw [eventsBelow] at h
      rw [below]
      obtain ⟨t, ht, rfl⟩ := List.mem_map.mp h
      exact ht
  | succ k ih =>
      rw [eventsBelow] at h
      rw [below]
      cases hT : T pd (3 - (k + 1)) x with
      | none =>
          rw [hT] at h
          cases h
      | some t =>
          simp only [hT, List.mem_append, List.mem_flatMap, List.mem_cons, List.not_mem_nil,
            or_false] at h ⊢
          rcases h with ⟨i, hi, rfl | h⟩ | rfl
          · exact Or.inr rfl
          · exact Or.inl ⟨i, hi, ih h⟩
          · exact Or.inr rfl

/-- **No table is read after it has been freed.** -/
theorem eventsBelow_before (h : Tables T root m) (hk : k ≤ 3) :
    (eventsBelow T pd k x).Pairwise PtEvent.Before := by
  induction k generalizing x with
  | zero =>
      rw [eventsBelow]
      cases T pd 3 x with
      | none => exact List.Pairwise.nil
      | some t => exact List.pairwise_singleton _ _
  | succ k ih =>
      rw [eventsBelow]
      cases hT : T pd (3 - (k + 1)) x with
      | none => exact List.Pairwise.nil
      | some t =>
          refine List.pairwise_append.mpr ⟨?_, List.pairwise_singleton _ _, ?_⟩
          · -- one entry after the other
            refine List.pairwise_flatMap.mpr ⟨?_, ?_⟩
            · intro i _
              exact List.pairwise_cons.mpr ⟨fun e _ => PtEvent.read_before t i e, ih (by omega)⟩
            · refine List.nodup_range.pairwise_of_forall_ne ?_
              intro i _ j _ hne e he e' he'
              rcases List.mem_cons.mp he with rfl | he
              · exact PtEvent.read_before t i e'
              · apply PtEvent.before_of_page
                have hpage := page_mem_below he
                rcases List.mem_cons.mp he' with rfl | he'
                · intro heq
                  exact notMem_below h (by omega) hT (heq ▸ hpage)
                · intro heq
                  exact below_disjoint h (by omega) hne hpage (heq ▸ page_mem_below he')
          · intro e _ e' he'
            rw [List.mem_singleton.mp he']
            exact PtEvent.before_free e t

/-- **`free_pt_r` is these events.** -/
theorem FreeState.freePtREvents_eq (h : Tables T root m) (hk : k ≤ 3)
    (hmem : ∀ q ∈ below T pd k x, st.mem.mem q = m.mem q) :
    freePtREvents k (tablePtr k (T pd (3 - k) x)) st =
      (st.freeAll (below T pd k x), eventsBelow T pd k x) := by
  induction k generalizing x st with
  | zero =>
      rw [freePtREvents, below, eventsBelow]
      cases hT : T pd (3 - 0) x with
      | none =>
          rw [tablePtr_none, if_neg (by simp)]
          rfl
      | some t =>
          obtain ⟨hne, haddr⟩ := tablePtr_some (k := 0) (h.good _ _ _ _ hT)
          rw [if_pos hne, haddr]
          rfl
  | succ k ih =>
      rw [freePtREvents, eventsBelow]
      cases hT : T pd (3 - (k + 1)) x with
      | none =>
          rw [tablePtr_none, if_neg (by simp), below, hT]
          rfl
      | some t =>
          obtain ⟨hne, haddr⟩ := tablePtr_some (k := k + 1) (h.good _ _ _ _ hT)
          have hloop : ∀ n, n ≤ 512 →
              (List.range n).foldl (fun r i =>
                ((freePtREvents k (r.1.mem.pte t i) r.1).1,
                  r.2 ++ .read t i :: (freePtREvents k (r.1.mem.pte t i) r.1).2)) (st, []) =
                (st.freeAll (belowTo T pd k x n), (List.range n).flatMap fun i =>
                  .read t i :: eventsBelow T pd k (x * 512 + i)) := by
            intro n hn
            induction n with
            | zero => rfl
            | succ n ihn =>
                have hentry := pte_freeAll h (by omega) hT hn hmem
                have hnext := ih (by omega) (mem_freeAll h (by omega) hT hn hmem)
                rw [List.range_succ, List.foldl_append, ihn (by omega), List.foldl_cons,
                  List.foldl_nil, belowTo_succ, freeAll_append, List.flatMap_append,
                  List.flatMap_singleton]
                simp only [hentry, hnext]
          rw [if_pos hne]
          simp only [haddr, ptin_eq]
          rw [hloop 512 le_rfl, below_succ hT, freeAll_append, freeAll_singleton]

/-- Without the events it is `freePtR`. -/
theorem FreeState.freePtREvents_fst (k pt : ℕ) (st : FreeState) :
    (freePtREvents k pt st).1 = freePtR k pt st := by
  induction k generalizing pt st with
  | zero =>
      rw [freePtREvents, freePtR]
      split
      · rfl
      · rfl
  | succ k ih =>
      have hloop : ∀ (l : List ℕ) (r : FreeState × List PtEvent) (ptin : ℕ),
          (l.foldl (fun r i =>
            ((freePtREvents k (r.1.mem.pte ptin i) r.1).1,
              r.2 ++ .read ptin i :: (freePtREvents k (r.1.mem.pte ptin i) r.1).2)) r).1 =
            l.foldl (fun st i => freePtR k (st.mem.pte ptin i) st) r.1 := by
        intro l
        induction l with
        | nil => exact fun _ _ => rfl
        | cons i l ihl =>
            intro r ptin
            rw [List.foldl_cons, List.foldl_cons, ihl, ih]
      rw [freePtREvents, freePtR]
      split
      · simp only [hloop]
      · simp only

/-- Every table of a directory is below its root. -/
theorem below_of_table (h : Tables T root m) (ht : T pd k x = some t) : t ∈ below T pd 3 0 := by
  have hlevel : k ≤ 3 := by
    cases k with
    | zero => omega
    | succ k => exact (h.parent pd k x (by simp [ht])).1
  have hself : t ∈ below T pd (3 - k) x := by
    cases hk : 3 - k with
    | zero =>
        obtain rfl : k = 3 := by omega
        simp [below, ht]
    | succ j =>
        rw [below, show 3 - (j + 1) = k by omega, ht]
        simp
  -- up to the root, level by level
  have hup : ∀ (k x : ℕ), k ≤ 3 → T pd k x ≠ none → t ∈ below T pd (3 - k) x →
      t ∈ below T pd 3 0 := by
    intro k
    induction k with
    | zero =>
        intro x _ hne hmem
        rw [h.top pd x hne] at hmem
        exact hmem
    | succ k ih =>
        intro x hk hne hmem
        obtain ⟨-, hpar⟩ := h.parent pd k x hne
        obtain ⟨u, hu⟩ := Option.ne_none_iff_exists'.mp hpar
        apply ih (x / 512) (by omega) hpar
        rw [show 3 - k = 3 - (k + 1) + 1 by omega,
          FreeState.below_succ (t := u) (by rw [show 3 - (3 - (k + 1) + 1) = k by omega, hu])]
        refine List.mem_append_left _ (FreeState.mem_belowTo.mpr ⟨x % 512, by omega, ?_⟩)
        rw [show x / 512 * 512 + x % 512 = x by omega]
        exact hmem
  exact hup k x hlevel (by simp [ht]) hself

theorem mem_below_root (h : Tables T root m) : t ∈ below T pd 3 0 ↔ ∃ k x, T pd k x = some t := by
  constructor
  · intro ht
    obtain ⟨j, y, -, hy, -⟩ := mem_below ht
    exact ⟨3 - j, y, hy⟩
  · rintro ⟨k, x, ht⟩
    exact below_of_table h ht

end Events

/-! ## The pages that are taken -/

/-- The pages that have left the queue from one state to the next. -/
def PtSys.taken (s s' : PtSys) : List ℕ :=
  s.sys.m.pages.take (s.sys.m.pages.length - s'.sys.m.pages.length)

/-- The page directories, and the pages that `get_pte` has taken for the tables of each.  Nothing
reads the second field. -/
structure PtBuild where
  pt : PtSys
  made : ℕ → List ℕ

namespace PtBuild

def step (b : PtBuild) (c : PtCall) : Option PtBuild := do
  let s ← b.pt.step c
  some ⟨s, match c.dir with
    | some pd => Function.update b.made pd (b.pt.taken s ++ b.made pd)
    | none => b.made⟩

def start (m : PageMem) : PtBuild := ⟨PtSys.start m, fun _ => []⟩

/-- The pages taken for a directory are its tables. -/
structure Made (all : List ℕ) (T : TableMap) (b : PtBuild) : Prop where
  ok : PtOk all T b.pt
  mem : ∀ pd t, t ∈ b.made pd ↔ ∃ k x, T pd k x = some t
  nodup : ∀ pd, (b.made pd).Nodup

namespace Made

variable {all l : List ℕ} {T T' : TableMap} {b b' : PtBuild} {s : PtSys} {c : PtCall} {pd t : ℕ}

theorem init {m : PageMem} (hm : Booted m) : Made m.pages (fun _ _ _ => none) (start m) where
  ok := PtOk.init hm
  mem := by simp [start]
  nodup := by simp [start]

theorem taken_eq (hl : b.pt.sys.m.pages = l ++ s.sys.m.pages) : b.pt.taken s = l := by
  rw [PtSys.taken, hl, List.length_append, Nat.add_sub_cancel, List.take_left]

/-- Pages are taken for tables of one directory. -/
theorem grow (h : Made all T b) (hok : PtOk all T' s)
    (g : Growth pd T T' b.pt.sys.m s.sys.m) :
    Made all T' ⟨s, Function.update b.made pd (b.pt.taken s ++ b.made pd)⟩ := by
  obtain ⟨l, hl⟩ := g.taken
  have hnd := h.ok.acct.nodup
  rw [hl, List.nodup_append] at hnd
  rw [taken_eq hl]
  have hin : ∀ t, t ∈ l ↔ t ∈ b.pt.sys.m.pages ∧ t ∉ s.sys.m.pages := by
    intro t
    rw [hl, List.mem_append]
    constructor
    · exact fun ht => ⟨Or.inl ht, fun ht' => hnd.2.2 t ht t ht' rfl⟩
    · rintro ⟨ht | ht, hnot⟩
      · exact ht
      · exact absurd ht hnot
  refine ⟨hok, ?_, ?_⟩
  · intro pd' t
    show t ∈ Function.update b.made pd (l ++ b.made pd) pd' ↔ _
    by_cases hpd : pd' = pd
    · subst hpd
      rw [Function.update_self, List.mem_append, h.mem]
      constructor
      · rintro (ht | ⟨k, x, ht⟩)
        · obtain ⟨hmem, hnot⟩ := (hin t).mp ht
          exact g.made t hmem hnot
        · exact ⟨k, x, g.le _ _ _ _ ht⟩
      · rintro ⟨k, x, ht⟩
        rcases g.new _ _ _ _ ht with hold | ⟨-, hmem⟩
        · exact Or.inr ⟨k, x, hold⟩
        · exact Or.inl ((hin t).mpr ⟨hmem, hok.tables.used _ _ _ _ ht⟩)
    · rw [Function.update_of_ne hpd, h.mem]
      constructor
      · rintro ⟨k, x, ht⟩
        exact ⟨k, x, g.le _ _ _ _ ht⟩
      · rintro ⟨k, x, ht⟩
        rcases g.new _ _ _ _ ht with hold | ⟨heq, -⟩
        · exact ⟨k, x, hold⟩
        · exact absurd heq hpd
  · intro pd'
    show (Function.update b.made pd (l ++ b.made pd) pd').Nodup
    by_cases hpd : pd' = pd
    · subst hpd
      rw [Function.update_self]
      refine List.nodup_append.mpr ⟨hnd.1, h.nodup pd', ?_⟩
      rintro t ht u hu rfl
      obtain ⟨k, x, hT⟩ := (h.mem pd' t).mp hu
      exact h.ok.tables.used _ _ _ _ hT ((hin t).mp ht).1
    · rw [Function.update_of_ne hpd]
      exact h.nodup pd'

theorem step (h : Made all T b) (hs : b.step c = some b') : ∃ T', Made all T' b' := by
  rw [PtBuild.step, Option.bind_eq_bind, Option.bind_eq_some_iff] at hs
  obtain ⟨s, hs, heq⟩ := hs
  obtain ⟨T', hok, -, -, -, hdir, hnone⟩ := h.ok.step_growth hs
  rw [← Option.some.inj heq]
  cases hc : c.dir with
  | some pd => exact ⟨T', h.grow hok (hdir pd hc)⟩
  | none =>
      have hT := hnone hc
      subst hT
      exact ⟨T', hok, h.mem, h.nodup⟩

theorem of_reach {m : PageMem} (hm : Booted m)
    (h : Reach PtBuild.step (fun _ _ => True) (start m) b) : ∃ T, Made m.pages T b := by
  apply h.invariant ⟨_, init hm⟩
  rintro b c b' ⟨T, hT⟩ - hs
  exact hT.step hs

/-- The tables below the root are what was taken. -/
theorem perm (h : Made all T b) (pd : ℕ) : (below T pd 3 0).Perm (b.made pd) := by
  rw [List.perm_ext_iff_of_nodup (below_nodup h.ok.tables le_rfl) (h.nodup pd)]
  intro t
  rw [mem_below_root h.ok.tables, h.mem]

end Made

end PtBuild

/-- **Page-table teardown**: what `get_pte` has taken for a directory is freed, each page once, and
no table is read after it was freed. -/
theorem free_pt_r_teardown {m : PageMem} (hm : Booted m) {b : PtBuild}
    (h : Reach PtBuild.step (fun _ _ => True) (PtBuild.start m) b) (pd : ℕ) {st : FreeState}
    (hst : st.vm.pt = b.pt) :
    ∃ events,
      st.freePtREvents 3 (b.pt.root pd) = (st.freePtR 3 (b.pt.root pd), events) ∧
        (events.filterMap PtEvent.freed).Perm (b.made pd) ∧ (b.made pd).Nodup ∧
        (∀ e ∈ events, e.page ∈ b.made pd) ∧ events.Pairwise PtEvent.Before := by
  obtain ⟨T, hT⟩ := PtBuild.Made.of_reach hm h
  have htab := hT.ok.tables
  have hroot : b.pt.root pd = FreeState.tablePtr 3 (T pd (3 - 3) 0) := by
    rw [htab.root pd, FreeState.tablePtr, if_pos rfl]
  have heq : st.freePtREvents 3 (FreeState.tablePtr 3 (T pd (3 - 3) 0)) =
      (st.freeAll (below T pd 3 0), eventsBelow T pd 3 0) :=
    FreeState.freePtREvents_eq htab (le_refl 3) fun q _ => by rw [FreeState.mem, hst]
  rw [← hroot] at heq
  refine ⟨eventsBelow T pd 3 0, ?_, ?_, hT.nodup pd, ?_, eventsBelow_before htab le_rfl⟩
  · rw [← FreeState.freePtREvents_fst, heq]
  · rw [eventsBelow_freed]
    exact hT.perm pd
  · intro e he
    exact (hT.perm pd).subset (page_mem_below he)

/-- One address has been mapped, and its entry describes a page that was handed out before. -/
theorem free_pt_r_teardown_one : ∃ (b : PtBuild) (st : FreeState) (events : List PtEvent),
    b.pt.last 1 5 = k2p kspaceMask + pteValid ∧
      b.made 1 = [1, 2, 3, 4].map (fun i => kspaceMask + 4096 * i) ∧
      st.freePtREvents 3 (b.pt.root 1) = (st.freePtR 3 (b.pt.root 1), events) ∧
      (events.filterMap PtEvent.freed).Perm (b.made 1) := by
  have hrun : (runs PtBuild.step (PtBuild.start sixPages) [.page .kallocPage, .getPte 1 0x5123 true,
      .write (kspaceMask + 4096 * 4, 5) (k2p kspaceMask + pteValid)]).map
      (fun b => (b.pt.last 1 5, b.made 1)) =
      some (k2p kspaceMask + pteValid, [1, 2, 3, 4].map fun i => kspaceMask + 4096 * i) := by
    decide +kernel
  obtain ⟨b, hb, hobs⟩ := Option.map_eq_some_iff.mp hrun
  rw [Prod.mk.injEq] at hobs
  let st : FreeState := ⟨⟨0, b.pt, 0, fun _ => [], fun _ => true, fun _ => false,
    fun _ => .zero, []⟩, [], true⟩
  obtain ⟨events, hevents, hperm, -⟩ :=
    free_pt_r_teardown booted_sixPages (Reach.init.of_runs _ hb) 1 (show st.vm.pt = b.pt from rfl)
  exact ⟨b, st, events, hobs.1, hobs.2, hevents, hperm⟩

end OsLab
