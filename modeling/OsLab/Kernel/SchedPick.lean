import OsLab.Kernel.SchedCharge
import Mathlib.Algebra.Order.Ring.Int

/-!
# Picking the next process

`pick_next` goes down from the root container, each time to the first node that is not
skipped, and marks a container with `skip` when it has found nothing there.  A mark says that
there is no process below, and the containers from the root to the one where the search is
have none; each round marks a container or goes down, so that the search ends.

## Main definitions

* `Under L t g n` — the node lies in the queue of `g`, or of a container below.
* `ComesFirst`, `WayDown` — the first node of a queue that leads to a process, and the process at
  the end of the way down.
* `Spine L t s g` — the way from the root to the container `g` where the search is.
* `pickNext_spec` — what `pick_next` returns, and what it does to the queues.
-/

namespace OsLab

open RbTree

section Below

variable (L : SchedLayout) (t : ℕ → RbTree ℕ) (cmp : ℕ → ℕ → Bool)

/-- The node lies in the queue of `g`, or of a container below. -/
inductive Under : ℕ → ℕ → Prop
  | here {g n : ℕ} : n ∈ (t g).toList → Under g n
  | deeper {g c n : ℕ} : c ∈ (t g).toList → L.group c = true → Under c n → Under g n

/-- There is a process in the queue of `g`, or of a container below. -/
def HasProc (g : ℕ) : Prop := ∃ p, Under L t g p ∧ L.group p = false

/-- A process, or a container with a process below -/
def Eligible (n : ℕ) : Prop := L.group n = false ∨ HasProc L t n

/-- The first node in the queue of `g` that leads to a process -/
structure ComesFirst (g n : ℕ) : Prop where
  mem : n ∈ (t g).toList
  eligible : Eligible L t n
  least : ∀ m ∈ (t g).toList, m ≠ n → Eligible L t m → cmp n m = true

/-- **The process at the end of the way down**, with the least child at each level -/
inductive WayDown : ℕ → ℕ → Prop
  | proc {g p : ℕ} : ComesFirst L t cmp g p → L.group p = false → WayDown g p
  | group {g c p : ℕ} : ComesFirst L t cmp g c → L.group c = true → WayDown c p → WayDown g p

end Below

variable {L : SchedLayout} {t : ℕ → RbTree ℕ} {cmp : ℕ → ℕ → Bool} {s : Sched} {Q : Set ℕ}
  {g n c p : ℕ}

theorem hasProc_iff : HasProc L t g ↔ ∃ n ∈ (t g).toList, Eligible L t n := by
  constructor
  · rintro ⟨p, hunder, hp⟩
    cases hunder with
    | here hmem => exact ⟨p, hmem, .inl hp⟩
    | deeper hmem hc hunder => exact ⟨_, hmem, .inr ⟨p, hunder, hp⟩⟩
  · rintro ⟨n, hn, helig⟩
    cases hg : L.group n with
    | false => exact ⟨n, .here hn, hg⟩
    | true =>
        rcases helig with hp | ⟨p, hunder, hp⟩
        · rw [hg] at hp
          cases hp
        · exact ⟨p, .deeper hn hg hunder, hp⟩

theorem WayDown.hasProc (h : WayDown L t cmp g p) : HasProc L t g := by
  cases h with
  | proc hl hp => exact ⟨p, .here hl.mem, hp⟩
  | group hl hc hfound => exact hasProc_iff.mpr ⟨_, hl.mem, hl.eligible⟩

/-- The process lies below. -/
theorem WayDown.under (h : WayDown L t cmp g p) : Under L t g p ∧ L.group p = false := by
  induction h with
  | proc hl hp => exact ⟨.here hl.mem, hp⟩
  | group hl hc _ ih => exact ⟨.deeper hl.mem hc ih.1, ih.2⟩

/-! ## Marks -/

/-- A skipped container lies below the root, and has no process below. -/
structure Marks (L : SchedLayout) (t : ℕ → RbTree ℕ) (s : Sched) : Prop where
  under : ∀ n, s.skip n = true → Under L t L.rootContainer n
  group : ∀ n, s.skip n = true → L.group n = true
  none : ∀ n, s.skip n = true → ¬HasProc L t n

theorem Marks.setSkip (h : Marks L t s) (hu : Under L t L.rootContainer n)
    (hg : L.group n = true) (hno : ¬HasProc L t n) : Marks L t (s.setSkip n true) := by
  have hcase : ∀ m, (s.setSkip n true).skip m = true → m = n ∨ s.skip m = true := by
    intro m hm
    by_cases hmn : m = n
    · exact .inl hmn
    · rw [Sched.setSkip_skip_of_ne hmn] at hm
      exact .inr hm
  constructor
  · intro m hm
    rcases hcase m hm with rfl | hm
    · exact hu
    · exact h.under m hm
  · intro m hm
    rcases hcase m hm with rfl | hm
    · exact hg
    · exact h.group m hm
  · intro m hm
    rcases hcase m hm with rfl | hm
    · exact hno
    · exact h.none m hm

/-- Nothing skipped leads to a process. -/
theorem Marks.not_eligible (h : Marks L t s) (hn : s.skipped L n = true) : ¬Eligible L t n := by
  simp only [Sched.skipped, Bool.and_eq_true] at hn
  rintro (hp | hp)
  · rw [hn.1] at hp
    cases hp
  · exact h.none n hn.2 hp

/-- What `_rb_first_ex_p` finds comes first of what leads to a process. -/
theorem Marks.comesFirst (h : Marks L t s) (hsort : (t g).toList.Pairwise fun a b => cmp a b = true)
    (hfind : (t g).toList.find? (fun n => !s.skipped L n) = some n) (helig : Eligible L t n) :
    ComesFirst L t cmp g n := by
  obtain ⟨-, l, r, hlist, hbefore⟩ := List.find?_eq_some_iff_append.mp hfind
  refine ⟨by simp [hlist], helig, fun m hm hne hme => ?_⟩
  rw [hlist, List.mem_append, List.mem_cons] at hm
  rw [hlist, List.pairwise_append, List.pairwise_cons] at hsort
  rcases hm with hm | rfl | hm
  · have hskip : s.skipped L m = true := by simpa using hbefore m hm
    exact absurd hme (h.not_eligible hskip)
  · exact absurd rfl hne
  · exact hsort.2.1.1 m hm

/-- If all of a queue is skipped, there is no process. -/
theorem Marks.none_of_find (h : Marks L t s)
    (hfind : (t g).toList.find? (fun n => !s.skipped L n) = Option.none) : ¬HasProc L t g := by
  rw [hasProc_iff]
  rintro ⟨n, hn, helig⟩
  have hskip : s.skipped L n = true := by simpa using List.find?_eq_none.mp hfind n hn
  exact h.not_eligible hskip helig

/-! ## The way to the place of the search -/

/-- **The way from the root to `g`**: each container is queued in the one above and not
skipped, and what is found in it is what is found from the root. -/
inductive Spine (L : SchedLayout) (t : ℕ → RbTree ℕ) (s : Sched) : ℕ → Prop
  | root : Spine L t s L.rootContainer
  | step {c : ℕ} : c ∈ L.containers → c ≠ L.rootContainer → c ∈ (t (L.parent c)).toList →
      s.skip c = false →
      (∀ p, WayDown L t (schedCmp s.vruntime) c p →
        WayDown L t (schedCmp s.vruntime) L.rootContainer p) →
      Spine L t s (L.parent c) → Spine L t s c

namespace Spine

theorem found (h : Spine L t s g) (hp : WayDown L t (schedCmp s.vruntime) g p) :
    WayDown L t (schedCmp s.vruntime) L.rootContainer p := by
  cases h with
  | root => exact hp
  | step _ _ _ _ hfound => exact hfound p hp

/-- What lies below `g` lies below the root. -/
theorem under (h : Spine L t s g) (hn : Under L t g n) : Under L t L.rootContainer n := by
  induction h with
  | root => exact hn
  | step hc hne hmem _ _ _ ih => exact ih (.deeper hmem (L.container_group _ hc) hn)

/-- A mark on a container that is nested deeper -/
theorem setSkip (h : Spine L t s g) (hd : L.depth g < L.depth n) :
    Spine L t (s.setSkip n true) g := by
  induction h with
  | root => exact .root
  | @step c hc hne hmem hskip hfound _ ih =>
      have hlt := L.depth_parent c hc hne
      refine .step hc hne hmem ?_ hfound (ih (hlt.trans hd))
      rw [Sched.setSkip_skip_of_ne]
      · exact hskip
      · rintro rfl
        exact absurd hd (lt_irrefl _)

end Spine

/-! ## The rounds -/

/-- The containers that are not skipped -/
def unskipped (L : SchedLayout) (s : Sched) : Finset ℕ :=
  L.containers.toFinset.filter fun c => s.skip c = false

/-- Each round of `pick_next_r` marks a container or goes down. -/
def rounds (L : SchedLayout) (s : Sched) (g : ℕ) : ℕ :=
  (unskipped L s).card * (L.height + 2) + (L.height - L.depth g)

theorem rounds_setSkip (hc : c ∈ L.containers) (hskip : s.skip c = false) :
    rounds L (s.setSkip c true) n < rounds L s g := by
  have hmem : c ∈ unskipped L s := by simp [unskipped, hc, hskip]
  have hsub : unskipped L (s.setSkip c true) ⊆ (unskipped L s).erase c := by
    intro m hm
    simp only [unskipped, Finset.mem_filter, List.mem_toFinset, Finset.mem_erase] at hm ⊢
    have hne : m ≠ c := by
      rintro rfl
      simp at hm
    rw [Sched.setSkip_skip_of_ne hne] at hm
    exact ⟨hne, hm⟩
  have hcard := (Finset.card_le_card hsub).trans_lt (Finset.card_erase_lt_of_mem hmem)
  have hmul : ((unskipped L (s.setSkip c true)).card + 1) * (L.height + 2) ≤
      (unskipped L s).card * (L.height + 2) := Nat.mul_le_mul_right _ hcard
  rw [Nat.add_mul] at hmul
  simp only [rounds]
  omega

theorem rounds_deeper (hc : c ∈ L.containers) (hd : L.depth g < L.depth c) :
    rounds L s c < rounds L s g := by
  have := L.depth_le c hc
  simp only [rounds]
  omega

theorem rounds_lt_pickFuel (L : SchedLayout) (s : Sched) (g : ℕ) :
    rounds L s g < Sched.pickFuel L := by
  have hcard : (unskipped L s).card ≤ L.containers.length :=
    (Finset.card_filter_le _ _).trans (List.toFinset_card_le _)
  have hmul := Nat.mul_le_mul_right (L.height + 2) hcard
  simp only [rounds, Sched.pickFuel, Nat.add_mul]
  omega

/-! ## The search -/

/-- The process `p` is out of its queue, and counted out. -/
structure Removed (L : SchedLayout) (s : Sched) (Q : Set ℕ) (t : ℕ → RbTree ℕ) (p : ℕ)
    (s' : Sched) (u : RbTree ℕ) : Prop where
  eq : s' = { s with rq := s'.rq, nodeCnt := s'.nodeCnt, skip := s'.skip }
  planted : Planted L.home (schedCmp s.vruntime) s'.rq (Q \ {p})
    (Function.update t (L.container p) u)
  list : u.toList = (t (L.container p)).toList.erase p
  count : s'.nodeCnt = Function.update s.nodeCnt (L.container p) (s.nodeCnt (L.container p) - 1)

/-- **What `pick_next_r` comes to.** -/
inductive Picked (L : SchedLayout) (cpu : ℕ) (s : Sched) (Q : Set ℕ) (t : ℕ → RbTree ℕ) :
    ℕ → Sched → Prop
  | proc {p : ℕ} {s' : Sched} (u : RbTree ℕ) :
      WayDown L t (schedCmp s.vruntime) L.rootContainer p → Removed L s Q t p s' u → Picked L cpu s Q t p s'
  | idle {s' : Sched} : ¬HasProc L t L.rootContainer → s' = { s with skip := s'.skip } →
      Picked L cpu s Q t (L.idleOf cpu) s'

theorem Picked.of_setSkip {cpu : ℕ} {s' : Sched} {b : Bool}
    (h : Picked L cpu (s.setSkip n b) Q t p s') : Picked L cpu s Q t p s' := by
  cases h with
  | proc u hfound hrem => exact .proc u hfound ⟨hrem.eq, hrem.planted, hrem.list, hrem.count⟩
  | idle hno heq => exact .idle hno heq

/-- The end of the search: the process that was found is taken out. -/
theorem dequeue_proc (h : Queued L s Q t) (hp : p ∈ L.procs) (hmem : p ∈ (t (L.container p)).toList) :
    ∃ s₁ u, s.dequeue p (L.container p) = some s₁ ∧
      0 ≤ (s₁.addCnt (L.container p) (-1)).nodeCnt (L.container p) ∧ s₁.skip = s.skip ∧
      Removed L s Q t p (s₁.addCnt (L.container p) (-1)) u := by
  have hhome := SchedLayout.home_proc hp
  have hQ := (h.mem_home hmem).1
  obtain ⟨F, u, hexec, hplanted, hlist⟩ := Sched.dequeue_spec h.planted hQ (fun _ _ => rfl)
    (h.lt_fuel (L.home p))
  rw [hhome] at hexec hplanted hlist
  have hpos := List.length_pos_of_mem hmem
  refine ⟨_, u, hexec, ?_, rfl, rfl, hplanted, hlist, ?_⟩
  · rw [Sched.addCnt_nodeCnt, h.count]
    omega
  · rw [Sched.addCnt]
    rfl

theorem pickNextR_spec (cpu : ℕ) {fuel : ℕ} (h : Queued L s Q t) (hpanic : s.panicFlag = false)
    (hm : Marks L t s) (hsp : Spine L t s g) (hcnt : g ≠ L.rootContainer → s.nodeCnt g ≠ 0)
    (hfuel : rounds L s g < fuel) :
    ∃ next s', Sched.pickNextR L cpu fuel g s = some (next, s') ∧ Picked L cpu s Q t next s' ∧
      Marks L t s' := by
  induction fuel generalizing s g with
  | zero => cases hfuel
  | succ fuel ih =>
      have hfirst := Sched.rbFirstExP_spec (L := L) (h.planted.holds g).2 (h.lt_fuel g)
      have hroot : s.rq.root g = (t g).ptr := (h.planted.holds g).1
      rw [Sched.pickNextR, hpanic, if_neg (by simp), hroot, hfirst, Option.bind_eq_bind,
        Option.bind_some]
      cases hfind : (t g).toList.find? fun n => !s.skipped L n with
      | none =>
          have hno := hm.none_of_find hfind
          by_cases hg : g = L.rootContainer
          · subst hg
            refine ⟨_, s, ?_, .idle hno rfl, hm⟩
            simp
          · -- nothing here: the container is skipped, and the search goes on above
            rw [Option.getD_none, if_pos ⟨hg, hcnt hg, rfl⟩]
            cases hsp with
            | root => exact absurd rfl hg
            | step hc hne hmem hskip hfound hup =>
                have hm' := hm.setSkip (hup.under (.here hmem)) (L.container_group g hc) hno
                have hup' := hup.setSkip (L.depth_parent g hc hne)
                have hcnt' : L.parent g ≠ L.rootContainer →
                    (s.setSkip g true).nodeCnt (L.parent g) ≠ 0 := by
                  intro _
                  rw [Sched.setSkip_nodeCnt, h.count]
                  have := List.length_pos_of_mem hmem
                  omega
                obtain ⟨next, s', hexec, hpicked, hmarks⟩ := ih (s := s.setSkip g true)
                  (h.congr rfl rfl rfl) hpanic hm' hup' hcnt'
                  (by have := rounds_setSkip (n := L.parent g) (g := g) hc hskip; omega)
                exact ⟨next, s', hexec, hpicked.of_setSkip, hmarks⟩
      | some n =>
          have hn := List.mem_of_find?_eq_some hfind
          have hnskip : s.skipped L n = false := by simpa using List.find?_some hfind
          obtain ⟨hQ, hhome⟩ := h.mem_home hn
          have hmember := h.member n hQ
          rw [Option.getD_some, if_neg (fun hall => hmember.isNode.ne hall.2.2),
            if_neg hmember.isNode.ne]
          cases hgroup : L.group n with
          | false =>
              have hp := hmember.proc hgroup
              have hl := hm.comesFirst (h.planted.sorted g) hfind (.inl hgroup)
              rw [SchedLayout.home_proc hp] at hhome
              subst hhome
              obtain ⟨s₁, u, hexec, hpos, hskip, hrem⟩ := dequeue_proc h hp hn
              refine ⟨n, _, ?_, .proc u (hsp.found (.proc hl hgroup)) hrem, ?_⟩
              · rw [if_pos (by simp), hexec, Option.bind_eq_bind, Option.bind_some, if_pos hpos]
              · exact ⟨fun m hs => hm.under m (hskip ▸ hs), fun m hs => hm.group m (hskip ▸ hs),
                  fun m hs => hm.none m (hskip ▸ hs)⟩
          | true =>
              obtain ⟨hc, hne⟩ := hmember.container hgroup
              rw [SchedLayout.home_container hc] at hhome
              subst hhome
              have hskip : s.skip n = false := by simpa [Sched.skipped, hgroup] using hnskip
              have hdepth := L.depth_parent n hc hne
              rw [if_neg (by simp)]
              by_cases hzero : s.nodeCnt n = 0
              · -- an empty container is skipped, and the search goes on here
                have hempty : (t n).toList = [] := by
                  have := h.count n
                  rw [hzero] at this
                  exact List.eq_nil_of_length_eq_zero (by omega)
                have hno : ¬HasProc L t n := by
                  rw [hasProc_iff, hempty]
                  simp
                rw [if_pos hzero]
                obtain ⟨next, s', hexec, hpicked, hmarks⟩ := ih (s := s.setSkip n true)
                  (h.congr rfl rfl rfl) hpanic (hm.setSkip (hsp.under (.here hn)) hgroup hno)
                  (hsp.setSkip hdepth) hcnt
                  (by have := rounds_setSkip (n := L.parent n) (g := L.parent n) hc hskip; omega)
                exact ⟨next, s', hexec, hpicked.of_setSkip, hmarks⟩
              · rw [if_neg hzero]
                have hfound : ∀ p, WayDown L t (schedCmp s.vruntime) n p →
                    WayDown L t (schedCmp s.vruntime) L.rootContainer p := fun p hp =>
                  hsp.found (.group (hm.comesFirst (h.planted.sorted _) hfind (.inr hp.hasProc))
                    hgroup hp)
                exact ih h hpanic hm (.step hc hne hn hskip hfound hsp) (fun _ => hzero)
                  (by have := rounds_deeper (s := s) hc hdepth; omega)

/-! ## Taking the marks away -/

/-- What a pass over the nodes `l` leaves of the marks: none on these nodes and on what lies
below them, and none that was not there. -/
structure Cleaned (L : SchedLayout) (t : ℕ → RbTree ℕ) (l : List ℕ) (skip skip' : ℕ → Bool) :
    Prop where
  mono : ∀ n, skip' n = true → skip n = true
  clean : ∀ n ∈ l, skip' n = false ∧ (L.group n = true → ∀ m, Under L t n m → skip' m = false)

theorem Cleaned.under {skip skip' : ℕ → Bool} (h : Cleaned L t (t g).toList skip skip')
    (hn : Under L t g n) : skip' n = false := by
  cases hn with
  | here hmem => exact (h.clean n hmem).1
  | deeper hmem hc hunder => exact (h.clean _ hmem).2 hc n hunder

/-- **`_rb_fix_skip`** on a part of the queue of `g` -/
theorem rbFixSkip_spec {F : RbForest} {N : ℕ} (hF : ∀ g, HoldsTree (F.mem g) (t g))
    (hdown : ∀ g, ∀ c ∈ (t g).toList, L.group c = true → c ∈ L.containers ∧ L.depth g < L.depth c)
    (hN : ∀ g, (t g).toList.length ≤ N) {k g p fuel : ℕ} {u : RbTree ℕ} {s : Sched}
    (hk : L.height - L.depth g ≤ k) (hs : s.rq = F) (hu : Holds (F.mem g) p u)
    (hsub : ∀ n ∈ u.toList, n ∈ (t g).toList) (hfuel : u.toList.length + (N + 1) * k < fuel) :
    ∃ skip', Sched.rbFixSkip L fuel u.ptr s = some { s with skip := skip' } ∧
      Cleaned L t u.toList s.skip skip' := by
  induction k using Nat.strong_induction_on generalizing g p fuel u s with
  | _ k ihk =>
  induction u generalizing p fuel s with
  | nil =>
      cases fuel with
      | zero => cases hfuel
      | succ fuel => exact ⟨s.skip, rfl, fun _ h => h, by simp⟩
  | node c l a r ihl ihr =>
      obtain ⟨ha, hcell, hl, hr⟩ := hu
      have hleft : (F.nodes a).left = l.ptr := congrArg RbNode.left hcell
      have hright : (F.nodes a).right = r.ptr := congrArg RbNode.right hcell
      simp only [toList_node, List.length_append, List.length_cons] at hfuel
      cases fuel with
      | zero => cases hfuel
      | succ fuel =>
      -- the queue of the node, if it is a container
      have hdeep : ∃ skip₁, (if L.group a then Sched.rbFixSkip L fuel (s.rq.root a)
            (s.setSkip a false) else some (s.setSkip a false)) = some { s with skip := skip₁ } ∧
          (∀ n, skip₁ n = true → (s.setSkip a false).skip n = true) ∧
          (L.group a = true → ∀ m, Under L t a m → skip₁ m = false) := by
        cases hg : L.group a with
        | false => exact ⟨_, rfl, fun _ h => h, by simp⟩
        | true =>
            obtain ⟨hac, hd⟩ := hdown g a (hsub a (by simp)) hg
            have hle := L.depth_le a hac
            have hk1 : (N + 1) * (k - 1) + (N + 1) = (N + 1) * k := by
              rw [← Nat.mul_succ]
              congr 1
              omega
            have hNa := hN a
            obtain ⟨skip₁, hexec, hclean⟩ := @ihk (k - 1) (by omega) a 0 fuel (t a)
              (s.setSkip a false) (by omega) hs (hF a).2 (fun _ hn => hn) (by omega)
            have hroot : s.rq.root a = (t a).ptr := by
              rw [hs]
              exact (hF a).1
            rw [hroot, if_pos rfl, hexec]
            exact ⟨skip₁, rfl, hclean.mono, fun _ m hm => hclean.under hm⟩
      obtain ⟨skip₁, hexec₁, hmono₁, hclean₁⟩ := hdeep
      obtain ⟨skip₂, hexec₂, hclean₂⟩ := @ihl _ fuel { s with skip := skip₁ } hs hl
        (fun n hn => hsub n (by simp [hn])) (by omega)
      obtain ⟨skip₃, hexec₃, hclean₃⟩ := @ihr _ fuel { s with skip := skip₂ } hs hr
        (fun n hn => hsub n (by simp [hn])) (by omega)
      have hfalse : ∀ {f : ℕ → Bool} {n}, (∀ m, skip₃ m = true → f m = true) → f n = false →
          skip₃ n = false := by
        intro f n hf h0
        cases h1 : skip₃ n with
        | false => rfl
        | true => exact (hf n h1).symm.trans h0
      have hmono₃₁ : ∀ n, skip₃ n = true → skip₁ n = true := fun n hn =>
        hclean₂.mono n (hclean₃.mono n hn)
      have hself : skip₁ a = false := by
        cases h1 : skip₁ a with
        | false => rfl
        | true => simpa using hmono₁ a h1
      refine ⟨skip₃, ?_, fun n hn => ?_, fun n hn => ?_⟩
      · rw [Sched.rbFixSkip, ptr_node, if_pos ha.ne]
        simp only [Option.bind_eq_bind, Sched.setSkip_rq]
        rw [← apply_ite (fun o : Option Sched => o.bind _), hexec₁, Option.bind_some]
        subst hs
        simp only [hleft]
        rw [hexec₂, Option.bind_some]
        simp only [hright]
        exact hexec₃
      · have h1 := hmono₁ n (hmono₃₁ n hn)
        by_cases hna : n = a
        · subst hna
          simp at h1
        · rwa [Sched.setSkip_skip_of_ne hna] at h1
      · simp only [toList_node, List.mem_append, List.mem_cons] at hn
        rcases hn with hn | rfl | hn
        · refine ⟨hfalse hclean₃.mono (hclean₂.clean n hn).1, fun hg m hm => ?_⟩
          exact hfalse hclean₃.mono ((hclean₂.clean n hn).2 hg m hm)
        · exact ⟨hfalse hmono₃₁ hself, fun hg m hm => hfalse hmono₃₁ (hclean₁ hg m hm)⟩
        · exact hclean₃.clean n hn

/-! ## The next process -/

theorem Removed.mem {s' : Sched} {u : RbTree ℕ} (h : Queued L s Q t)
    (hrem : Removed L s Q t p s' u) {g : ℕ} :
    n ∈ (Function.update t (L.container p) u g).toList ↔ n ∈ (t g).toList ∧ n ≠ p := by
  rw [hrem.planted.mem, h.planted.mem]
  simp only [Set.mem_sdiff, Set.mem_singleton_iff]
  tauto

/-- The queues without the process -/
theorem Removed.queued {s' : Sched} {u : RbTree ℕ} (h : Queued L s Q t)
    (hmem : p ∈ (t (L.container p)).toList) (hrem : Removed L s Q t p s' u) :
    Queued L s' (Q \ {p}) (Function.update t (L.container p) u) where
  planted := by
    have hv : s'.vruntime = s.vruntime := by rw [hrem.eq]
    rw [hv]
    exact hrem.planted
  count g := by
    rw [hrem.count]
    by_cases hg : g = L.container p
    · subst hg
      have hpos := List.length_pos_of_mem hmem
      rw [Function.update_self, Function.update_self, hrem.list, h.count,
        List.length_erase_of_mem hmem]
      omega
    · rw [Function.update_of_ne hg, Function.update_of_ne hg, h.count]
  member n hn := h.member n hn.1

theorem Queued.nil_of_notMem (h : Queued L s Q t) (hg : g ∉ L.containers) : (t g).toList = [] := by
  rw [List.eq_nil_iff_forall_not_mem]
  intro n hn
  obtain ⟨hQ, rfl⟩ := h.mem_home hn
  exact hg (h.member n hQ).home_mem

/-- There is no queue with more nodes than are counted in all. -/
theorem Queued.length_le (h : Queued L s Q t) (g : ℕ) :
    (t g).toList.length ≤ (L.containers.map s.nodeCnt).sum.toNat := by
  by_cases hg : g ∈ L.containers
  · have hle : s.nodeCnt g ≤ (L.containers.map s.nodeCnt).sum := by
      refine List.single_le_sum (fun x hx => ?_) _ (List.mem_map_of_mem hg)
      obtain ⟨c, -, rfl⟩ := List.mem_map.mp hx
      rw [h.count]
      omega
    rw [h.count] at hle
    omega
  · rw [h.nil_of_notMem hg]
    exact Nat.zero_le _

/-- The containers in a queue are nested deeper. -/
theorem Queued.down (h : Queued L s Q t) (hc : c ∈ (t g).toList) (hg : L.group c = true) :
    c ∈ L.containers ∧ L.depth g < L.depth c := by
  obtain ⟨hQ, rfl⟩ := h.mem_home hc
  obtain ⟨hcont, hne⟩ := (h.member c hQ).container hg
  refine ⟨hcont, ?_⟩
  rw [SchedLayout.home_container hcont]
  exact L.depth_parent c hcont hne

/-- **The pass of `_rb_fix_skip` from the root** -/
theorem fixSkip_root (h : Queued L s Q t)
    (hm : ∀ n, s.skip n = true → Under L t L.rootContainer n) :
    ∃ skip', Sched.rbFixSkip L (s.fixFuel L) (s.rq.root L.rootContainer) s =
      some { s with skip := skip' } ∧ ∀ n, skip' n = false := by
  have hroot : s.rq.root L.rootContainer = (t L.rootContainer).ptr :=
    (h.planted.holds L.rootContainer).1
  have hlen := h.length_le L.rootContainer
  have hfuel : (t L.rootContainer).toList.length +
      ((L.containers.map s.nodeCnt).sum.toNat + 1) * L.height < s.fixFuel L := by
    simp only [Sched.fixFuel, Nat.add_mul, Nat.mul_add]
    omega
  obtain ⟨skip', hexec, hclean⟩ := rbFixSkip_spec h.planted.holds (fun g c hc => h.down hc)
    h.length_le (Nat.sub_le _ _) rfl (h.planted.holds L.rootContainer).2 (fun _ hn => hn) hfuel
  refine ⟨skip', by rw [hroot, hexec], fun n => ?_⟩
  cases hn : skip' n with
  | false => rfl
  | true => exact hn.symm.trans (hclean.under (hm n (hclean.mono n hn)))

/-- What becomes of the containers below when processes are taken out -/
theorem Under.of_groups {t' : ℕ → RbTree ℕ} (h : Under L t g n) (hn : L.group n = true)
    (hsub : ∀ g, ∀ c ∈ (t g).toList, L.group c = true → c ∈ (t' g).toList) : Under L t' g n := by
  induction h with
  | here hmem => exact .here (hsub _ _ hmem hn)
  | deeper hmem hc _ ih => exact .deeper (hsub _ _ hmem hc) hc (ih hn)

/-- What is found is a process, in the queue of its container. -/
theorem Queued.proc_of_under (h : Queued L s Q t) (hp : Under L t g p) (hgroup : L.group p = false) :
    p ∈ L.procs ∧ p ∈ Q ∧ p ∈ (t (L.container p)).toList := by
  induction hp with
  | here hmem =>
      obtain ⟨hQ, rfl⟩ := h.mem_home hmem
      have hproc := (h.member _ hQ).proc hgroup
      exact ⟨hproc, hQ, SchedLayout.home_proc hproc ▸ hmem⟩
  | deeper _ _ _ ih => exact ih hgroup

theorem Picked.setSkip {cpu next : ℕ} {s' : Sched} {skip' : ℕ → Bool}
    (h : Picked L cpu s Q t next s') : Picked L cpu s Q t next { s' with skip := skip' } := by
  cases h with
  | proc u hfound hrem =>
      refine .proc u hfound ⟨?_, hrem.planted, hrem.list, hrem.count⟩
      rw [hrem.eq]
  | idle hno heq =>
      refine .idle hno ?_
      rw [heq]

theorem pickNext_spec (cpu : ℕ) (h : Queued L s Q t) (hskip : ∀ n, s.skip n = false)
    (hpanic : s.panicFlag = false) :
    ∃ next s', s.pickNext L cpu = some (next, s') ∧ Picked L cpu s Q t next s' ∧
      ∀ n, s'.skip n = false := by
  have hmarks : Marks L t s := by
    constructor <;> intro n hn <;> rw [hskip n] at hn <;> cases hn
  obtain ⟨next, s₁, hexec, hpicked, hm₁⟩ := pickNextR_spec cpu h hpanic hmarks .root
    (fun hne => absurd rfl hne) (rounds_lt_pickFuel L s L.rootContainer)
  have hfix : ∃ skip', Sched.rbFixSkip L (s₁.fixFuel L) (s₁.rq.root L.rootContainer) s₁ =
      some { s₁ with skip := skip' } ∧ ∀ n, skip' n = false := by
    cases hpicked with
    | proc u hfound hrem =>
        obtain ⟨hp, -, hmem⟩ := h.proc_of_under hfound.under.1 hfound.under.2
        refine fixSkip_root (hrem.queued h hmem) fun n hn => ?_
        refine (hm₁.under n hn).of_groups (hm₁.group n hn) fun g c hc hgroup => ?_
        rw [hrem.mem h]
        refine ⟨hc, ?_⟩
        rintro rfl
        rw [L.proc_group c hp] at hgroup
        cases hgroup
    | idle hno heq =>
        refine fixSkip_root (h.congr ?_ ?_ ?_) hm₁.under
        all_goals rw [heq]
  obtain ⟨skip', hexec', hfalse⟩ := hfix
  refine ⟨next, _, ?_, hpicked.setSkip, hfalse⟩
  simp only [Sched.pickNext, hexec, Option.bind_eq_bind, Option.bind_some, hexec']

/-- With `panic_flag` set it is the idle process. -/
theorem pickNext_panic (cpu : ℕ) (h : Queued L s Q t) (hskip : ∀ n, s.skip n = false)
    (hpanic : s.panicFlag = true) :
    ∃ s', s.pickNext L cpu = some (L.idleOf cpu, s') ∧ s' = { s with skip := s'.skip } ∧
      ∀ n, s'.skip n = false := by
  obtain ⟨skip', hexec, hfalse⟩ := fixSkip_root h fun n hn => by
    rw [hskip n] at hn
    cases hn
  refine ⟨{ s with skip := skip' }, ?_, rfl, hfalse⟩
  have hpick : Sched.pickNextR L cpu (Sched.pickFuel L) L.rootContainer s =
      some (L.idleOf cpu, s) := by
    have hpos := (Nat.zero_le _).trans_lt (rounds_lt_pickFuel L s L.rootContainer)
    cases hfuel : Sched.pickFuel L with
    | zero => omega
    | succ fuel => rw [Sched.pickNextR, hpanic, if_pos rfl]
  simp only [Sched.pickNext, hpick, Option.bind_eq_bind, Option.bind_some, hexec]

/-- On the way down to the process that is found, each node is the least of its queue. -/
theorem WayDown.comesFirst (h : WayDown L t cmp g p) (hq : Queued L s Q t) (hg : g ∈ L.containers)
    {d : ℕ} (hd : d ∈ p :: L.ancestors (L.container p)) :
    d ∈ L.ancestors g ∨ ComesFirst L t cmp (L.home d) d := by
  induction h with
  | @proc g p hl hp =>
      obtain ⟨hQ, hhome⟩ := hq.mem_home hl.mem
      have hproc := (hq.member p hQ).proc hp
      have hcont := SchedLayout.home_proc hproc
      rcases List.mem_cons.mp hd with rfl | hd
      · exact .inr (hhome ▸ hl)
      · rw [← hcont, hhome] at hd
        exact .inl hd
  | @group g c p hl hc _ ih =>
      obtain ⟨hQ, hhome⟩ := hq.mem_home hl.mem
      obtain ⟨hcont, hne⟩ := (hq.member c hQ).container hc
      rcases ih hcont hd with hd | hd
      · have hpar : L.parent c = g := by rw [← SchedLayout.home_container hcont, hhome]
        rw [SchedLayout.ancestors_cons hcont hne, hpar] at hd
        rcases List.mem_cons.mp hd with rfl | hd
        · exact .inr (hhome ▸ hl)
        · exact .inl hd
      · exact .inr hd

/-- From the root -/
theorem WayDown.comesFirst_root (h : WayDown L t cmp L.rootContainer p) (hq : Queued L s Q t)
    {d : ℕ} (hd : d ∈ p :: L.ancestors (L.container p)) : ComesFirst L t cmp (L.home d) d := by
  have := h.comesFirst hq L.root_mem hd
  rw [SchedLayout.ancestors_root] at this
  exact this.resolve_left (by simp)

end OsLab
