import OsLab.Lib.Chain
import OsLab.Lib.Run

/-!
# The queue of free pages

`add_to_queue` and `fetch_from_queue` of `common/list.c`, called by any number of
CPUs through `kfree_page` and `kalloc_page`.  A free page holds the link to the next
one in its first word; the owner of a page may write anything there.  A step is one
load, one store or one compare-and-exchange.

`fetch_from_queue` reads `head` and then `head->next`, and its compare-and-exchange
looks at `head` only.  If the page has left the queue and come back in between, the
link it read is stale, and the queue then starts at a page that is owned or skips
pages (`handed_out_twice`).  `Fresh` excludes exactly these steps.

## Main definitions

* `QueuePc`, `PageQueue`, `PageQueue.step` — the system.
* `PageQueue.Partition` — every page is owned once or queued once.
* `Fresh` — the condition on a step.
* `fresh_partition` — the result over runs.
-/

namespace OsLab

/-- Where a CPU is in `add_to_queue` or `fetch_from_queue`. -/
inductive QueuePc
  | idle
  /-- `add_to_queue(p)`, about to load `*head` -/
  | addLoad (p : ℕ)
  /-- about to store `node->next` -/
  | addStore (p : ℕ) (h : Option ℕ)
  /-- about to compare and exchange -/
  | addCas (p : ℕ)
  /-- `fetch_from_queue`, about to load `*head` -/
  | fetchLoad
  /-- about to load `node->next` -/
  | fetchNext (n : ℕ)
  /-- about to compare and exchange -/
  | fetchCas (n : ℕ) (x : Option ℕ)
  deriving DecidableEq, Repr

/-- What a CPU does next. -/
inductive QueueAct
  /-- call `kalloc_page` -/
  | alloc
  /-- call `kfree_page` -/
  | free (p : ℕ)
  /-- write to the first word of a page -/
  | write (p : ℕ) (x : Option ℕ)
  /-- the next step of the call it is in -/
  | run
  /-- the same where a weak compare-and-exchange fails without a reason -/
  | fail
  deriving DecidableEq, Repr

/-- The queue, the pages and the CPUs. -/
structure PageQueue where
  head : Option ℕ
  /-- the first word of each page -/
  next : ℕ → Option ℕ
  pc : ℕ → QueuePc
  /-- the pages each CPU has been given and has not freed -/
  own : ℕ → List ℕ

namespace PageQueue

def goto (s : PageQueue) (c : ℕ) (p : QueuePc) : PageQueue :=
  { s with pc := Function.update s.pc c p }

/-- `node->next = x` -/
def setNext (s : PageQueue) (p : ℕ) (x : Option ℕ) : PageQueue :=
  { s with next := Function.update s.next p x }

/-- A compare-and-exchange that fails stores the value it found in the expected one. -/
def runFail (s : PageQueue) (c : ℕ) : Option PageQueue :=
  match s.pc c with
  | .addCas p => some ((s.setNext p s.head).goto c (.addLoad p))
  | .fetchCas _ _ => some (s.goto c .fetchLoad)
  | _ => none

/-- The next step of the call CPU `c` is in. -/
def runStep (s : PageQueue) (c : ℕ) : Option PageQueue :=
  match s.pc c with
  | .idle => none
  | .addLoad p => some (s.goto c (.addStore p s.head))
  | .addStore p h => some ((s.setNext p h).goto c (.addCas p))
  | .addCas p =>
      if s.head = s.next p then
        some { s.goto c .idle with
          head := some p
          own := Function.update s.own c ((s.own c).erase p) }
      else s.runFail c
  | .fetchLoad =>
      match s.head with
      | none => some (s.goto c .idle)
      | some n => some (s.goto c (.fetchNext n))
  | .fetchNext n => some (s.goto c (.fetchCas n (s.next n)))
  | .fetchCas n x =>
      if s.head = some n then
        some { s.goto c .idle with
          head := x
          own := Function.update s.own c (n :: s.own c) }
      else s.runFail c

/-- One step of CPU `c`. -/
def step (s : PageQueue) : ℕ × QueueAct → Option PageQueue
  | (c, .alloc) => if s.pc c = .idle then some (s.goto c .fetchLoad) else none
  | (c, .free p) => if s.pc c = .idle ∧ p ∈ s.own c then some (s.goto c (.addLoad p)) else none
  | (c, .write p x) => if s.pc c = .idle ∧ p ∈ s.own c then some (s.setNext p x) else none
  | (c, .run) => s.runStep c
  | (c, .fail) => s.runFail c

/-- All pages are in the queue, and no CPU is in a call. -/
def start (head : Option ℕ) (next : ℕ → Option ℕ) : PageQueue :=
  ⟨head, next, fun _ => .idle, fun _ => []⟩

/-- **Every page is owned by exactly one CPU or reachable exactly once from the head.** -/
def Partition (pages : List ℕ) (s : PageQueue) : Prop :=
  ∃ l, Chain s.next s.head l ∧ l.Nodup ∧ (∀ c, (s.own c).Nodup) ∧
    (∀ c d p, p ∈ s.own c → p ∈ s.own d → c = d) ∧ (∀ c, ∀ p ∈ s.own c, p ∉ l) ∧
    ∀ p, p ∈ pages ↔ p ∈ l ∨ ∃ c, p ∈ s.own c

/-- A CPU gets one more page. -/
theorem mem_own_cons (s : PageQueue) {c p d q : ℕ} :
    q ∈ Function.update s.own c (p :: s.own c) d ↔ (q = p ∧ d = c) ∨ q ∈ s.own d := by
  by_cases hd : d = c
  · simp [hd]
  · simp [hd]

end PageQueue

/-- The condition on a step: a compare-and-exchange of `fetch_from_queue` that finds its page at
the head finds the link it has read still there. -/
def Fresh (s : PageQueue) : ℕ × QueueAct → Prop
  | (c, .run) => ∀ n x, s.pc c = .fetchCas n x → s.head = some n → s.next n = x
  | _ => True

/-! ## The invariant -/

/-- The pages are partitioned, and a CPU owns what it is about to add. -/
structure QueueOk (pages : List ℕ) (s : PageQueue) : Prop where
  partition : s.Partition pages
  adds : ∀ c p h, s.pc c = .addLoad p ∨ s.pc c = .addStore p h ∨ s.pc c = .addCas p → p ∈ s.own c

namespace QueueOk

variable {pages : List ℕ} {s s' : PageQueue} {c p : ℕ} {x : Option ℕ} {q : QueuePc}

theorem start {head : Option ℕ} {next : ℕ → Option ℕ} (hc : Chain next head pages)
    (hn : pages.Nodup) : QueueOk pages (PageQueue.start head next) := by
  constructor
  · refine ⟨pages, hc, hn, ?_, ?_, ?_, ?_⟩
    all_goals simp [PageQueue.start]
  · intro c p h hp
    rcases hp with hp | hp | hp <;> cases hp

theorem goto (h : QueueOk pages s)
    (hq : ∀ p y, q = .addLoad p ∨ q = .addStore p y ∨ q = .addCas p → p ∈ s.own c) :
    QueueOk pages (s.goto c q) := by
  refine ⟨h.partition, ?_⟩
  intro d p y hp
  by_cases hd : d = c
  · simp only [PageQueue.goto, hd, Function.update_self] at hp
    rw [hd]
    exact hq p y hp
  · simp only [PageQueue.goto, Function.update_of_ne hd] at hp
    exact h.adds d p y hp

/-- A CPU writes to a page it owns. -/
theorem setNext (h : QueueOk pages s) (hp : p ∈ s.own c) : QueueOk pages (s.setNext p x) := by
  obtain ⟨l, hl, hn, hnd, huniq, hdis, hall⟩ := h.partition
  refine ⟨⟨l, ?_, hn, hnd, huniq, hdis, hall⟩, h.adds⟩
  apply hl.congr
  intro a ha
  have hap : a ≠ p := fun hap => hdis c p hp (hap ▸ ha)
  simp [PageQueue.setNext, hap]

/-- The compare-and-exchange of `add_to_queue` succeeds. -/
theorem push (h : QueueOk pages s) (hp : p ∈ s.own c) (hhead : s.head = s.next p) :
    QueueOk pages { s.goto c .idle with
      head := some p
      own := Function.update s.own c ((s.own c).erase p) } := by
  obtain ⟨l, hl, hn, hnd, huniq, hdis, hall⟩ := h.partition
  have hmem : ∀ d q, q ∈ Function.update s.own c ((s.own c).erase p) d ↔ q ≠ p ∧ q ∈ s.own d := by
    intro d q
    by_cases hd : d = c
    · rw [hd, Function.update_self, (hnd c).mem_erase_iff]
    · rw [Function.update_of_ne hd]
      refine ⟨fun hq => ⟨?_, hq⟩, And.right⟩
      rintro rfl
      exact hd (huniq d c q hq hp)
  constructor
  · refine ⟨p :: l, .cons (hhead ▸ hl), List.nodup_cons.mpr ⟨hdis c p hp, hn⟩, ?_, ?_, ?_, ?_⟩
    · intro d
      by_cases hd : d = c
      · simp only [hd, Function.update_self]
        exact (hnd c).erase p
      · simp only [Function.update_of_ne hd]
        exact hnd d
    · intro d e q hd he
      exact huniq d e q ((hmem d q).mp hd).2 ((hmem e q).mp he).2
    · intro d q hq hql
      have hq' := (hmem d q).mp hq
      rcases List.mem_cons.mp hql with hqp | hql
      · exact hq'.1 hqp
      · exact hdis d q hq'.2 hql
    · intro q
      simp only [hmem, hall q, List.mem_cons]
      by_cases hqp : q = p
      · simp only [hqp, true_or, iff_true]
        exact Or.inr ⟨c, hp⟩
      · simp [hqp]
  · intro d q y hd
    by_cases hdc : d = c
    · simp only [PageQueue.goto, hdc, Function.update_self] at hd
      rcases hd with hd | hd | hd <;> cases hd
    · simp only [PageQueue.goto, Function.update_of_ne hdc] at hd ⊢
      exact h.adds d q y hd

/-- The compare-and-exchange of `fetch_from_queue` succeeds on a fresh link. -/
theorem pop (h : QueueOk pages s) (hhead : s.head = some p) :
    QueueOk pages { s.goto c .idle with
      head := s.next p
      own := Function.update s.own c (p :: s.own c) } := by
  obtain ⟨l, hl, hn, hnd, huniq, hdis, hall⟩ := h.partition
  rw [hhead] at hl
  obtain ⟨m, rfl, hm⟩ := hl.exists_cons
  have hfree : ∀ d, p ∉ s.own d := fun d hd => hdis d p hd List.mem_cons_self
  have hmem := fun d q => s.mem_own_cons (c := c) (p := p) (d := d) (q := q)
  constructor
  · refine ⟨m, hm, (List.nodup_cons.mp hn).2, ?_, ?_, ?_, ?_⟩
    · intro d
      by_cases hd : d = c
      · simp only [hd, Function.update_self]
        exact List.nodup_cons.mpr ⟨hfree c, hnd c⟩
      · simp only [Function.update_of_ne hd]
        exact hnd d
    · intro d e q hd he
      rcases (hmem d q).mp hd with ⟨hqp, hdc⟩ | hd'
      · rcases (hmem e q).mp he with ⟨-, hec⟩ | he'
        · rw [hdc, hec]
        · rw [hqp] at he'
          exact absurd he' (hfree e)
      · rcases (hmem e q).mp he with ⟨hqp, -⟩ | he'
        · rw [hqp] at hd'
          exact absurd hd' (hfree d)
        · exact huniq d e q hd' he'
    · intro d q hq hqm
      rcases (hmem d q).mp hq with ⟨rfl, -⟩ | hq
      · exact (List.nodup_cons.mp hn).1 hqm
      · exact hdis d q hq (List.mem_cons_of_mem _ hqm)
    · intro q
      simp only [hmem, hall q, List.mem_cons]
      by_cases hqp : q = p
      · simp only [hqp, true_or, true_and, true_iff]
        exact Or.inr ⟨c, Or.inl rfl⟩
      · simp [hqp]
  · intro d q y hd
    by_cases hdc : d = c
    · simp only [PageQueue.goto, hdc, Function.update_self] at hd
      rcases hd with hd | hd | hd <;> cases hd
    · simp only [PageQueue.goto, Function.update_of_ne hdc] at hd ⊢
      exact h.adds d q y hd

theorem runFail (h : QueueOk pages s) (hs : s.runFail c = some s') : QueueOk pages s' := by
  simp only [PageQueue.runFail] at hs
  split at hs
  · rename_i p hpc
    cases hs
    have hp := h.adds c p none (Or.inr (Or.inr hpc))
    apply (h.setNext hp).goto
    intro q y hq
    rcases hq with hq | hq | hq <;> cases hq
    exact hp
  · cases hs
    apply h.goto
    intro q y hq
    rcases hq with hq | hq | hq <;> cases hq
  · cases hs

/-- **Every fresh step keeps the invariant.** -/
theorem step {i : ℕ × QueueAct} (h : QueueOk pages s) (ho : Fresh s i) (hs : s.step i = some s') :
    QueueOk pages s' := by
  obtain ⟨c, a⟩ := i
  cases a with
  | alloc =>
      simp only [PageQueue.step] at hs
      split_ifs at hs
      cases hs
      apply h.goto
      intro q y hq
      rcases hq with hq | hq | hq <;> cases hq
  | free p =>
      simp only [PageQueue.step] at hs
      split_ifs at hs with hp
      cases hs
      apply h.goto
      intro q y hq
      rcases hq with hq | hq | hq <;> cases hq
      exact hp.2
  | write p x =>
      simp only [PageQueue.step] at hs
      split_ifs at hs with hp
      cases hs
      exact h.setNext hp.2
  | fail => exact h.runFail hs
  | run =>
      simp only [PageQueue.step, PageQueue.runStep] at hs
      split at hs
      · cases hs
      · rename_i p hpc
        cases hs
        have hp := h.adds c p none (Or.inl hpc)
        apply h.goto
        intro q y hq
        rcases hq with hq | hq | hq <;> cases hq
        exact hp
      · rename_i p y hpc
        cases hs
        have hp := h.adds c p y (Or.inr (Or.inl hpc))
        apply (h.setNext hp).goto
        intro q z hq
        rcases hq with hq | hq | hq <;> cases hq
        exact hp
      · rename_i p hpc
        split_ifs at hs with hhead
        · cases hs
          exact h.push (h.adds c p none (Or.inr (Or.inr hpc))) hhead
        · exact h.runFail hs
      · split at hs
        all_goals
          cases hs
          apply h.goto
          intro q y hq
          rcases hq with hq | hq | hq <;> cases hq
      · cases hs
        apply h.goto
        intro q y hq
        rcases hq with hq | hq | hq <;> cases hq
      · rename_i n x hpc
        split_ifs at hs with hhead
        · cases hs
          rw [← ho n x hpc hhead]
          exact h.pop hhead
        · exact h.runFail hs

/-- **A stale link breaks the queue**: the pages behind the head would have to start at two
different places. -/
theorem stale (h : s.Partition pages) (hhead : s.head = some p) (hx : s.next p ≠ x) :
    ¬ PageQueue.Partition pages { s.goto c .idle with
      head := x
      own := Function.update s.own c (p :: s.own c) } := by
  obtain ⟨l, hl, hn, -, -, hdis, hall⟩ := h
  rw [hhead] at hl
  obtain ⟨m, rfl, hm⟩ := hl.exists_cons
  rintro ⟨l', hl', -, -, -, hdis', hall'⟩
  have hmem := fun d q => s.mem_own_cons (c := c) (p := p) (d := d) (q := q)
  apply hx
  refine hm.start_unique hl' (List.nodup_cons.mp hn).2 ?_
  intro q
  constructor
  · intro hq
    -- a queued page is one of the pages and has no owner
    have hpage := (hall q).mp ((hall' q).mpr (Or.inl hq))
    have hfree : ∀ d, ¬ ((q = p ∧ d = c) ∨ q ∈ s.own d) :=
      fun d hd => hdis' d q ((hmem d q).mpr hd) hq
    rcases hpage with hqm | ⟨d, hd⟩
    · rcases List.mem_cons.mp hqm with hqp | hqm
      · exact absurd (Or.inl ⟨hqp, rfl⟩) (hfree c)
      · exact hqm
    · exact absurd (Or.inr hd) (hfree d)
  · intro hq
    have hpage := (hall' q).mp ((hall q).mpr (Or.inl (List.mem_cons_of_mem _ hq)))
    rcases hpage with hql | ⟨d, hd⟩
    · exact hql
    · rcases (hmem d q).mp hd with ⟨hqp, -⟩ | hd
      · rw [hqp] at hq
        exact absurd hq (List.nodup_cons.mp hn).1
      · exact absurd (List.mem_cons_of_mem _ hq) (hdis d q hd)

end QueueOk

/-- **The page queue never hands out a page twice** in a run whose steps are fresh, and from such
a run on exactly the steps that are not fresh break it. -/
theorem fresh_partition {pages : List ℕ} {head : Option ℕ} {next : ℕ → Option ℕ} {s : PageQueue}
    (hc : Chain next head pages) (hn : pages.Nodup)
    (h : Reach PageQueue.step Fresh (PageQueue.start head next) s) :
    s.Partition pages ∧
      ∀ i s', s.step i = some s' → (s'.Partition pages ↔ Fresh s i) := by
  have hok : QueueOk pages s :=
    h.invariant (QueueOk.start hc hn) fun _ _ _ hs ho hstep => QueueOk.step hs ho hstep
  refine ⟨hok.partition, ?_⟩
  intro i s' hs
  refine ⟨?_, fun ho => (hok.step ho hs).partition⟩
  intro hpart
  obtain ⟨c, a⟩ := i
  cases a with
  | run =>
      intro n x hpc hhead
      by_contra hx
      simp only [PageQueue.step, PageQueue.runStep, hpc, hhead, if_true] at hs
      cases hs
      exact QueueOk.stale hok.partition hhead hx hpart
  | _ => exact trivial

/-- Links of the queue `1, 2, 3`. -/
private def threePages : ℕ → Option ℕ
  | 1 => some 2
  | 2 => some 3
  | _ => none

private theorem chain_threePages : Chain threePages (some 1) [1, 2, 3] :=
  .cons (.cons (.cons .nil))

private def freshTest (s : PageQueue) : ℕ × QueueAct → Bool
  | (c, .run) =>
      match s.pc c with
      | .fetchCas n x => s.head ≠ some n || s.next n = x
      | _ => true
  | _ => true

private theorem fresh_of_freshTest (s : PageQueue) (i : ℕ × QueueAct) (h : freshTest s i = true) :
    Fresh s i := by
  obtain ⟨c, a⟩ := i
  cases a with
  | run =>
      intro n x hpc hhead
      simpa [freshTest, hpc, hhead] using h
  | _ => exact trivial

/-- CPU 1 takes page 1 between two steps of CPU 0, which then tries again and gets page 2. -/
theorem fresh_partition_two : ∃ s, Reach PageQueue.step Fresh
    (PageQueue.start (some 1) threePages) s ∧ s.own 0 = [2] ∧ s.own 1 = [1] ∧
      s.Partition [1, 2, 3] := by
  have hrun : Reach PageQueue.step Fresh (PageQueue.start (some 1) threePages) _ :=
    Reach.init.of_tested fresh_of_freshTest [(0, .alloc), (0, .run), (0, .run), (1, .alloc),
      (1, .run), (1, .run), (1, .run), (0, .run), (0, .run), (0, .run), (0, .run)] rfl
  exact ⟨_, hrun, rfl, rfl, (fresh_partition chain_threePages (by decide) hrun).1⟩

/-- **A page can be handed out while another CPU owns it.**  CPU 0 reads page 1 at the head and its
link to page 2.  CPU 1 takes pages 1 and 2 and frees page 1, which is then at the head again, in
front of page 3.  The exchange of CPU 0 succeeds and makes page 2 the head. -/
theorem handed_out_twice : ∃ s, Reach PageQueue.step (fun _ _ => True)
    (PageQueue.start (some 1) threePages) s ∧ ¬ s.Partition [1, 2, 3] := by
  have hinit : Reach PageQueue.step (fun _ _ => True) (PageQueue.start (some 1) threePages)
    (PageQueue.start (some 1) threePages) := .init
  have hrun := hinit.of_runs [(0, .alloc), (0, .run), (0, .run),
    (1, .alloc), (1, .run), (1, .run), (1, .run), (1, .alloc), (1, .run), (1, .run), (1, .run),
    (1, .free 1), (1, .run), (1, .run), (1, .run), (0, .run)] rfl
  refine ⟨_, hrun, ?_⟩
  rintro ⟨l, hl, -, -, -, hdis, -⟩
  obtain ⟨m, rfl, -⟩ := hl.exists_cons (a := 2)
  exact hdis 1 2 (by decide) List.mem_cons_self

end OsLab
