import OsLab.Common.Sem
import OsLab.Lib.Run
import Mathlib.Data.List.Nodup

/-!
# Processes that share a semaphore

The functions of `common/sem.c` called by any number of processes, with kills and
alerts in between.  A step is the code run while the semaphore's lock is held, or
the wake-up of a sleeper by somebody else.

`_wait_sem` is three steps.  The first takes a token or links the `WaitData`, and
takes the sched lock before it drops the semaphore's.  The second, `SemAct.sleep`, is
`simple_sched`, which tests `killed`: it returns at once to a process that was killed,
and puts any other to sleep.  `kill` sets the flag under `plock` alone, so it may come
between the two.  The third, `SemAct.resume`, is the code after the scheduler.  In
between the process may be granted a token by a post (`up`), made runnable by an
alert, or both.

The last fields are never read by a step.  They count posts and successes and
record the order of the waits and of the grants.  `val` is an integer here and an `int`
in the source: `Tally.range` says that the two agree as long as `v + posts` is at most
`INT_MAX`.

## Main definitions

* `SemSys`, `SemSys.step` — the system.
* `SemSys.Tally` — what holds while the lock is free.
* `semaphore_tally` — the result over runs.
-/

namespace OsLab

/-- Where a process is with respect to the semaphore. -/
inductive SemPc
  /-- not in `_wait_sem` -/
  | idle
  /-- linked, still `RUNNING`, on the way into `simple_sched` with the sched lock -/
  | sleeping (alertable : Bool)
  /-- put to sleep, `SLEEPING` if alertable and `DEEPSLEEPING` if not -/
  | asleep (alertable : Bool)
  /-- runnable again, about to take the lock -/
  | awake
  deriving DecidableEq, Repr

/-- What a process does, or what is done to it. -/
inductive SemAct
  /-- `_wait_sem(sem, alertable)` up to the scheduler -/
  | wait (alertable : Bool)
  /-- `simple_sched` -/
  | sleep
  /-- `_wait_sem` after the scheduler -/
  | resume
  | post
  | postAll
  | get
  | getAll
  /-- `killed` is set -/
  | kill
  /-- `_activate_proc(p, true)` -/
  | alert
  deriving DecidableEq, Repr

/-- The semaphore and the processes. -/
structure SemSys where
  sem : Semaphore
  pc : ℕ → SemPc
  /-- `wait->up` of the process's `WaitData` -/
  up : ℕ → Bool
  killed : ℕ → Bool
  /-- tokens posted -/
  posts : ℕ
  /-- tokens taken by `_wait_sem` and `_get_sem` calls that have returned -/
  successes : ℕ
  /-- granted by a post and not returned yet, latest first -/
  granted : List ℕ
  /-- waits begun, and when a process began its wait -/
  clock : ℕ
  ticket : ℕ → ℕ
  /-- the tickets of all grants, latest first -/
  grants : List ℕ
  /-- tokens taken and not posted back, by process -/
  held : List ℕ
  /-- every post so far was made by a process that held a token -/
  proper : Bool

namespace SemSys

/-- A post has taken the process off the list: `wait->up = true` and `activate_proc`, which waits
for the sched lock of a process that is on its way into `simple_sched`. -/
def grant (s : SemSys) (t : ℕ) : SemSys :=
  { s with
    up := Function.update s.up t true
    pc := Function.update s.pc t .awake
    granted := t :: s.granted
    grants := s.ticket t :: s.grants }

/-- Process `t` has taken `n` tokens. -/
def take (s : SemSys) (t n : ℕ) : SemSys :=
  { s with successes := s.successes + n, held := List.replicate n t ++ s.held }

/-- One step of process `t`, or on it.  `none` is a failed `ASSERT`, or a step that the process
is in no position to take. -/
def step (s : SemSys) : ℕ × SemAct → Option SemSys
  | (t, .wait alertable) =>
      if s.pc t = .idle then
        match s.sem.waitSem t with
        | (true, sem) => some (({ s with sem := sem } : SemSys).take t 1)
        | (false, sem) =>
            some { s with
              sem := sem
              up := Function.update s.up t false
              pc := Function.update s.pc t (.sleeping alertable)
              ticket := Function.update s.ticket t s.clock
              clock := s.clock + 1 }
      else none
  | (t, .sleep) =>
      match s.pc t with
      | .sleeping alertable =>
          some { s with
            pc := Function.update s.pc t (if s.killed t then .awake else .asleep alertable) }
      | _ => none
  | (t, .resume) =>
      if s.pc t = .awake then
        if s.up t then
          some (({ s with
            pc := Function.update s.pc t .idle
            granted := s.granted.erase t } : SemSys).take t 1)
        else if s.sem.val + 1 ≤ 0 then
          some { s with
            sem := ⟨s.sem.val + 1, s.sem.sleeplist.erase t⟩
            pc := Function.update s.pc t .idle }
        else none
      else none
  | (t, .post) =>
      if s.pc t = .idle then
        s.sem.postSem.map fun r =>
          let s := { s with
            sem := r.2
            posts := s.posts + 1
            proper := s.proper && decide (t ∈ s.held)
            held := s.held.erase t }
          match r.1 with
          | none => s
          | some u => s.grant u
      else none
  | (t, .postAll) =>
      if s.pc t = .idle then
        s.sem.postAllSem.map fun r =>
          r.1.foldl grant
            { s with sem := r.2, posts := s.posts + r.1.length, proper := false }
      else none
  | (t, .get) =>
      if s.pc t = .idle then
        match s.sem.getSem with
        | (true, sem) => some (({ s with sem := sem } : SemSys).take t 1)
        | (false, sem) => some { s with sem := sem }
      else none
  | (t, .getAll) =>
      if s.pc t = .idle then
        some (({ s with sem := s.sem.getAllSem.2 } : SemSys).take t s.sem.getAllSem.1.toNat)
      else none
  | (t, .kill) => some { s with killed := Function.update s.killed t true }
  | (t, .alert) =>
      some (if s.pc t = .asleep true then { s with pc := Function.update s.pc t .awake } else s)

/-- After `init_sem(sem, v)`. -/
def start (v : ℕ) : SemSys where
  sem := .initSem v
  pc := fun _ => .idle
  up := fun _ => false
  killed := fun _ => false
  posts := 0
  successes := 0
  granted := []
  clock := 0
  ticket := fun _ => 0
  grants := []
  held := []
  proper := true

/-- **The semaphore while its lock is free.**  `v` is the initial value. -/
structure Tally (v : ℕ) (s : SemSys) : Prop where
  /-- nobody sleeps on a counter that is not negative -/
  nonneg : 0 ≤ s.sem.val → s.sem.sleeplist = []
  neg : s.sem.val < 0 → (s.sem.sleeplist.length : ℤ) = -s.sem.val
  /-- the list and the granted are the processes in `_wait_sem`, each once -/
  waiting : (s.sem.sleeplist ++ s.granted).Nodup ∧
    ∀ t, t ∈ s.sem.sleeplist ++ s.granted ↔ s.pc t ≠ .idle
  account : s.sem.val = v + s.posts - s.successes - (s.sem.sleeplist ++ s.granted).length
  /-- the counter stays in this range -/
  range : -(s.sem.sleeplist.length : ℤ) ≤ s.sem.val ∧ s.sem.val ≤ v + s.posts
  /-- grants are made in the order of the waits -/
  order : (s.grants.reverse ++ s.sem.sleeplist.reverse.map s.ticket).Pairwise (· < ·)
  /-- each post is consumed once -/
  consumed : s.successes + s.granted.length ≤ v + s.posts
  /-- no `ASSERT` fails -/
  asserts : ∀ t, (s.pc t = .awake → (s.step (t, .resume)).isSome) ∧
    (s.pc t = .idle → (s.step (t, .post)).isSome ∧ (s.step (t, .postAll)).isSome)
  /-- `post_all_sem` grants the sleepers, returns their number and leaves `max(val, 0)` -/
  postAll : s.sem.postAllSem = some (s.sem.sleeplist.reverse, ⟨max s.sem.val 0, []⟩) ∧
    s.sem.postAllRet = some (s.sem.sleeplist.length : ℤ)
  /-- a lock that only holders post has one holder -/
  lock : v = 1 → s.proper = true → (s.held ++ s.granted).length ≤ 1

end SemSys

/-! ## The invariant -/

/-- What every step keeps. -/
structure SemOk (v : ℕ) (s : SemSys) : Prop where
  even : s.sem.Even
  nodup : (s.sem.sleeplist ++ s.granted).Nodup
  listed : ∀ t, t ∈ s.sem.sleeplist ↔ s.pc t ≠ .idle ∧ s.up t = false
  granted : ∀ t, t ∈ s.granted ↔ s.pc t ≠ .idle ∧ s.up t = true
  account : s.sem.val = v + s.posts - s.successes - (s.sem.sleeplist ++ s.granted).length
  order : (s.grants.reverse ++ s.sem.sleeplist.reverse.map s.ticket).Pairwise (· < ·)
  clock : ∀ x ∈ s.grants.reverse ++ s.sem.sleeplist.reverse.map s.ticket, x < s.clock
  proper : s.proper = true → s.held.length + s.posts = s.successes

namespace SemOk

variable {v n t u : ℕ} {s s' : SemSys} {l : List ℕ}

theorem init (v : ℕ) : SemOk v (SemSys.start v) := by
  constructor
  case even => exact Or.inl ⟨Int.natCast_nonneg v, rfl⟩
  all_goals simp [SemSys.start, Semaphore.initSem]

/-- Tokens taken by a call that has returned. -/
theorem take (h : SemOk v s) {sem : Semaphore} (heven : sem.Even)
    (hlist : sem.sleeplist = s.sem.sleeplist) (hval : sem.val = s.sem.val - n) :
    SemOk v (({ s with sem := sem } : SemSys).take t n) := by
  obtain ⟨h1, h2, h3, h4, h5, h6, h7, h8⟩ := h
  constructor
  case even => exact heven
  case account =>
    simp only [SemSys.take, hlist, hval, h5]
    push_cast
    ring
  case proper =>
    intro hp
    have := h8 hp
    simp only [SemSys.take, List.length_append, List.length_replicate]
    omega
  all_goals simpa only [SemSys.take, hlist]

/-- A wait that found no token. -/
theorem wait (h : SemOk v s) (hpc : s.pc t = .idle) (hbal : s.sem.Balanced) {r : SemPc}
    (hr : r ≠ .idle) : SemOk v { s with
      sem := ⟨s.sem.val - 1, t :: s.sem.sleeplist⟩
      up := Function.update s.up t false
      pc := Function.update s.pc t r
      ticket := Function.update s.ticket t s.clock
      clock := s.clock + 1 } := by
  obtain ⟨h1, h2, h3, h4, h5, h6, h7, h8⟩ := h
  have hsl : t ∉ s.sem.sleeplist := fun hmem => ((h3 t).mp hmem).1 hpc
  have hgr : t ∉ s.granted := fun hmem => ((h4 t).mp hmem).1 hpc
  -- the other sleepers keep their tickets
  have hmap : s.sem.sleeplist.reverse.map (Function.update s.ticket t s.clock) =
      s.sem.sleeplist.reverse.map s.ticket := by
    apply List.map_congr_left
    intro x hx
    rw [Function.update_of_ne]
    rintro rfl
    exact hsl (List.mem_reverse.mp hx)
  have hnew : s.grants.reverse ++ (t :: s.sem.sleeplist).reverse.map
      (Function.update s.ticket t s.clock) =
      (s.grants.reverse ++ s.sem.sleeplist.reverse.map s.ticket) ++ [s.clock] := by
    rw [List.reverse_cons, List.map_append, hmap]
    simp
  constructor
  case even =>
    right
    simp only [Semaphore.Balanced, List.length_cons] at hbal ⊢
    omega
  case nodup => simp [hsl, hgr, h2]
  case listed =>
    intro x
    by_cases hx : x = t
    · simp [hx, hr]
    · simp [hx, h3]
  case granted =>
    intro x
    by_cases hx : x = t
    · simp [hx, hgr]
    · simp [hx, h4]
  case account =>
    simp only [List.cons_append, List.length_cons, h5]
    push_cast
    ring
  case order =>
    simp only [hnew]
    rw [List.pairwise_append]
    refine ⟨h6, List.pairwise_singleton _ _, ?_⟩
    intro a ha b hb
    rw [List.mem_singleton] at hb
    rw [hb]
    exact h7 a ha
  case clock =>
    simp only [hnew]
    intro x hx
    rcases List.mem_append.mp hx with hx | hx
    · exact Nat.lt_succ_of_lt (h7 x hx)
    · rw [List.mem_singleton] at hx
      rw [hx]
      exact Nat.lt_succ_self _
  case proper => exact h8

/-- A granted process returns. -/
theorem resume_up (h : SemOk v s) (hpc : s.pc t = .awake) (hup : s.up t = true) :
    SemOk v (({ s with
      pc := Function.update s.pc t .idle
      granted := s.granted.erase t } : SemSys).take t 1) := by
  have hmem : t ∈ s.granted := (h.granted t).mpr ⟨by simp [hpc], hup⟩
  obtain ⟨h1, h2, h3, h4, h5, h6, h7, h8⟩ := h
  have hgr : s.granted.Nodup := (List.nodup_append.mp h2).2.1
  have hsl : t ∉ s.sem.sleeplist := by
    intro hx
    have := ((h3 t).mp hx).2
    rw [hup] at this
    cases this
  constructor
  case even => exact h1
  case nodup =>
    have : (s.sem.sleeplist ++ s.granted.erase t).Sublist (s.sem.sleeplist ++ s.granted) :=
      (List.Sublist.refl _).append List.erase_sublist
    exact this.nodup h2
  case listed =>
    intro x
    by_cases hx : x = t
    · simp [SemSys.take, hx, hsl]
    · simp [SemSys.take, hx, h3]
  case granted =>
    intro x
    by_cases hx : x = t
    · simp [SemSys.take, hx, hgr.mem_erase_iff]
    · simp [SemSys.take, hx, hgr.mem_erase_iff, h4]
  case account =>
    have hlen := List.length_erase_of_mem hmem
    have hpos := List.length_pos_of_mem hmem
    simp only [SemSys.take, List.length_append] at h5 ⊢
    rw [hlen, h5]
    omega
  case order => exact h6
  case clock => exact h7
  case proper =>
    intro hp
    have := h8 hp
    simp only [SemSys.take, List.length_append, List.length_replicate]
    omega

/-- A process that was alerted gives its wait up. -/
theorem resume_down (h : SemOk v s) (hpc : s.pc t = .awake) (hup : s.up t = false) :
    s.sem.val + 1 ≤ 0 ∧ SemOk v { s with
      sem := ⟨s.sem.val + 1, s.sem.sleeplist.erase t⟩
      pc := Function.update s.pc t .idle } := by
  have hmem : t ∈ s.sem.sleeplist := (h.listed t).mpr ⟨by simp [hpc], hup⟩
  obtain ⟨h1, h2, h3, h4, h5, h6, h7, h8⟩ := h
  have hlen := List.length_erase_of_mem hmem
  have hpos := List.length_pos_of_mem hmem
  have hbal : s.sem.Balanced := by
    rcases h1 with ⟨-, hnil⟩ | hb
    · rw [hnil] at hmem
      cases hmem
    · exact hb
  have hsl : s.sem.sleeplist.Nodup := (List.nodup_append.mp h2).1
  have hgr : t ∉ s.granted := by
    intro hx
    have := ((h4 t).mp hx).2
    rw [hup] at this
    cases this
  have hsub : (s.grants.reverse ++ (s.sem.sleeplist.erase t).reverse.map s.ticket).Sublist
      (s.grants.reverse ++ s.sem.sleeplist.reverse.map s.ticket) :=
    (List.Sublist.refl _).append ((List.reverse_sublist.mpr List.erase_sublist).map _)
  have hval : s.sem.val = -(s.sem.sleeplist.length : ℤ) := hbal
  refine ⟨by omega, ?_⟩
  constructor
  case even =>
    right
    simp only [Semaphore.Balanced, hlen]
    omega
  case nodup =>
    have : (s.sem.sleeplist.erase t ++ s.granted).Sublist (s.sem.sleeplist ++ s.granted) :=
      List.erase_sublist.append (List.Sublist.refl _)
    exact this.nodup h2
  case listed =>
    intro x
    by_cases hx : x = t
    · simp [hx, hsl.mem_erase_iff]
    · simp [hx, hsl.mem_erase_iff, h3]
  case granted =>
    intro x
    by_cases hx : x = t
    · simp [hx, hgr]
    · simp [hx, h4]
  case account =>
    simp only [List.length_append] at h5 ⊢
    rw [hlen, h5]
    omega
  case order => exact h6.sublist hsub
  case clock => exact fun x hx => h7 x (hsub.subset hx)
  case proper => exact h8

/-- A post takes the oldest sleeper off the list. -/
theorem grant (h : SemOk v s) (hl : s.sem.sleeplist = l ++ [u]) {p : Bool} {w : List ℕ}
    (hp : p = true → w.length + (s.posts + 1) = s.successes) :
    SemOk v (({ s with
      sem := ⟨s.sem.val + 1, l⟩
      posts := s.posts + 1
      proper := p
      held := w } : SemSys).grant u) := by
  have hmem : u ∈ s.sem.sleeplist := by simp [hl]
  obtain ⟨h1, h2, h3, h4, h5, h6, h7, h8⟩ := h
  have hbal : s.sem.Balanced := by
    rcases h1 with ⟨-, hnil⟩ | hb
    · rw [hnil] at hmem
      cases hmem
    · exact hb
  have hu := (h3 u).mp hmem
  rw [hl] at h2
  have hul : u ∉ l := by
    intro hx
    rw [List.append_assoc, List.nodup_append] at h2
    exact h2.2.2 u hx u (by simp) rfl
  have hug : u ∉ s.granted := by
    intro hx
    have := ((h4 u).mp hx).2
    rw [hu.2] at this
    cases this
  have hsame : (s.ticket u :: s.grants).reverse ++ l.reverse.map s.ticket =
      s.grants.reverse ++ s.sem.sleeplist.reverse.map s.ticket := by
    rw [hl]
    simp
  constructor
  case even =>
    right
    simp only [Semaphore.Balanced, hl, List.length_append, List.length_singleton] at hbal
    simp only [SemSys.grant, Semaphore.Balanced]
    omega
  case nodup =>
    simp only [SemSys.grant]
    rw [List.append_assoc] at h2
    exact h2
  case listed =>
    intro x
    have hx3 := h3 x
    rw [hl] at hx3
    by_cases hx : x = u
    · simp [SemSys.grant, hx, hul]
    · simp only [List.mem_append, List.mem_singleton, hx, or_false] at hx3
      simp [SemSys.grant, hx, hx3]
  case granted =>
    intro x
    by_cases hx : x = u
    · simp [SemSys.grant, hx]
    · simp [SemSys.grant, hx, h4]
  case account =>
    simp only [hl, List.length_append, List.length_singleton] at h5
    simp only [SemSys.grant, List.length_append, List.length_cons]
    omega
  case order =>
    simp only [SemSys.grant]
    rw [hsame]
    exact h6
  case clock =>
    simp only [SemSys.grant]
    rw [hsame]
    exact h7
  case proper => exact hp

theorem post (h : SemOk v s) {p : Bool} {w : List ℕ}
    (hp : p = true → w.length + (s.posts + 1) = s.successes) :
    ∃ r, s.sem.postSem = some r ∧ SemOk v (match r.1 with
      | none => ({ s with sem := r.2, posts := s.posts + 1, proper := p, held := w } : SemSys)
      | some u => ({ s with sem := r.2, posts := s.posts + 1, proper := p, held := w } :
          SemSys).grant u) := by
  rcases List.eq_nil_or_concat s.sem.sleeplist with hnil | ⟨l, u, hl⟩
  · have hval : ¬ s.sem.val + 1 ≤ 0 := by
      rcases h.even with ⟨hv, -⟩ | hb
      · omega
      · rw [Semaphore.Balanced, hnil] at hb
        simp only [List.length_nil, Nat.cast_zero, neg_zero] at hb
        omega
    refine ⟨(none, { s.sem with val := s.sem.val + 1 }), by rw [Semaphore.postSem, if_neg hval], ?_⟩
    obtain ⟨h1, h2, h3, h4, h5, h6, h7, h8⟩ := h
    constructor
    case even => exact Or.inl ⟨by simp only; omega, hnil⟩
    case account =>
      simp only
      rw [h5]
      push_cast
      ring
    case proper => exact hp
    all_goals assumption
  · rw [List.concat_eq_append] at hl
    have hbal : s.sem.Balanced := by
      rcases h.even with ⟨-, hnil⟩ | hb
      · rw [hnil] at hl
        simp at hl
      · exact hb
    exact ⟨(some u, ⟨s.sem.val + 1, l⟩), hbal.postSem hl, h.grant hl hp⟩

/-- `post_all_sem` grants the sleepers one by one. -/
theorem grant_all (n : ℕ) (h : SemOk v s) (hn : s.sem.sleeplist.length = n)
    (hbal : s.sem.Balanced) (hp : s.proper = false) :
    SemOk v (s.sem.sleeplist.reverse.foldl SemSys.grant
      { s with sem := ⟨0, []⟩, posts := s.posts + s.sem.sleeplist.length }) := by
  induction n generalizing s with
  | zero =>
      have hnil := List.length_eq_zero_iff.mp hn
      have hsem : s.sem = ⟨0, []⟩ := by
        obtain ⟨⟨val, l⟩, _⟩ := s
        simp only at hnil
        subst hnil
        simpa [Semaphore.Balanced] using hbal
      simp only [hnil, List.reverse_nil, List.foldl_nil, List.length_nil, Nat.add_zero]
      rw [← hsem]
      exact h
  | succ n ih =>
      rcases List.eq_nil_or_concat s.sem.sleeplist with hnil | ⟨l, u, hl⟩
      · rw [hnil] at hn
        cases hn
      · rw [List.concat_eq_append] at hl
        have hlen : l.length = n := by
          rw [hl] at hn
          simpa using hn
        have hg := h.grant hl (p := false) (w := s.held) (by simp)
        have hbal' : (⟨s.sem.val + 1, l⟩ : Semaphore).Balanced := by
          simp only [Semaphore.Balanced, hl, List.length_append, List.length_singleton] at hbal ⊢
          omega
        have := ih hg hlen hbal' rfl
        simp only [hl, List.reverse_append, List.reverse_singleton, List.singleton_append,
          List.foldl_cons, List.length_append, List.length_singleton]
        rw [hp, show s.posts + (l.length + 1) = s.posts + 1 + l.length by omega]
        exact this

/-- Only who is asleep, awake or killed has changed. -/
theorem congr (h : SemOk v s) {pc' : ℕ → SemPc} {killed' : ℕ → Bool}
    (hpc : ∀ t, pc' t = .idle ↔ s.pc t = .idle) :
    SemOk v { s with pc := pc', killed := killed' } := by
  obtain ⟨h1, h2, h3, h4, h5, h6, h7, h8⟩ := h
  constructor
  case listed =>
    intro t
    rw [Ne, hpc t]
    exact h3 t
  case granted =>
    intro t
    rw [Ne, hpc t]
    exact h4 t
  all_goals assumption

/-- **Every step keeps the invariant.** -/
theorem step {i : ℕ × SemAct} (h : SemOk v s) (hs : s.step i = some s') : SemOk v s' := by
  obtain ⟨t, a⟩ := i
  cases a with
  | wait alertable =>
      simp only [SemSys.step] at hs
      split at hs
      · rename_i hpc
        rcases h.even.cases with ⟨hv, hnil⟩ | hbal
        · have hw : s.sem.waitSem t = (true, { s.sem with val := s.sem.val - 1 }) := by
            rw [Semaphore.waitSem, if_pos (by omega)]
          rw [hw] at hs
          cases hs
          exact h.take (Or.inl ⟨by simp only; omega, hnil⟩) rfl rfl
        · rw [Semaphore.waitSem_of_balanced hbal] at hs
          cases hs
          exact h.wait hpc hbal (by simp)
      · cases hs
  | sleep =>
      simp only [SemSys.step] at hs
      split at hs
      · rename_i a hpc
        cases hs
        apply h.congr
        intro u
        by_cases hu : u = t
        · rw [hu, Function.update_self, hpc]
          split <;> simp
        · rw [Function.update_of_ne hu]
      · cases hs
  | resume =>
      simp only [SemSys.step] at hs
      split_ifs at hs with hpc hup hval
      · cases hs
        exact h.resume_up hpc hup
      · cases hs
        exact (h.resume_down hpc (by simpa using hup)).2
  | post =>
      simp only [SemSys.step] at hs
      split_ifs at hs with hpc
      obtain ⟨r, hr, hok⟩ := h.post (p := s.proper && decide (t ∈ s.held)) (w := s.held.erase t) (by
        intro hp
        simp only [Bool.and_eq_true, decide_eq_true_eq] at hp
        have hlen := List.length_erase_of_mem hp.2
        have hpos := List.length_pos_of_mem hp.2
        have := h.proper hp.1
        omega)
      rw [hr, Option.map_some] at hs
      cases hs
      exact hok
  | postAll =>
      simp only [SemSys.step] at hs
      split_ifs at hs with hpc
      rw [(Semaphore.postAllSem_of_even h.even).1, Option.map_some] at hs
      cases hs
      have h0 : SemOk v { s with proper := false } := { h with proper := by simp }
      rcases h.even with ⟨hv, hnil⟩ | hbal
      · have hsem : (⟨max s.sem.val 0, []⟩ : Semaphore) = s.sem := by
          rw [max_eq_left hv, ← hnil]
        simp only [hnil, List.reverse_nil, List.foldl_nil, List.length_nil, Nat.add_zero, hsem]
        exact h0
      · have hmax : max s.sem.val 0 = 0 := by
          rw [hbal]
          simp
        rw [hmax, List.length_reverse]
        exact h0.grant_all _ rfl hbal rfl
  | get =>
      simp only [SemSys.step] at hs
      split at hs
      · rw [Semaphore.getSem] at hs
        split_ifs at hs with hv
        · cases hs
          refine h.take ?_ rfl rfl
          rcases h.even.cases with ⟨hv', hnil⟩ | hbal
          · exact Or.inl ⟨by simp only; omega, hnil⟩
          · rw [hbal] at hv
            omega
        · cases hs
          exact h
      · cases hs
  | getAll =>
      simp only [SemSys.step] at hs
      split_ifs at hs with hpc
      cases hs
      rw [Semaphore.getAllSem]
      split_ifs with hv
      · refine h.take ?_ rfl ?_
        · rcases h.even.cases with ⟨-, hnil⟩ | hbal
          · exact Or.inl ⟨le_refl 0, hnil⟩
          · rw [hbal] at hv
            omega
        · simp only [Int.toNat_of_nonneg hv.le, sub_self]
      · exact h.take h.even rfl (by simp)
  | kill =>
      cases hs
      exact h.congr fun _ => Iff.rfl
  | alert =>
      simp only [SemSys.step, Option.some.injEq] at hs
      rw [← hs]
      split_ifs with hpc
      · apply h.congr
        intro u
        by_cases hu : u = t
        · simp [hu, hpc]
        · simp [hu]
      · exact h

/-- The counter never falls below the number of sleepers. -/
theorem val_ge (h : SemOk v s) : 0 ≤ s.sem.val + s.sem.sleeplist.length := by
  rcases h.even with ⟨hv, -⟩ | hb
  · omega
  · rw [hb]
    omega

theorem tally (h : SemOk v s) : s.Tally v := by
  have hge := h.val_ge
  have hacc := h.account
  rw [List.length_append] at hacc
  constructor
  case nonneg =>
    intro hv
    rcases h.even with ⟨-, hnil⟩ | hb
    · exact hnil
    · rw [hb] at hv
      exact List.length_eq_zero_iff.mp (by omega)
  case neg =>
    intro hv
    rcases h.even with ⟨hv', -⟩ | hb
    · omega
    · rw [hb]
      simp
  case waiting =>
    refine ⟨h.nodup, ?_⟩
    intro t
    rw [List.mem_append, h.listed, h.granted]
    cases s.up t <;> simp
  case account => exact h.account
  case range =>
    push_cast at hacc
    exact ⟨by omega, by omega⟩
  case order => exact h.order
  case consumed =>
    push_cast at hacc
    omega
  case asserts =>
    intro t
    refine ⟨?_, ?_⟩
    · intro hpc
      cases hup : s.up t with
      | true => simp [SemSys.step, hpc, hup]
      | false => simp [SemSys.step, hpc, hup, (h.resume_down hpc hup).1]
    · intro hpc
      obtain ⟨r, hr, -⟩ := h.post (p := false) (w := []) (by simp)
      refine ⟨?_, ?_⟩
      · simp [SemSys.step, hpc, hr]
      · simp [SemSys.step, hpc, (Semaphore.postAllSem_of_even h.even).1]
  case postAll => exact Semaphore.postAllSem_of_even h.even
  case lock =>
    intro hv hp
    have := h.proper hp
    rw [List.length_append]
    push_cast at hacc
    omega

end SemOk

/-- **The semaphore invariant**, in every run of any number of processes. -/
theorem semaphore_tally {v : ℕ} {s : SemSys}
    (h : Reach SemSys.step (fun _ _ => True) (SemSys.start v) s) : s.Tally v := by
  apply SemOk.tally
  apply h.invariant (SemOk.init v)
  intro s i s' hs _ hstep
  exact hs.step hstep

/-- A lock taken by process 0: process 1 is alerted in its sleep before the post that grants it the
lock, process 2 is killed on its way into the scheduler, and process 3 waits on. -/
theorem semaphore_tally_alerted : ∃ s, Reach SemSys.step (fun _ _ => True) (SemSys.start 1) s ∧
    s.pc 1 = .awake ∧ s.up 1 = true ∧ s.pc 2 = .awake ∧ s.up 2 = false ∧ s.sem = ⟨-2, [3, 2]⟩ ∧
      s.Tally 1 := by
  have hinit : Reach SemSys.step (fun _ _ => True) (SemSys.start 1) (SemSys.start 1) := .init
  have hrun := hinit.of_runs [(0, .wait true), (1, .wait true), (1, .sleep), (2, .wait false),
    (2, .kill), (2, .sleep), (3, .wait false), (1, .alert), (3, .sleep), (0, .post)] rfl
  exact ⟨_, hrun, rfl, rfl, rfl, rfl, rfl, semaphore_tally hrun⟩

end OsLab
