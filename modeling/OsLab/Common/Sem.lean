import Mathlib.Data.List.Basic
import Mathlib.Data.Int.Basic
import Mathlib.Tactic.Ring

/-!
# Semaphores

The semaphores of `common/sem.c`.  A `Semaphore` is its counter and the list of
the processes asleep on it.  `_insert_into_list` links a new sleeper right after
the list head and `_post_sem` takes the one before it, so the list is kept here
with the latest sleeper first and a post wakes the last one.

Each definition is the code run while the semaphore's spinlock is held.
`_wait_sem` is cut where it calls the scheduler: `waitSem` is the part before,
and a process it puts to sleep goes on only after a post has taken it off the
list.

## Main definitions

* `Semaphore.waitSem`, `Semaphore.postSem`, `Semaphore.getSem`, `Semaphore.getAllSem`,
  `Semaphore.postAllSem` — the operations.
* `Semaphore.Balanced` — a counter that no post has lifted above zero.
-/

namespace OsLab

/-- `Semaphore`: the counter, an `int` in the source, and the sleeping processes, latest first. -/
structure Semaphore where
  val : ℤ
  sleeplist : List ℕ
  deriving DecidableEq, Repr

namespace Semaphore

/-- `init_sem` -/
def initSem (v : ℤ) : Semaphore := ⟨v, []⟩

/-- `_get_sem`: take a token if there is one. -/
def getSem (s : Semaphore) : Bool × Semaphore :=
  if s.val > 0 then (true, { s with val := s.val - 1 }) else (false, s)

/-- `_wait_sem` up to the call of the scheduler.  The answer says whether a token
was there; if not, process `t` is now asleep. -/
def waitSem (s : Semaphore) (t : ℕ) : Bool × Semaphore :=
  if s.val - 1 ≥ 0 then (true, { s with val := s.val - 1 })
  else (false, ⟨s.val - 1, t :: s.sleeplist⟩)

/-- `_post_sem`, with the process it wakes.  `none` is the failed `ASSERT` on an
empty sleep list. -/
def postSem (s : Semaphore) : Option (Option ℕ × Semaphore) :=
  if s.val + 1 ≤ 0 then
    match s.sleeplist.getLast? with
    | none => none
    | some t => some (some t, ⟨s.val + 1, s.sleeplist.dropLast⟩)
  else some (none, { s with val := s.val + 1 })

/-- The `do … while (!_get_sem(sem))` loop of `post_all_sem`, with the processes
it wakes; `fuel` bounds the number of rounds. -/
def postAllFrom : ℕ → Semaphore → Option (List ℕ × Semaphore)
  | 0, _ => none
  | fuel + 1, s => do
      let (woken, s) ← s.postSem
      let (got, s) := s.getSem
      if got then some (woken.toList, s)
      else do
        let (more, s) ← postAllFrom fuel s
        some (woken.toList ++ more, s)

/-- `post_all_sem`: a counter at `-k` takes `k + 1` rounds to become positive. -/
def postAllSem (s : Semaphore) : Option (List ℕ × Semaphore) :=
  postAllFrom ((-s.val).toNat + 1) s

/-- The value `post_all_sem` returns: `ret` starts at `-1` and counts the rounds. -/
def postAllRetFrom : ℕ → Semaphore → ℤ → Option ℤ
  | 0, _, _ => none
  | fuel + 1, s, ret => do
      let (_, s) ← s.postSem
      let (got, s) := s.getSem
      if got then some (ret + 1) else postAllRetFrom fuel s (ret + 1)

def postAllRet (s : Semaphore) : Option ℤ := postAllRetFrom ((-s.val).toNat + 1) s (-1)

/-- `get_all_sem`: take every token, with their number. -/
def getAllSem (s : Semaphore) : ℤ × Semaphore :=
  if s.val > 0 then (s.val, { s with val := 0 }) else (0, s)

/-- No token is stored, and the counter says how many processes are asleep. -/
def Balanced (s : Semaphore) : Prop := s.val = -s.sleeplist.length

@[simp] theorem balanced_initSem : (initSem 0).Balanced := by simp [Balanced, initSem]

/-- A wait on a balanced semaphore always puts the caller to sleep. -/
theorem waitSem_of_balanced {s : Semaphore} (h : s.Balanced) (t : ℕ) :
    s.waitSem t = (false, ⟨s.val - 1, t :: s.sleeplist⟩) := by
  have hv : ¬ s.val - 1 ≥ 0 := by rw [h]; omega
  rw [waitSem, if_neg hv]

theorem Balanced.sleep {s : Semaphore} (h : s.Balanced) (t : ℕ) :
    (⟨s.val - 1, t :: s.sleeplist⟩ : Semaphore).Balanced := by
  simp only [Balanced, List.length_cons] at h ⊢
  omega

theorem balanced_waitSem {s : Semaphore} (h : s.Balanced) (t : ℕ) :
    (s.waitSem t).2.Balanced := by
  rw [waitSem_of_balanced h]
  exact h.sleep t

/-- The oldest sleeper stands at the end of the list. -/
theorem Balanced.wake {s : Semaphore} (h : s.Balanced) {l : List ℕ} {t : ℕ}
    (hl : s.sleeplist = l ++ [t]) : (⟨s.val + 1, l⟩ : Semaphore).Balanced := by
  simp only [Balanced, hl, List.length_append, List.length_singleton] at h ⊢
  omega

/-- There is no token to take. -/
theorem Balanced.getSem {s : Semaphore} (h : s.Balanced) : s.getSem = (false, s) := by
  have hv : ¬ s.val > 0 := by rw [h]; omega
  rw [Semaphore.getSem, if_neg hv]

/-- A post wakes the oldest sleeper. -/
theorem Balanced.postSem {s : Semaphore} (h : s.Balanced) {l : List ℕ} {t : ℕ}
    (hl : s.sleeplist = l ++ [t]) : s.postSem = some (some t, ⟨s.val + 1, l⟩) := by
  have hv : s.val + 1 ≤ 0 := by
    have := h.wake hl
    simp only [Balanced] at this
    omega
  simp [Semaphore.postSem, hv, hl]

/-- A post wakes a sleeper. -/
theorem mem_of_postSem {s s' : Semaphore} {t : ℕ} (h : s.postSem = some (some t, s')) :
    t ∈ s.sleeplist := by
  simp only [postSem] at h
  split_ifs at h
  · cases hl : s.sleeplist.getLast? with
    | none => simp [hl] at h
    | some u =>
        simp only [hl, Option.some.injEq, Prod.mk.injEq] at h
        rw [← h.1]
        exact List.mem_of_getLast? hl
  · simp at h

/-- A wait that finds no token puts the process on the list, and another one leaves it. -/
theorem sleeplist_of_waitSem {s s' : Semaphore} {t : ℕ} {got : Bool}
    (h : s.waitSem t = (got, s')) :
    s'.sleeplist = if got then s.sleeplist else t :: s.sleeplist := by
  simp only [waitSem] at h
  split_ifs at h <;> obtain ⟨rfl, rfl⟩ := Prod.mk.inj h <;> rfl

/-- A post takes nobody else off the list. -/
theorem mem_sleeplist_of_postSem {s s' : Semaphore} {w : Option ℕ}
    (h : s.postSem = some (w, s')) {u : ℕ} (hu : u ∈ s.sleeplist) (hw : w ≠ some u) :
    u ∈ s'.sleeplist := by
  simp only [postSem] at h
  split_ifs at h
  · cases hl : s.sleeplist.getLast? with
    | none => simp [hl] at h
    | some t =>
        simp only [hl, Option.some.injEq, Prod.mk.injEq] at h
        obtain ⟨rfl, rfl⟩ := h
        rw [← List.dropLast_append_getLast? t hl, List.mem_append] at hu
        rcases hu with hu | hu
        · exact hu
        · rw [List.mem_singleton.mp hu] at hw
          exact absurd rfl hw
  · simp only [Option.some.injEq, Prod.mk.injEq] at h
    obtain ⟨-, rfl⟩ := h
    exact hu

theorem postAllFrom_of_balanced (n : ℕ) {s : Semaphore} (h : s.Balanced)
    (hn : s.sleeplist.length = n) :
    postAllFrom (n + 1) s = some (s.sleeplist.reverse, initSem 0) := by
  induction n generalizing s with
  | zero =>
      obtain ⟨v, l⟩ := s
      obtain rfl : l = [] := List.length_eq_zero_iff.mp hn
      have hv : v = 0 := by simpa [Balanced] using h
      subst hv
      rfl
  | succ n ih =>
      obtain ⟨v, l⟩ := s
      obtain ⟨l, t, rfl⟩ : ∃ l' t, l = l' ++ [t] := by
        rcases List.eq_nil_or_concat l with rfl | ⟨l', t, rfl⟩
        · simp at hn
        · exact ⟨l', t, by simp⟩
      have hl : l.length = n := by simpa using hn
      rw [postAllFrom, h.postSem rfl]
      simp [(h.wake rfl).getSem, ih (h.wake rfl) hl]

/-- **`post_all_sem` wakes every sleeper**, oldest first, and stores no token. -/
theorem postAllSem_of_balanced {s : Semaphore} (h : s.Balanced) :
    s.postAllSem = some (s.sleeplist.reverse, initSem 0) := by
  have hf : (-s.val).toNat = s.sleeplist.length := by
    rw [h]
    simp
  rw [postAllSem, hf]
  exact postAllFrom_of_balanced _ h rfl

theorem postAllRetFrom_of_balanced (n : ℕ) {s : Semaphore} (h : s.Balanced)
    (hn : s.sleeplist.length = n) (r : ℤ) : postAllRetFrom (n + 1) s r = some (r + n + 1) := by
  induction n generalizing s r with
  | zero =>
      obtain ⟨v, l⟩ := s
      obtain rfl : l = [] := List.length_eq_zero_iff.mp hn
      have hv : v = 0 := by simpa [Balanced] using h
      subst hv
      simp [postAllRetFrom, postSem, getSem]
  | succ n ih =>
      obtain ⟨v, l⟩ := s
      rcases List.eq_nil_or_concat l with rfl | ⟨l', t, rfl⟩
      · simp at hn
      · rw [List.concat_eq_append] at h hn ⊢
        have hl : l'.length = n := by simpa using hn
        rw [postAllRetFrom, h.postSem rfl]
        simp only [Option.bind_eq_bind, Option.bind_some, (h.wake rfl).getSem, Bool.false_eq_true,
          if_false]
        rw [ih (h.wake rfl) hl]
        push_cast
        congr 1
        ring

/-- The counter is not negative and nobody sleeps, or it says how many sleep. -/
def Even (s : Semaphore) : Prop := (0 ≤ s.val ∧ s.sleeplist = []) ∨ s.Balanced

/-- A token is there, or a wait goes to sleep. -/
theorem Even.cases {s : Semaphore} (h : s.Even) :
    (0 < s.val ∧ s.sleeplist = []) ∨ s.Balanced := by
  rcases h with ⟨hv, hl⟩ | hb
  · rcases hv.lt_or_eq with hv | hv
    · exact Or.inl ⟨hv, hl⟩
    · refine Or.inr ?_
      rw [Balanced, hl, ← hv]
      rfl
  · exact Or.inr hb

/-- **`post_all_sem`** wakes exactly the sleepers, oldest first, returns their number and leaves
the counter at `max(val, 0)`. -/
theorem postAllSem_of_even {s : Semaphore} (h : s.Even) :
    s.postAllSem = some (s.sleeplist.reverse, ⟨max s.val 0, []⟩) ∧
      s.postAllRet = some (s.sleeplist.length : ℤ) := by
  rcases h with ⟨hv, hl⟩ | hb
  · obtain ⟨v, l⟩ := s
    simp only at hv hl
    subst hl
    have hf : (-v).toNat = 0 := by omega
    have hp : ¬ v + 1 ≤ 0 := by omega
    have hg : 0 < v + 1 := by omega
    constructor
    · simp [postAllSem, hf, postAllFrom, postSem, hp, getSem, hg, hv]
    · simp [postAllRet, hf, postAllRetFrom, postSem, hp, getSem, hg]
  · have hf : (-s.val).toNat = s.sleeplist.length := by
      rw [hb]
      simp
    constructor
    · rw [postAllSem_of_balanced hb]
      have : max s.val 0 = 0 := by
        rw [hb]
        simp
      rw [this]
      rfl
    · rw [postAllRet, hf, postAllRetFrom_of_balanced _ hb rfl]
      congr 1
      ring

end Semaphore

end OsLab
