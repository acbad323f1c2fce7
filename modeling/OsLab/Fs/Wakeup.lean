import OsLab.Fs.LogProtocol
import OsLab.Mkfs.Layout

/-!
# Waiting for a commit

A thread decides under the log lock that it has to wait, drops the lock, and only
then waits on `s1`, `s2` or `s3`.  The thread that commits posts each of the three
once.  A post that falls between the decision and the wait is lost, and if no other
operation follows the thread sleeps for ever (`lost_wakeup`).

`Prompt` is the condition under which this does not happen: the committing thread
posts a semaphore only while every thread that has decided to wait on it is asleep
on it.

## Main definitions

* `LogSem`, `Pc.waitsFor`, `Pc.willPost` — who waits and who is going to post.
* `LogSys.Stuck` — nobody is left who could wake a sleeper.
* `Prompt` — the condition on a step.
* `Coming`, `Coming.step` — the invariant, kept by every prompt step.
* `not_stuck` — the result over runs.
-/

namespace OsLab

/-- The semaphores of the log. -/
inductive LogSem
  | s1
  | s2
  | s3
  deriving DecidableEq, Repr

/-- The semaphore a thread has decided to wait on. -/
def Pc.waitsFor : Pc → Option LogSem
  | .waitS1 | .asleepS1 => some .s1
  | .leaving | .waitS2 | .asleepS2 => some .s2
  | .waitS3 | .asleepS3 => some .s3
  | _ => none

/-- Asleep on a semaphore. -/
def Pc.asleep : LogSem → Pc
  | .s1 => .asleepS1
  | .s2 => .asleepS2
  | .s3 => .asleepS3

/-- About to post a semaphore after a commit. -/
def Pc.post : LogSem → Pc
  | .s1 => .postS1
  | .s2 => .postS2
  | .s3 => .postS3

/-- The thread goes on to post the semaphore after its commit, or is in an operation whose end
brings about a commit. -/
def Pc.willPost : LogSem → Pc → Bool
  | .s1, .inOp | .s1, .commit _ | .s1, .postS1 => true
  | .s2, .inOp | .s2, .commit _ | .s2, .postS1 | .s2, .postS2 => true
  | .s3, .commit _ | .s3, .postS1 | .s3, .postS2 | .s3, .postS3 => true
  | _, _ => false

/-- The thread is not in `cache_begin_op` or `cache_end_op`, or it is asleep there. -/
def Pc.Rests (p : Pc) : Prop := p = .out ∨ p = .inOp ∨ p = .returned ∨ ∃ k, p = .asleep k

namespace LogSys

def sem (s : LogSys) : LogSem → Semaphore
  | .s1 => s.s1
  | .s2 => s.s2
  | .s3 => s.s3

def setSem : LogSem → LogSys → Semaphore → LogSys
  | .s1 => setS1
  | .s2 => setS2
  | .s3 => setS3

/-- No operation is outstanding and no commit is running, every thread is outside the two
calls or asleep, and one is asleep. -/
def Stuck (s : LogSys) : Prop :=
  s.log.outstanding = 0 ∧ s.log.committing = false ∧ (∀ t, (s.pc t).Rests) ∧
    ∃ t k, s.pc t = .asleep k

end LogSys

/-- The condition on a step: a commit's post finds every thread that has decided to wait on
the semaphore asleep on it. -/
def Prompt (s : LogSys) : ℕ × Act → Prop
  | (t, .run) => ∀ k, s.pc t = .post k → ∀ u, (s.pc u).waitsFor = some k → s.pc u = .asleep k
  | _ => True

/-! ## The invariant -/

/-- A post is still coming for every thread that has decided to wait. -/
structure Coming (s : LogSys) : Prop where
  listed : ∀ t k, s.pc t = .asleep k → t ∈ (s.sem k).sleeplist
  committer : s.log.committing = true → ∃ t ph, s.pc t = .commit ph
  empty : s.log.committing = false → s.ctxs = [] → s.log.header.numBlocks = 0
  inOp : ∀ t, s.pc t = .inOp → t ∈ s.ctxs.map Prod.fst
  post : ∀ t k, (s.pc t).waitsFor = some k → ∃ u, (s.pc u).willPost k = true

namespace Coming

variable {sb : SuperBlock} {s s' : LogSys} {t u b : ℕ} {k : LogSem} {ph : Phase}

theorem waitsFor_asleep (k : LogSem) : (Pc.asleep k).waitsFor = some k := by
  cases k <;> rfl

/-- The points at which a thread is not asleep. -/
theorem ne_asleep {p : Pc} : (∀ k, ¬ p = .asleep k) ↔ p ≠ .asleepS1 ∧ p ≠ .asleepS2 ∧ p ≠ .asleepS3 :=
  ⟨fun h => ⟨h .s1, h .s2, h .s3⟩, fun h k => by
    cases k
    · exact h.1
    · exact h.2.1
    · exact h.2.2⟩

/-- A thread that waits posts nothing meanwhile. -/
theorem willPost_of_waitsFor {p : Pc} (h : p.waitsFor = some k) (k' : LogSem) :
    p.willPost k' = false := by
  cases p <;> cases k' <;> simp_all [Pc.waitsFor, Pc.willPost]

theorem init (disk : ℕ → Sector) : Coming (LogSys.start disk) := by
  constructor
  · intro t k h
    cases k <;> cases h
  · intro h
    cases h
  · intro _ _
    rfl
  · intro t h
    cases h
  · intro t k h
    cases h

/-- **A step of one thread**, which may wake others. -/
theorem of_moves (h : Coming s)
    (hpc : ∀ u, u ≠ t → s'.pc u = s.pc u ∨
      ((∃ k, s.pc u = .asleep k) ∧ (s'.pc u = .entering ∨ s'.pc u = .returned)))
    (hlisted : ∀ u k, s'.pc u = .asleep k → u ∈ (s'.sem k).sleeplist)
    (hcom : s'.log.committing = true → (∃ ph, s'.pc t = .commit ph) ∨
      (s.log.committing = true ∧ ∀ ph, s.pc t ≠ .commit ph))
    (hempty : s'.log.committing = false → s'.ctxs = [] → s'.log.header.numBlocks = 0)
    (hin : ∀ u, s'.pc u = .inOp → u ∈ s'.ctxs.map Prod.fst)
    (hpost : ∀ k, (∃ u, (s'.pc u).waitsFor = some k) → (s'.pc t).willPost k = true ∨
      ∃ u, u ≠ t ∧ (s.pc u).willPost k = true) : Coming s' := by
  constructor
  · exact hlisted
  · intro hc
    rcases hcom hc with ⟨ph, hp⟩ | ⟨hc', hno⟩
    · exact ⟨t, ph, hp⟩
    · obtain ⟨u, ph, hu⟩ := h.committer hc'
      have hut : u ≠ t := by
        intro hut
        rw [hut] at hu
        exact hno ph hu
      rcases hpc u hut with hsame | ⟨⟨k, hk⟩, -⟩
      · exact ⟨u, ph, hsame.trans hu⟩
      · rw [hu] at hk
        cases k <;> cases hk
  · exact hempty
  · exact hin
  · intro u k hu
    rcases hpost k ⟨u, hu⟩ with hp | ⟨v, hvt, hv⟩
    · exact ⟨t, hp⟩
    · rcases hpc v hvt with hsame | ⟨⟨k', hk⟩, -⟩
      · exact ⟨v, hsame ▸ hv⟩
      · rw [hk, willPost_of_waitsFor (waitsFor_asleep k')] at hv
        cases hv

/-- A thread that waits in the new state waited before, or is the one that moved. -/
theorem waits_before (hpc : ∀ u, u ≠ t → s'.pc u = s.pc u)
    (hu : (s'.pc u).waitsFor = some k) : u = t ∨ (s.pc u).waitsFor = some k := by
  by_cases hut : u = t
  · exact Or.inl hut
  · rw [hpc u hut] at hu
    exact Or.inr hu

/-- **A step of one thread that wakes nobody** and goes on posting whatever it would have posted. -/
theorem of_move (h : Coming s) (hpc : ∀ u, u ≠ t → s'.pc u = s.pc u)
    (hsem : s'.s1 = s.s1 ∧ s'.s2 = s.s2 ∧ s'.s3 = s.s3)
    (hasleep : ∀ k, s'.pc t ≠ .asleep k)
    (hcom : s'.log.committing = true → (∃ ph, s'.pc t = .commit ph) ∨
      (s.log.committing = true ∧ ∀ ph, s.pc t ≠ .commit ph))
    (hempty : s'.log.committing = false → s'.ctxs = [] → s'.log.header.numBlocks = 0)
    (hin : ∀ u, s'.pc u = .inOp → u ∈ s'.ctxs.map Prod.fst)
    (hwill : ∀ k, (s.pc t).willPost k = true → (s'.pc t).willPost k = true ∨
      ∃ u, u ≠ t ∧ (s.pc u).willPost k = true)
    (hwait : ∀ k, (s'.pc t).waitsFor = some k → ∃ u, (s.pc u).willPost k = true) :
    Coming s' := by
  refine h.of_moves (t := t) (fun u hu => Or.inl (hpc u hu)) ?_ hcom hempty hin ?_
  · intro u k hu
    have hut : u ≠ t := by
      intro hut
      rw [hut] at hu
      exact hasleep k hu
    rw [hpc u hut] at hu
    have hmem := h.listed u k hu
    obtain ⟨h1, h2, h3⟩ := hsem
    cases k
    · simpa [LogSys.sem, h1] using hmem
    · simpa [LogSys.sem, h2] using hmem
    · simpa [LogSys.sem, h3] using hmem
  · intro k hk
    obtain ⟨u, hu⟩ := hk
    have hv : ∃ v, (s.pc v).willPost k = true := by
      rcases waits_before hpc hu with hut | hu'
      · rw [hut] at hu
        exact hwait k hu
      · exact h.post u k hu'
    obtain ⟨v, hv⟩ := hv
    by_cases hvt : v = t
    · rw [hvt] at hv
      exact hwill k hv
    · exact Or.inr ⟨v, hvt, hv⟩

/-- Steps that leave the threads, the log and the contexts alone. -/
theorem congr (h : Coming s) (hpc : s'.pc = s.pc) (hlog : s'.log = s.log)
    (hctxs : s'.ctxs = s.ctxs) (h1 : s'.s1 = s.s1) (h2 : s'.s2 = s.s2) (h3 : s'.s3 = s.s3) :
    Coming s' := by
  have hsem : s'.sem = s.sem := by
    ext k : 1
    cases k
    · exact h1
    · exact h2
    · exact h3
  constructor
  · rw [hpc, hsem]
    exact h.listed
  · rw [hpc, hlog]
    exact h.committer
  · rw [hlog, hctxs]
    exact h.empty
  · rw [hpc, hctxs]
    exact h.inOp
  · rw [hpc]
    exact h.post

/-- A thread in an operation, where one is outstanding. -/
theorem exists_inOp (hP : Proto s) (hne : s.ctxs ≠ []) : ∃ u, s.pc u = .inOp := by
  obtain ⟨x, hx⟩ := List.exists_mem_of_ne_nil _ hne
  exact ⟨x.1, hP.keys x.1 (List.mem_map_of_mem hx)⟩

/-- A full log has an operation outstanding. -/
theorem ctxs_ne_nil_of_full (h : Coming s) (hP : Proto s) (hl : s.log.beginOp = .full) :
    s.ctxs ≠ [] := by
  intro hnil
  simp only [Log.beginOp] at hl
  split at hl
  · cases hl
  · rename_i hcom
    split at hl
    · rename_i hfull
      have hn := h.empty (by simpa using hcom) hnil
      have hr := hP.reserved.reserved
      rw [hnil] at hr
      rw [hn, hr] at hfull
      simp [opMaxNumBlocks_eq, logMaxSize_eq] at hfull
    · cases hl

theorem beginOp (h : Coming s) (ht : s.pc t = .out ∨ s.pc t = .returned) :
    Coming (s.goto t .entering) := by
  refine h.of_move (t := t) (fun u hu => s.goto_pc_of_ne _ hu) ⟨rfl, rfl, rfl⟩ ?_ ?_ h.empty ?_ ?_
    ?_
  · intro k
    rw [LogSys.goto_pc_self]
    cases k <;> simp [Pc.asleep]
  · intro hc
    refine Or.inr ⟨hc, fun ph hp => ?_⟩
    rcases ht with ht | ht <;> simp [ht] at hp
  · intro u hu
    by_cases hut : u = t
    · rw [hut, LogSys.goto_pc_self] at hu
      cases hu
    · rw [s.goto_pc_of_ne _ hut] at hu
      exact h.inOp u hu
  · intro k hk
    rcases ht with ht | ht <;> rw [ht] at hk <;> cases k <;> cases hk
  · intro k hk
    rw [LogSys.goto_pc_self] at hk
    cases hk

theorem sync (h : Coming s) (hs : s.sync t b = some s') : Coming s' := by
  simp only [LogSys.sync, Option.bind_eq_bind, Option.bind_eq_some_iff] at hs
  obtain ⟨rm, hrm, ⟨new, rm', l⟩, hl, hs⟩ := hs
  cases hs
  have hmem := Proto.rm_mem hrm
  have hcom : l.committing = s.log.committing := by
    simp only [Log.sync] at hl
    split at hl
    · cases hl
      rfl
    · split at hl
      · cases hl
        rfl
      · cases hl
  constructor
  · exact h.listed
  · intro hc
    exact h.committer (hcom ▸ hc)
  · intro _ hnil
    cases hnil
  · intro u hu
    have hu' := h.inOp u hu
    rw [((List.perm_cons_erase hmem).map Prod.fst).mem_iff] at hu'
    exact hu'
  · exact h.post

theorem leave (h : Coming s) (hP : Proto s) (hpc : s.pc t = .inOp) (hs : s.leave t = some s') :
    Coming s' := by
  simp only [LogSys.leave, Option.bind_eq_bind, Option.bind_eq_some_iff] at hs
  obtain ⟨rm, hrm, hs⟩ := hs
  have hmem := Proto.rm_mem hrm
  -- the other threads in an operation stay in the list
  have hin : ∀ u, u ≠ t → s.pc u = .inOp → u ∈ (s.ctxs.erase (t, rm)).map Prod.fst := by
    intro u hut hu
    have hu' := h.inOp u hu
    rw [((List.perm_cons_erase hmem).map Prod.fst).mem_iff, List.map_cons, List.mem_cons] at hu'
    exact hu'.resolve_left hut
  split at hs
  · rename_i l hl
    cases hs
    refine h.of_move (t := t) (fun u hu => s.goto_pc_of_ne _ hu) ⟨rfl, rfl, rfl⟩ ?_ ?_ ?_ ?_ ?_ ?_
    · intro k
      simp only [LogSys.goto, Function.update_self]
      cases k <;> simp [Pc.asleep]
    · intro _
      exact Or.inl ⟨.check, s.goto_pc_self _ _⟩
    · intro hc
      obtain ⟨-, -, hlast, -⟩ := hP.reserved.endOp hmem hl
      rw [(hlast rfl).2] at hc
      cases hc
    · intro u hu
      by_cases hut : u = t
      · simp only [LogSys.goto, hut, Function.update_self] at hu
        cases hu
      · exact hin u hut ((s.goto_pc_of_ne _ hut).symm.trans hu)
    · intro k hk
      simp only [LogSys.goto, Function.update_self]
      rw [hpc] at hk
      cases k
      · exact Or.inl rfl
      · exact Or.inl rfl
      · cases hk
    · intro k hk
      simp only [LogSys.goto, Function.update_self] at hk
      cases hk
  · rename_i l hl
    cases hs
    obtain ⟨hres, -, -, hcom⟩ := hP.reserved.endOp hmem hl
    have hmore : s.ctxs.erase (t, rm) ≠ [] := by
      intro hnil
      have h0 : l.outstanding = 0 := by
        rw [hres.outstanding, hnil]
        rfl
      simp only [Log.endOp] at hl
      split at hl
      · cases hl
      · rename_i hne
        cases hl
        exact hne h0
    -- another operation is outstanding, and its end posts
    obtain ⟨x, hx⟩ := List.exists_mem_of_ne_nil _ hmore
    have hxt : x.1 ≠ t := by
      intro hxt
      apply (Reserved.keys_erase hP.reserved.keys hmem).2
      have := List.mem_map_of_mem (f := Prod.fst) hx
      rwa [hxt] at this
    have hxp : s.pc x.1 = .inOp := hP.keys _ (List.mem_map_of_mem (List.mem_of_mem_erase hx))
    refine h.of_move (t := t) (fun u hu => s.goto_pc_of_ne _ hu) ⟨rfl, rfl, rfl⟩ ?_ ?_ ?_ ?_ ?_ ?_
    · intro k
      simp only [LogSys.goto, Function.update_self]
      cases k <;> simp [Pc.asleep]
    · intro hc
      refine Or.inr ⟨(hcom rfl).symm.trans hc, ?_⟩
      intro ph hp
      rw [hpc] at hp
      cases hp
    · intro _ hnil
      exact absurd hnil hmore
    · intro u hu
      by_cases hut : u = t
      · simp only [LogSys.goto, hut, Function.update_self] at hu
        cases hu
      · exact hin u hut ((s.goto_pc_of_ne _ hut).symm.trans hu)
    · intro k hk
      rw [hpc] at hk
      refine Or.inr ⟨x.1, hxt, ?_⟩
      rw [hxp]
      exact hk
    · intro k hk
      simp only [LogSys.goto, Function.update_self, Pc.waitsFor, Option.some.injEq] at hk
      refine ⟨x.1, ?_⟩
      rw [hxp, ← hk]
      rfl

theorem enter (h : Coming s) (hP : Proto s) (hpc : s.pc t = .entering) : Coming (s.enter t) := by
  have hin : ∀ {p : Pc} (u : ℕ), p ≠ .inOp → (s.goto t p).pc u = .inOp →
      u ∈ s.ctxs.map Prod.fst := by
    intro p u hp hu
    by_cases hut : u = t
    · rw [hut, LogSys.goto_pc_self] at hu
      exact absurd hu hp
    · rw [s.goto_pc_of_ne _ hut] at hu
      exact h.inOp u hu
  have hno : ∀ ph, s.pc t ≠ .commit ph := by
    intro ph hp
    rw [hpc] at hp
    cases hp
  have hnever : ∀ k, (s.pc t).willPost k = false := by
    intro k
    rw [hpc]
    cases k <;> rfl
  rw [LogSys.enter]
  split
  · rename_i hl
    have hcom : s.log.committing = true := by
      simp only [Log.beginOp] at hl
      split at hl
      · assumption
      · split at hl <;> cases hl
    refine h.of_move (t := t) (fun u hu => s.goto_pc_of_ne _ hu) ⟨rfl, rfl, rfl⟩ ?_
      (fun hc => Or.inr ⟨hc, hno⟩) h.empty (fun u hu => hin u (by simp) hu) ?_ ?_
    · intro k
      rw [LogSys.goto_pc_self]
      cases k <;> simp [Pc.asleep]
    · intro k hk
      rw [hnever k] at hk
      cases hk
    · intro k hk
      rw [LogSys.goto_pc_self] at hk
      obtain ⟨u, ph, hu⟩ := h.committer hcom
      refine ⟨u, ?_⟩
      cases hk
      rw [hu]
      rfl
  · rename_i hl
    obtain ⟨u, hu⟩ := exists_inOp hP (h.ctxs_ne_nil_of_full hP hl)
    refine h.of_move (t := t) (fun u hu => s.goto_pc_of_ne _ hu) ⟨rfl, rfl, rfl⟩ ?_
      (fun hc => Or.inr ⟨hc, hno⟩) h.empty (fun u hu => hin u (by simp) hu) ?_ ?_
    · intro k
      rw [LogSys.goto_pc_self]
      cases k <;> simp [Pc.asleep]
    · intro k hk
      rw [hnever k] at hk
      cases hk
    · intro k hk
      rw [LogSys.goto_pc_self] at hk
      refine ⟨u, ?_⟩
      cases hk
      rw [hu]
      rfl
  · rename_i rm l hl
    have hidle : l.committing = false := by
      simp only [Log.beginOp] at hl
      split at hl
      · cases hl
      · rename_i hcom
        split at hl
        · cases hl
        · cases hl
          simpa using hcom
    refine h.of_move (t := t) (fun u hu => s.goto_pc_of_ne _ hu) ⟨rfl, rfl, rfl⟩ ?_ ?_ ?_ ?_ ?_ ?_
    · intro k
      simp only [LogSys.goto, Function.update_self]
      cases k <;> simp [Pc.asleep]
    · intro hc
      rw [hidle] at hc
      cases hc
    · intro _ hnil
      cases hnil
    · intro u hu
      by_cases hut : u = t
      · simp [hut]
      · have := h.inOp u ((s.goto_pc_of_ne _ hut).symm.trans hu)
        exact List.mem_cons_of_mem _ this
    · intro k hk
      rw [hnever k] at hk
      cases hk
    · intro k hk
      simp only [LogSys.goto, Function.update_self] at hk
      cases hk

/-- `unalertable_wait_sem` by a thread that has decided to wait. -/
theorem wait (h : Coming s) (hs' : s' = s.goto t (.asleep k)) {S : LogSys} (hpc : S.pc = s'.pc)
    (hlog : S.log = s.log) (hctxs : S.ctxs = s.ctxs) (hk : (s.pc t).waitsFor = some k)
    (hself : (S.sem k).sleeplist = t :: (s.sem k).sleeplist)
    (hsem : ∀ k', k' ≠ k → S.sem k' = s.sem k') : Coming S := by
  have hne : ∀ u, u ≠ t → S.pc u = s.pc u := by
    intro u hu
    rw [hpc, hs', s.goto_pc_of_ne _ hu]
  have hself' : S.pc t = .asleep k := by
    rw [hpc, hs', LogSys.goto_pc_self]
  have hnever : ∀ k', (s.pc t).willPost k' = false :=
    fun k' => willPost_of_waitsFor hk k'
  refine h.of_moves (t := t) (fun u hu => Or.inl (hne u hu)) ?_ ?_ ?_ ?_ ?_
  · intro u k' hu
    by_cases hut : u = t
    · rw [hut, hself'] at hu
      have hkk : k' = k := by
        cases k <;> cases k' <;> first | rfl | cases hu
      rw [hut, hkk, hself]
      exact List.mem_cons_self
    · rw [hne u hut] at hu
      have hmem := h.listed u k' hu
      by_cases hkk : k' = k
      · rw [hkk] at hmem ⊢
        rw [hself]
        exact List.mem_cons_of_mem _ hmem
      · rw [hsem k' hkk]
        exact hmem
  · intro hc
    rw [hlog] at hc
    refine Or.inr ⟨hc, ?_⟩
    intro ph hp
    rw [hp] at hk
    cases hk
  · rw [hlog, hctxs]
    exact h.empty
  · intro u hu
    rw [hctxs]
    by_cases hut : u = t
    · rw [hut, hself'] at hu
      cases k <;> cases hu
    · exact h.inOp u ((hne u hut).symm.trans hu)
  · intro k' hk'
    obtain ⟨u, hu⟩ := hk'
    have hwait : (s.pc u).waitsFor = some k' := by
      by_cases hut : u = t
      · rw [hut, hself', waitsFor_asleep] at hu
        rw [hut, hk, hu]
      · rw [hne u hut] at hu
        exact hu
    obtain ⟨v, hv⟩ := h.post u k' hwait
    refine Or.inr ⟨v, ?_, hv⟩
    intro hvt
    rw [hvt, hnever k'] at hv
    cases hv

/-- What `post_all_sem` does to the threads, if it posts once for each sleeper. -/
theorem post_spec (hbal : (s.sem k).Balanced) {S : LogSys} {q next : Pc}
    (hs : s.post t (s.sem k) (LogSys.setSem k) q next = some S) :
    S.pc t = next ∧ (∀ u, u ≠ t → S.pc u = if u ∈ (s.sem k).sleeplist then q else s.pc u) ∧
      S.log = s.log ∧ S.ctxs = s.ctxs ∧ ∀ k', k' ≠ k → S.sem k' = s.sem k' := by
  rw [LogSys.post, Semaphore.postAllSem_of_balanced hbal, Option.map_some, Option.some.injEq] at hs
  subst hs
  refine ⟨LogSys.goto_pc_self _ _ _, ?_, ?_, ?_, ?_⟩
  · intro u hu
    rw [LogSys.goto_pc_of_ne _ _ hu, LogSys.wake]
    simp only [List.mem_reverse]
    cases k <;> rfl
  · cases k <;> rfl
  · cases k <;> rfl
  · intro k' hk'
    cases k <;> cases k' <;> first | rfl | exact absurd rfl hk'

/-- **`post_all_sem`** wakes every thread asleep on the semaphore.  The posts of a commit leave
nobody waiting. -/
theorem post_all (h : Coming s) (hP : Proto s) {S : LogSys} {q next : Pc}
    (hs : s.post t (s.sem k) (LogSys.setSem k) q next = some S)
    (hq : q = .entering ∨ q = .returned) (ht : ∀ k, s.pc t ≠ .asleep k)
    (hcom : ∀ ph, s.pc t ≠ .commit ph) (hop : next ≠ .inOp) (hnext : ∀ k, next ≠ .asleep k)
    (hwait : ∀ k', next.waitsFor = some k' → (s.pc t).waitsFor = some k')
    (hwill : ∀ k', (s.pc t).willPost k' = true → next.willPost k' = true ∨
      k' = k ∧ ∀ u, (s.pc u).waitsFor = some k → s.pc u = .asleep k) : Coming S := by
  have hbal : (s.sem k).Balanced := by
    obtain ⟨hb1, hb2, hb3⟩ := hP.balanced
    cases k
    · exact hb1
    · exact hb2
    · exact hb3
  have hasleep : ∀ u ∈ (s.sem k).sleeplist, s.pc u = .asleep k := by
    cases k
    · exact hP.asleep1
    · exact hP.asleep2
    · exact hP.asleep3
  obtain ⟨hself, hpc, hlog, hctxs, hsem⟩ := post_spec hbal hs
  have hmoved : ∀ u, u ≠ t → S.pc u = s.pc u ∨
      ((∃ k, s.pc u = .asleep k) ∧ (S.pc u = .entering ∨ S.pc u = .returned)) := by
    intro u hu
    rw [hpc u hu]
    split
    · rename_i hmem
      exact Or.inr ⟨⟨k, hasleep u hmem⟩, hq⟩
    · exact Or.inl rfl
  have hq' : q ≠ .inOp ∧ q.waitsFor = none := by
    rcases hq with hq | hq <;> simp [hq, Pc.waitsFor]
  -- who waits afterwards waited before and was not woken
  have hstill : ∀ u k', u ≠ t → (S.pc u).waitsFor = some k' →
      u ∉ (s.sem k).sleeplist ∧ (s.pc u).waitsFor = some k' := by
    intro u k' hut hu
    rw [hpc u hut] at hu
    split at hu
    · rw [hq'.2] at hu
      cases hu
    · exact ⟨by assumption, hu⟩
  refine h.of_moves (t := t) hmoved ?_ ?_ ?_ ?_ ?_
  · intro u k' hu
    have hut : u ≠ t := by
      intro hut
      rw [hut, hself] at hu
      exact hnext k' hu
    obtain ⟨hnot, hu'⟩ := hstill u k' hut (by rw [hu, waitsFor_asleep])
    have hsame : s.pc u = .asleep k' := by
      rw [hpc u hut, if_neg hnot] at hu
      exact hu
    have hmem := h.listed u k' hsame
    have hkk : k' ≠ k := by
      intro hkk
      rw [hkk] at hmem
      exact hnot hmem
    rw [hsem k' hkk]
    exact hmem
  · intro hc
    rw [hlog] at hc
    exact Or.inr ⟨hc, hcom⟩
  · rw [hlog, hctxs]
    exact h.empty
  · intro u hu
    rw [hctxs]
    have hut : u ≠ t := by
      intro hut
      rw [hut, hself] at hu
      exact hop hu
    rw [hpc u hut] at hu
    split at hu
    · exact absurd hu hq'.1
    · exact h.inOp u hu
  · intro k' hk'
    obtain ⟨u, hu⟩ := hk'
    have hwas : (s.pc u).waitsFor = some k' ∧ (u = t ∨ u ∉ (s.sem k).sleeplist) := by
      by_cases hut : u = t
      · rw [hut, hself] at hu
        rw [hut]
        exact ⟨hwait k' hu, Or.inl rfl⟩
      · exact ⟨(hstill u k' hut hu).2, Or.inr (hstill u k' hut hu).1⟩
    obtain ⟨v, hv⟩ := h.post u k' hwas.1
    by_cases hvt : v = t
    · rw [hvt] at hv
      rcases hwill k' hv with hw | ⟨hkk, hall⟩
      · rw [hself]
        exact Or.inl hw
      · -- everybody who waits for this semaphore was asleep on it, and has been woken
        rw [hkk] at hwas
        have hsl := hall u hwas.1
        rcases hwas.2 with hut | hnot
        · rw [hut] at hsl
          exact absurd hsl (ht k)
        · exact absurd (h.listed u k hsl) hnot
    · exact Or.inr ⟨v, hvt, hv⟩

/-- Only thread `t` moves, and the semaphores and the contexts stay. -/
structure Moved (s : LogSys) (t : ℕ) (s' : LogSys) : Prop where
  pc : ∀ u, u ≠ t → s'.pc u = s.pc u
  sems : s'.s1 = s.s1 ∧ s'.s2 = s.s2 ∧ s'.s3 = s.s3
  ctxs : s'.ctxs = s.ctxs

theorem Moved.goto (s : LogSys) (t : ℕ) (p : Pc) : Moved s t (s.goto t p) :=
  ⟨fun _ hu => s.goto_pc_of_ne _ hu, ⟨rfl, rfl, rfl⟩, rfl⟩

/-- What a step of `commit` can do to the threads and to `log.committing`. -/
theorem commitStep_moves (hs : s.commitStep sb t ph = some s') : Moved s t s' ∧
    ((∃ ph', s'.pc t = .commit ph' ∧ s'.log.committing = s.log.committing) ∨
      (ph = .finish ∧ s'.pc t = .postS1 ∧ s'.log.committing = false ∧
        s'.log.header = s.log.header)) := by
  -- a round that acquires a block only moves the thread
  have htake : ∀ {b} (ph' : Phase),
      (s.take t b).map (fun r => r.goto t (.commit ph')) = some s' →
      Moved s t s' ∧ s'.pc t = .commit ph' ∧ s'.log.committing = s.log.committing := by
    intro b ph' hS
    obtain ⟨r, hr, rfl⟩ := Option.map_eq_some_iff.mp hS
    obtain ⟨-, rfl⟩ := Proto.take_some hr
    exact ⟨⟨fun u hu => LogSys.goto_pc_of_ne _ _ hu, ⟨rfl, rfl, rfl⟩, rfl⟩,
      LogSys.goto_pc_self _ _ _, rfl⟩
  have hgoto := Moved.goto s t
  cases ph with
  | check =>
      simp only [LogSys.commitStep] at hs
      split at hs
      all_goals
        cases hs
        exact ⟨hgoto _, Or.inl ⟨_, s.goto_pc_self _ _, rfl⟩⟩
  | logTo i =>
      simp only [LogSys.commitStep] at hs
      split at hs
      · exact ⟨(htake (.logFrom i) hs).1, Or.inl ⟨_, (htake (.logFrom i) hs).2⟩⟩
      · cases hs
        exact ⟨hgoto _, Or.inl ⟨_, s.goto_pc_self _ _, rfl⟩⟩
  | logFrom i => exact ⟨(htake (.logCopy i) hs).1, Or.inl ⟨_, (htake (.logCopy i) hs).2⟩⟩
  | installFrom i =>
      simp only [LogSys.commitStep] at hs
      split at hs
      · exact ⟨(htake (.installTo i) hs).1, Or.inl ⟨_, (htake (.installTo i) hs).2⟩⟩
      · cases hs
        exact ⟨hgoto _, Or.inl ⟨_, s.goto_pc_self _ _, rfl⟩⟩
  | installTo i =>
      exact ⟨(htake (.installCopy i) hs).1, Or.inl ⟨_, (htake (.installCopy i) hs).2⟩⟩
  | finish =>
      cases hs
      exact ⟨⟨(hgoto _).pc, (hgoto .postS1).sems, rfl⟩,
        Or.inr ⟨rfl, s.goto_pc_self _ _, rfl, rfl⟩⟩
  | logCopy i =>
      cases hs
      exact ⟨⟨(hgoto _).pc, (hgoto .postS1).sems, rfl⟩, Or.inl ⟨_, s.goto_pc_self _ _, rfl⟩⟩
  | writeHeader =>
      cases hs
      exact ⟨⟨(hgoto _).pc, (hgoto .postS1).sems, rfl⟩, Or.inl ⟨_, s.goto_pc_self _ _, rfl⟩⟩
  | installCopy i =>
      cases hs
      exact ⟨⟨(hgoto _).pc, (hgoto .postS1).sems, rfl⟩, Or.inl ⟨_, s.goto_pc_self _ _, rfl⟩⟩
  | clear =>
      cases hs
      exact ⟨⟨(hgoto _).pc, (hgoto .postS1).sems, rfl⟩, Or.inl ⟨_, s.goto_pc_self _ _, rfl⟩⟩
  | clearHeader =>
      cases hs
      exact ⟨⟨(hgoto _).pc, (hgoto .postS1).sems, rfl⟩, Or.inl ⟨_, s.goto_pc_self _ _, rfl⟩⟩

theorem commitStep (h : Coming s) (hP : Proto s) (ht : s.pc t = .commit ph)
    (hs : s.commitStep sb t ph = some s') : Coming s' := by
  obtain ⟨⟨hpc, hsem, hctxs⟩, hnext⟩ := commitStep_moves hs
  have hin : ∀ u, s'.pc u = .inOp → s'.pc t ≠ .inOp → u ∈ s'.ctxs.map Prod.fst := by
    intro u hu hne
    have hut : u ≠ t := by
      intro hut
      rw [hut] at hu
      exact hne hu
    rw [hctxs]
    exact h.inOp u ((hpc u hut).symm.trans hu)
  rcases hnext with ⟨ph', hp, hcom⟩ | ⟨hph, hp, hidle, hhdr⟩
  · have hbusy : s'.log.committing = true := hcom.trans (hP.alone t ph ht).2
    refine h.of_move (t := t) hpc hsem ?_ (fun _ => Or.inl ⟨ph', hp⟩) ?_
      (fun u hu => hin u hu (by simp [hp])) ?_ ?_
    · intro k
      rw [hp]
      cases k <;> simp [Pc.asleep]
    · intro hc
      rw [hbusy] at hc
      cases hc
    · intro k _
      rw [hp]
      cases k <;> exact Or.inl rfl
    · intro k hk
      rw [hp] at hk
      cases hk
  · have hw := hP.within t ph ht
    rw [hph] at hw
    refine h.of_move (t := t) hpc hsem ?_ ?_ ?_ (fun u hu => hin u hu (by simp [hp])) ?_ ?_
    · intro k
      rw [hp]
      cases k <;> simp [Pc.asleep]
    · intro hc
      rw [hidle] at hc
      cases hc
    · intro _ _
      rw [hhdr]
      exact hw
    · intro k _
      rw [hp]
      cases k <;> exact Or.inl rfl
    · intro k hk
      rw [hp] at hk
      cases hk

/-- **The invariant is kept** by every prompt step. -/
theorem step {i : ℕ × Act} (h : Coming s) (hP : Proto s) (ho : Prompt s i)
    (hs : s.step sb i = some s') : Coming s' := by
  obtain ⟨t, a⟩ := i
  obtain ⟨hb1, hb2, hb3⟩ := hP.balanced
  cases a with
  | beginOp =>
      simp only [LogSys.step] at hs
      split at hs
      · rename_i ht
        cases hs
        exact h.beginOp ht
      · cases hs
  | acquire b =>
      simp only [LogSys.step] at hs
      split at hs
      · obtain ⟨-, rfl⟩ := Proto.take_some hs
        exact h.congr rfl rfl rfl rfl rfl rfl
      · cases hs
  | modify b d =>
      simp only [LogSys.step] at hs
      split at hs
      · cases hs
        exact h.congr rfl rfl rfl rfl rfl rfl
      · cases hs
  | sync b =>
      simp only [LogSys.step] at hs
      split at hs
      · exact h.sync hs
      · cases hs
  | release b =>
      simp only [LogSys.step] at hs
      split at hs
      · cases hs
        exact h.congr rfl rfl rfl rfl rfl rfl
      · cases hs
  | endOp =>
      simp only [LogSys.step] at hs
      split at hs
      · rename_i ht
        exact h.leave hP ht hs
      · cases hs
  | run =>
      simp only [LogSys.step, LogSys.runStep] at hs
      split at hs
      · rename_i ht
        cases hs
        exact h.enter hP ht
      · rename_i ht
        simp only [LogSys.wait, Semaphore.waitSem_of_balanced hb3] at hs
        cases hs
        exact h.wait (k := .s3) rfl rfl rfl rfl (by rw [ht]; rfl) rfl
          (by intro k' hk'; cases k' <;> first | rfl | exact absurd rfl hk')
      · rename_i ht
        simp only [LogSys.wait, Semaphore.waitSem_of_balanced hb1] at hs
        cases hs
        exact h.wait (k := .s1) rfl rfl rfl rfl (by rw [ht]; rfl) rfl
          (by intro k' hk'; cases k' <;> first | rfl | exact absurd rfl hk')
      · rename_i ht
        refine h.post_all hP (k := .s1) hs (Or.inl rfl) (by simp [ht, ne_asleep]) (by simp [ht])
          (by simp) (by simp [ne_asleep]) ?_ ?_
        · intro k' hk'
          rw [ht]
          exact hk'
        · intro k' hk'
          rw [ht] at hk'
          cases k' <;> cases hk'
      · rename_i ht
        simp only [LogSys.wait, Semaphore.waitSem_of_balanced hb2] at hs
        cases hs
        exact h.wait (k := .s2) rfl rfl rfl rfl (by rw [ht]; rfl) rfl
          (by intro k' hk'; cases k' <;> first | rfl | exact absurd rfl hk')
      · rename_i ph ht
        exact h.commitStep hP ht hs
      · rename_i ht
        refine h.post_all hP (k := .s1) hs (Or.inl rfl) (by simp [ht, ne_asleep]) (by simp [ht])
          (by simp) (by simp [ne_asleep]) (fun k' hk' => by cases hk') ?_
        intro k' hk'
        rw [ht] at hk'
        cases k'
        all_goals first
          | exact Or.inl rfl
          | exact Or.inr ⟨rfl, ho _ ht⟩
      · rename_i ht
        refine h.post_all hP (k := .s2) hs (Or.inr rfl) (by simp [ht, ne_asleep]) (by simp [ht])
          (by simp) (by simp [ne_asleep]) (fun k' hk' => by cases hk') ?_
        intro k' hk'
        rw [ht] at hk'
        cases k'
        all_goals first
          | exact Or.inl rfl
          | exact Or.inr ⟨rfl, ho _ ht⟩
          | cases hk'
      · rename_i ht
        refine h.post_all hP (k := .s3) hs (Or.inl rfl) (by simp [ht, ne_asleep]) (by simp [ht])
          (by simp) (by simp [ne_asleep]) (fun k' hk' => by cases hk') ?_
        intro k' hk'
        rw [ht] at hk'
        cases k'
        all_goals first
          | exact Or.inl rfl
          | exact Or.inr ⟨rfl, ho _ ht⟩
          | cases hk'
      all_goals cases hs

end Coming

/-- **No process waits for a commit that will not come**, in every run whose steps are prompt. -/
theorem not_stuck {sb : SuperBlock} {disk : ℕ → Sector} {s : LogSys}
    (h : Reach (LogSys.step sb) Prompt (LogSys.start disk) s) : ¬ s.Stuck := by
  have hC : Coming s ∧ Proto s := by
    apply h.invariant (P := fun s => Coming s ∧ Proto s) ⟨Coming.init disk, Proto.init disk⟩
    intro s i s' hs ho hstep
    exact ⟨hs.1.step hs.2 ho hstep, hs.2.step hstep⟩
  rintro ⟨hout, hidle, hrest, t, k, ht⟩
  -- somebody is going to post, and the only such thread that rests is in an operation
  obtain ⟨u, hu⟩ := hC.1.post t k (by rw [ht, Coming.waitsFor_asleep])
  have hop : s.pc u = .inOp := by
    rcases hrest u with hp | hp | hp | ⟨k', hp⟩
    · rw [hp] at hu
      cases k <;> cases hu
    · exact hp
    · rw [hp] at hu
      cases k <;> cases hu
    · rw [hp, Coming.willPost_of_waitsFor (Coming.waitsFor_asleep k')] at hu
      cases hu
  have hmem := hC.1.inOp u hop
  rw [hC.2.reserved.outstanding, List.length_eq_zero_iff] at hout
  rw [hout] at hmem
  cases hmem

/-- A step that does not post after a commit. -/
private def quietStep (s : LogSys) : ℕ × Act → Bool
  | (t, .run) => s.pc t ≠ .postS1 && s.pc t ≠ .postS2 && s.pc t ≠ .postS3
  | _ => true

private theorem prompt_of_quietStep (s : LogSys) (i : ℕ × Act) (h : quietStep s i = true) :
    Prompt s i := by
  obtain ⟨t, a⟩ := i
  cases a with
  | run =>
      intro k hk
      simp only [quietStep] at h
      cases k <;> simp [hk, Pc.post] at h
  | _ => exact trivial

/-- Thread 1 goes to sleep on `s3` while thread 0 commits. -/
theorem not_stuck_committing : ∃ s, Reach (LogSys.step Mkfs.sb) Prompt
    (LogSys.start fun _ => Bytes.zero) s ∧ s.pc 1 = .asleepS3 ∧ s.pc 0 = .postS1 ∧ ¬ s.Stuck := by
  have hrun : Reach (LogSys.step Mkfs.sb) Prompt (LogSys.start fun _ => Bytes.zero) _ :=
    Reach.init.of_tested prompt_of_quietStep
      [(0, .beginOp), (0, .run), (0, .endOp), (1, .beginOp), (1, .run), (1, .run), (0, .run),
        (0, .run)] rfl
  exact ⟨_, hrun, rfl, rfl, not_stuck hrun⟩

/-- **A lost wake-up.**  Thread 1 finds a commit running and drops the log lock.  Thread 0
finishes the commit and posts all three semaphores before thread 1 waits on `s3`. -/
theorem lost_wakeup : ∃ s, Reach (LogSys.step Mkfs.sb) (fun _ _ => True)
    (LogSys.start fun _ => Bytes.zero) s ∧ s.Stuck := by
  have hinit : Reach (LogSys.step Mkfs.sb) (fun _ _ => True) (LogSys.start fun _ => Bytes.zero)
    (LogSys.start fun _ => Bytes.zero) := .init
  have hrun := hinit.of_runs [(0, .beginOp), (0, .run), (0, .endOp), (1, .beginOp), (1, .run),
    (0, .run), (0, .run), (0, .run), (0, .run), (0, .run), (1, .run)] rfl
  refine ⟨_, hrun, rfl, rfl, ?_, 1, .s3, rfl⟩
  intro t
  match t with
  | 0 => exact Or.inr (Or.inr (Or.inl rfl))
  | 1 => exact Or.inr (Or.inr (Or.inr ⟨.s3, rfl⟩))
  | t + 2 => exact Or.inl rfl

end OsLab
