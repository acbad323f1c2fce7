import OsLab.Fs.LogSys
import OsLab.Fs.Refinement

/-!
# The reservation and the log area, over all interleavings

`Proto` is the invariant of the log protocol: the log state agrees with the
outstanding operations, a committing thread is alone, and the threads on a sleep
list are the ones asleep there.  From it follow the accounting of the reservation
(`reservation`) and the super blocks for which a commit keeps inside the log area
(`staysInside_iff`).

## Main definitions

* `Proto`, `Proto.step` — the invariant, kept by every step.
* `StaysInside` — `write_log` writes inside the log area only.
-/

namespace OsLab

/-- The index of the committing thread's loop is within the header. -/
def Phase.Within (n : ℕ) : Phase → Prop
  | .logTo i | .installFrom i => i ≤ n
  | .logFrom i | .logCopy i | .installTo i | .installCopy i => i < n
  | .clearHeader | .finish => n = 0
  | .check | .writeHeader | .clear => True

/-- The invariant of the log protocol. -/
structure Proto (s : LogSys) : Prop where
  reserved : Reserved s.log s.ctxs
  keys : ∀ t ∈ s.ctxs.map Prod.fst, s.pc t = .inOp
  recorded : ∀ x ∈ s.ctxs, x.2 + s.recorded x.1 = opMaxNumBlocks
  alone : ∀ t ph, s.pc t = .commit ph → s.ctxs = [] ∧ s.log.committing = true
  unique : ∀ t u ph ph', s.pc t = .commit ph → s.pc u = .commit ph' → t = u
  within : ∀ t ph, s.pc t = .commit ph → ph.Within s.log.header.numBlocks
  balanced : s.s1.Balanced ∧ s.s2.Balanced ∧ s.s3.Balanced
  asleep1 : ∀ t ∈ s.s1.sleeplist, s.pc t = .asleepS1
  asleep2 : ∀ t ∈ s.s2.sleeplist, s.pc t = .asleepS2
  asleep3 : ∀ t ∈ s.s3.sleeplist, s.pc t = .asleepS3

namespace Proto

variable {sb : SuperBlock} {s s' : LogSys} {t u b rm : ℕ} {p : Pc} {ph : Phase}

theorem init (disk : ℕ → Sector) : Proto (LogSys.start disk) := by
  constructor <;> simp [LogSys.start, Semaphore.initSem, Semaphore.Balanced]
  constructor <;> simp [LogHeader.entries]

/-- The protocol looks at the log, the contexts, the threads and the semaphores only. -/
theorem congr (h : Proto s) (hlog : s'.log = s.log) (hctxs : s'.ctxs = s.ctxs)
    (hpc : s'.pc = s.pc) (hrec : s'.recorded = s.recorded) (h1 : s'.s1 = s.s1)
    (h2 : s'.s2 = s.s2) (h3 : s'.s3 = s.s3) : Proto s' := by
  constructor
  · rw [hlog, hctxs]
    exact h.reserved
  · rw [hctxs, hpc]
    exact h.keys
  · rw [hctxs, hrec]
    exact h.recorded
  · rw [hctxs, hpc, hlog]
    exact h.alone
  · rw [hpc]
    exact h.unique
  · rw [hpc, hlog]
    exact h.within
  · rw [h1, h2, h3]
    exact h.balanced
  · rw [h1, hpc]
    exact h.asleep1
  · rw [h2, hpc]
    exact h.asleep2
  · rw [h3, hpc]
    exact h.asleep3

theorem rm_mem (h : s.rm t = some rm) : (t, rm) ∈ s.ctxs := by
  simp only [LogSys.rm, Option.map_eq_some_iff] at h
  obtain ⟨⟨t', rm'⟩, hfind, rfl⟩ := h
  have ht : t' = t := by simpa using List.find?_some hfind
  exact ht ▸ List.mem_of_find?_eq_some hfind

/-- While an operation is outstanding nobody commits. -/
theorem not_commit (h : Proto s) (hx : (t, rm) ∈ s.ctxs) (hu : s.pc u = .commit ph) : False := by
  rw [(h.alone u ph hu).1] at hx
  exact List.not_mem_nil hx

/-- Threads that are neither in an operation nor asleep may be moved. -/
structure Free (p : Pc) : Prop where
  ne_inOp : p ≠ .inOp
  ne_asleep1 : p ≠ .asleepS1
  ne_asleep2 : p ≠ .asleepS2
  ne_asleep3 : p ≠ .asleepS3

/-- **A step that moves one thread**, into a commit only from within that commit. -/
theorem goto (h : Proto s) (ht : Free (s.pc t))
    (hp : ∀ ph, p = .commit ph →
      (∃ ph', s.pc t = .commit ph') ∧ ph.Within s.log.header.numBlocks) :
    Proto (s.goto t p) := by
  have hne : ∀ {u q}, s.pc u = q → ¬ Free q → (s.goto t p).pc u = s.pc u := by
    intro u q hu hq
    apply s.goto_pc_of_ne
    rintro rfl
    exact hq (hu ▸ ht)
  -- the committing threads are the same as before
  have hcommit : ∀ {u ph}, (s.goto t p).pc u = .commit ph → ∃ ph', s.pc u = .commit ph' := by
    intro u ph hu
    by_cases hut : u = t
    · subst hut
      rw [LogSys.goto_pc_self] at hu
      exact (hp ph hu).1
    · rw [s.goto_pc_of_ne p hut] at hu
      exact ⟨ph, hu⟩
  constructor
  · exact h.reserved
  · intro u hu
    have hpc := h.keys u hu
    rw [hne hpc fun f => f.ne_inOp rfl]
    exact hpc
  · exact h.recorded
  · intro u ph hu
    obtain ⟨ph', hu'⟩ := hcommit hu
    exact h.alone u ph' hu'
  · intro u v ph ph' hu hv
    obtain ⟨_, hu'⟩ := hcommit hu
    obtain ⟨_, hv'⟩ := hcommit hv
    exact h.unique u v _ _ hu' hv'
  · intro u ph hu
    by_cases hut : u = t
    · subst hut
      rw [LogSys.goto_pc_self] at hu
      exact (hp ph hu).2
    · rw [s.goto_pc_of_ne p hut] at hu
      exact h.within u ph hu
  · exact h.balanced
  · intro u hu
    have hpc := h.asleep1 u hu
    rw [hne hpc fun f => f.ne_asleep1 rfl]
    exact hpc
  · intro u hu
    have hpc := h.asleep2 u hu
    rw [hne hpc fun f => f.ne_asleep2 rfl]
    exact hpc
  · intro u hu
    have hpc := h.asleep3 u hu
    rw [hne hpc fun f => f.ne_asleep3 rfl]
    exact hpc

/-- A change of the log and of the contexts while the threads stay where they are. -/
private theorem of_log (h : Proto s) (hpc : s'.pc = s.pc) (hres : Reserved s'.log s'.ctxs)
    (hkeys : ∀ t ∈ s'.ctxs.map Prod.fst, s.pc t = .inOp)
    (hrec : ∀ x ∈ s'.ctxs, x.2 + s'.recorded x.1 = opMaxNumBlocks)
    (halone : ∀ t ph, s.pc t = .commit ph → s'.ctxs = [] ∧ s'.log.committing = true ∧
      ph.Within s'.log.header.numBlocks)
    (h1 : s'.s1 = s.s1) (h2 : s'.s2 = s.s2) (h3 : s'.s3 = s.s3) : Proto s' := by
  constructor
  · exact hres
  · rw [hpc]
    exact hkeys
  · exact hrec
  · rw [hpc]
    intro u ph hu
    exact ⟨(halone u ph hu).1, (halone u ph hu).2.1⟩
  · rw [hpc]
    exact h.unique
  · rw [hpc]
    intro u ph hu
    exact (halone u ph hu).2.2
  · rw [h1, h2, h3]
    exact h.balanced
  · rw [h1, hpc]
    exact h.asleep1
  · rw [h2, hpc]
    exact h.asleep2
  · rw [h3, hpc]
    exact h.asleep3

theorem sync (h : Proto s) (hpc : s.pc t = .inOp) (hs : s.sync t b = some s') : Proto s' := by
  simp only [LogSys.sync, Option.bind_eq_bind, Option.bind_eq_some_iff] at hs
  obtain ⟨rm, hrm, ⟨new, rm', l⟩, hl, hs⟩ := hs
  cases hs
  have hmem := rm_mem hrm
  obtain ⟨hres, -, -, -, -⟩ := h.reserved.sync hmem hl
  have hrm' : rm' + (if new = true then 1 else 0) = rm := by
    simp only [Log.sync] at hl
    split at hl
    · cases hl
      rfl
    · split at hl
      · cases hl
        simp only [if_true]
        omega
      · cases hl
  obtain ⟨-, hnot⟩ := Reserved.keys_erase h.reserved.keys hmem
  refine h.of_log ?_ ?_ ?_ ?_ ?_ ?_ ?_ ?_
  · rfl
  · exact hres
  · intro u hu
    rcases List.mem_cons.mp hu with rfl | hu
    · exact hpc
    · obtain ⟨x, hx, rfl⟩ := List.mem_map.mp hu
      exact h.keys _ (List.mem_map_of_mem (List.mem_of_mem_erase hx))
  · intro x hx
    rcases List.mem_cons.mp hx with rfl | hx
    · have := h.recorded _ hmem
      simp only [Function.update_self] at this ⊢
      omega
    · have hxt : x.1 ≠ t := by
        rintro rfl
        exact hnot (List.mem_map_of_mem hx)
      simp only [Function.update_of_ne hxt]
      exact h.recorded x (List.mem_of_mem_erase hx)
  · intro u ph hu
    exact (h.not_commit hmem hu).elim
  · rfl
  · rfl
  · rfl

/-- **Entering and leaving operations.**  The moves that change both the contexts and the
place of the thread. -/
private theorem of_thread (h : Proto s) (ht : s.pc t = .inOp ∨ Free (s.pc t))
    (hpc : ∀ u, u ≠ t → s'.pc u = s.pc u) (hres : Reserved s'.log s'.ctxs)
    (hkeys : ∀ u ∈ s'.ctxs.map Prod.fst, (u = t ∧ s'.pc t = .inOp) ∨
      (u ≠ t ∧ u ∈ s.ctxs.map Prod.fst))
    (hrec : ∀ x ∈ s'.ctxs, x.2 + s'.recorded x.1 = opMaxNumBlocks)
    (hno : ∀ u ph, s.pc u ≠ .commit ph)
    (halone : ∀ ph, s'.pc t = .commit ph → s'.ctxs = [] ∧ s'.log.committing = true ∧
      ph.Within s'.log.header.numBlocks)
    (h1 : s'.s1 = s.s1) (h2 : s'.s2 = s.s2) (h3 : s'.s3 = s.s3) : Proto s' := by
  have hne : ∀ {u q}, s.pc u = q → q ≠ .inOp → ¬ Free q → s'.pc u = q := by
    intro u q hu hop hq
    rw [hpc u, hu]
    rintro rfl
    rcases ht with ht | ht
    · exact hop (hu.symm.trans ht)
    · exact hq (hu ▸ ht)
  have hcommit : ∀ {u ph}, s'.pc u = .commit ph → u = t := by
    intro u ph hu
    by_contra hut
    rw [hpc u hut] at hu
    exact hno u ph hu
  constructor
  · exact hres
  · intro u hu
    rcases hkeys u hu with ⟨rfl, hu⟩ | ⟨hut, hu⟩
    · exact hu
    · rw [hpc u hut]
      exact h.keys u hu
  · exact hrec
  · intro u ph hu
    obtain rfl := hcommit hu
    exact ⟨(halone ph hu).1, (halone ph hu).2.1⟩
  · intro u v ph ph' hu hv
    rw [hcommit hu, hcommit hv]
  · intro u ph hu
    obtain rfl := hcommit hu
    exact (halone ph hu).2.2
  · rw [h1, h2, h3]
    exact h.balanced
  · rw [h1]
    intro u hu
    exact hne (h.asleep1 u hu) (by simp) fun f => f.ne_asleep1 rfl
  · rw [h2]
    intro u hu
    exact hne (h.asleep2 u hu) (by simp) fun f => f.ne_asleep2 rfl
  · rw [h3]
    intro u hu
    exact hne (h.asleep3 u hu) (by simp) fun f => f.ne_asleep3 rfl

theorem enter (h : Proto s) (hpc : s.pc t = .entering) : Proto (s.enter t) := by
  have hfree : Free (s.pc t) := by rw [hpc]; constructor <;> simp
  rw [LogSys.enter]
  split
  · exact h.goto hfree (by simp)
  · exact h.goto hfree (by simp)
  · rename_i rm l hl
    have hnot : t ∉ s.ctxs.map Prod.fst := by
      intro ht
      rw [h.keys t ht] at hpc
      cases hpc
    obtain ⟨hres, hrm, hidle, -, -⟩ := h.reserved.beginOp hnot hl
    refine h.of_thread (t := t) (Or.inr hfree) ?_ ?_ ?_ ?_ ?_ ?_ ?_ ?_ ?_
    · intro u hu
      exact s.goto_pc_of_ne _ hu
    · exact hres
    · intro u hu
      rcases List.mem_cons.mp hu with rfl | hu
      · exact Or.inl ⟨rfl, s.goto_pc_self _ _⟩
      · have hu' : u ∈ s.ctxs.map Prod.fst := hu
        exact Or.inr ⟨fun hut => hnot (hut ▸ hu'), hu'⟩
    · intro x hx
      rcases List.mem_cons.mp hx with rfl | hx
      · simp [hrm]
      · have hxt : x.1 ≠ t := fun hxt => hnot (hxt ▸ List.mem_map_of_mem hx)
        simp only [Function.update_of_ne hxt]
        exact h.recorded x hx
    · intro u ph hu
      rw [(h.alone u ph hu).2] at hidle
      cases hidle
    · intro ph hp
      have : (s.goto t .inOp).pc t = .commit ph := hp
      rw [LogSys.goto_pc_self] at this
      cases this
    · rfl
    · rfl
    · rfl

theorem leave (h : Proto s) (hpc : s.pc t = .inOp) (hs : s.leave t = some s') : Proto s' := by
  simp only [LogSys.leave, Option.bind_eq_bind, Option.bind_eq_some_iff] at hs
  obtain ⟨rm, hrm, hs⟩ := hs
  have hmem := rm_mem hrm
  obtain ⟨-, hnot⟩ := Reserved.keys_erase h.reserved.keys hmem
  have hkeys : ∀ u ∈ (s.ctxs.erase (t, rm)).map Prod.fst, u ≠ t ∧ u ∈ s.ctxs.map Prod.fst := by
    intro u hu
    refine ⟨fun hut => hnot (hut ▸ hu), ?_⟩
    obtain ⟨x, hx, rfl⟩ := List.mem_map.mp hu
    exact List.mem_map_of_mem (List.mem_of_mem_erase hx)
  split at hs
  · rename_i l hl
    cases hs
    obtain ⟨hres, hhdr, hlast, -⟩ := h.reserved.endOp hmem hl
    refine h.of_thread (t := t) (Or.inl hpc) ?_ hres ?_ ?_ ?_ ?_ ?_ ?_ ?_
    · intro u hu
      exact s.goto_pc_of_ne _ hu
    · intro u hu
      exact Or.inr (hkeys u hu)
    · intro x hx
      exact h.recorded x (List.mem_of_mem_erase hx)
    · intro u ph hu
      exact h.not_commit hmem hu
    · intro ph hp
      have : (s.goto t (.commit .check)).pc t = .commit ph := hp
      rw [LogSys.goto_pc_self] at this
      cases this
      exact ⟨(hlast rfl).1, (hlast rfl).2, trivial⟩
    · rfl
    · rfl
    · rfl
  · rename_i l hl
    cases hs
    obtain ⟨hres, hhdr, -, -⟩ := h.reserved.endOp hmem hl
    refine h.of_thread (t := t) (Or.inl hpc) ?_ hres ?_ ?_ ?_ ?_ ?_ ?_ ?_
    · intro u hu
      exact s.goto_pc_of_ne _ hu
    · intro u hu
      exact Or.inr (hkeys u hu)
    · intro x hx
      exact h.recorded x (List.mem_of_mem_erase hx)
    · intro u ph hu
      exact h.not_commit hmem hu
    · intro ph hp
      have : (s.goto t .leaving).pc t = .commit ph := hp
      rw [LogSys.goto_pc_self] at this
      cases this
    · rfl
    · rfl
    · rfl

/-- `unalertable_wait_sem` on `s1`, `s2` or `s3` puts the caller to sleep. -/
theorem wait (h : Proto s) (ht : Free (s.pc t)) :
    Proto (s.wait t s.s1 LogSys.setS1 .asleepS1 .entering) ∧
    Proto (s.wait t s.s2 LogSys.setS2 .asleepS2 .returned) ∧
    Proto (s.wait t s.s3 LogSys.setS3 .asleepS3 .entering) := by
  obtain ⟨hb1, hb2, hb3⟩ := h.balanced
  have hsleep : ∀ {sem : Semaphore} {q : Pc}, (∀ u ∈ sem.sleeplist, s.pc u = q) →
      ∀ u ∈ t :: sem.sleeplist, (s.goto t q).pc u = q := by
    intro sem q hq u hu
    by_cases hut : u = t
    · rw [hut, LogSys.goto_pc_self]
    · rw [s.goto_pc_of_ne _ hut]
      exact hq u ((List.mem_cons.mp hu).resolve_left hut)
  simp only [LogSys.wait, Semaphore.waitSem_of_balanced hb1, Semaphore.waitSem_of_balanced hb2,
    Semaphore.waitSem_of_balanced hb3]
  refine ⟨?_, ?_, ?_⟩
  · have hg := h.goto (p := .asleepS1) ht (by simp)
    have hb := Semaphore.balanced_waitSem hb1 t
    rw [Semaphore.waitSem_of_balanced hb1] at hb
    exact { hg with
      balanced := ⟨hb, hb2, hb3⟩
      asleep1 := hsleep h.asleep1 }
  · have hg := h.goto (p := .asleepS2) ht (by simp)
    have hb := Semaphore.balanced_waitSem hb2 t
    rw [Semaphore.waitSem_of_balanced hb2] at hb
    exact { hg with
      balanced := ⟨hb1, hb, hb3⟩
      asleep2 := hsleep h.asleep2 }
  · have hg := h.goto (p := .asleepS3) ht (by simp)
    have hb := Semaphore.balanced_waitSem hb3 t
    rw [Semaphore.waitSem_of_balanced hb3] at hb
    exact { hg with
      balanced := ⟨hb1, hb2, hb⟩
      asleep3 := hsleep h.asleep3 }

/-- The threads asleep at `q` go on at `p`. -/
private theorem of_wake (h : Proto s) {ts : List ℕ} {q : Pc} (hq : ∀ u ∈ ts, s.pc u = q)
    (hop : q ≠ .inOp) (hcommit : ∀ ph, p ≠ .commit ph)
    (hpc : s'.pc = (s.wake ts p).pc) (hlog : s'.log = s.log) (hctxs : s'.ctxs = s.ctxs)
    (hrec : s'.recorded = s.recorded)
    (hb : s'.s1.Balanced ∧ s'.s2.Balanced ∧ s'.s3.Balanced)
    (h1 : ∀ u ∈ s'.s1.sleeplist, u ∈ s.s1.sleeplist ∧ q ≠ .asleepS1)
    (h2 : ∀ u ∈ s'.s2.sleeplist, u ∈ s.s2.sleeplist ∧ q ≠ .asleepS2)
    (h3 : ∀ u ∈ s'.s3.sleeplist, u ∈ s.s3.sleeplist ∧ q ≠ .asleepS3) : Proto s' := by
  have hsame : ∀ {u r}, s.pc u = r → r ≠ q → s'.pc u = r := by
    intro u r hu hr
    have hts : u ∉ ts := fun hmem => hr (hu.symm.trans (hq u hmem))
    rw [hpc, LogSys.wake]
    simp only [if_neg hts]
    exact hu
  have hcom : ∀ {u ph}, s'.pc u = .commit ph → s.pc u = .commit ph := by
    intro u ph hu
    rw [hpc, LogSys.wake] at hu
    simp only at hu
    split at hu
    · exact absurd hu (hcommit ph)
    · exact hu
  constructor
  · rw [hlog, hctxs]
    exact h.reserved
  · rw [hctxs]
    intro u hu
    exact hsame (h.keys u hu) (Ne.symm hop)
  · rw [hctxs, hrec]
    exact h.recorded
  · rw [hctxs, hlog]
    intro u ph hu
    exact h.alone u ph (hcom hu)
  · intro u v ph ph' hu hv
    exact h.unique u v ph ph' (hcom hu) (hcom hv)
  · rw [hlog]
    intro u ph hu
    exact h.within u ph (hcom hu)
  · exact hb
  · intro u hu
    exact hsame (h.asleep1 u (h1 u hu).1) (Ne.symm (h1 u hu).2)
  · intro u hu
    exact hsame (h.asleep2 u (h2 u hu).1) (Ne.symm (h2 u hu).2)
  · intro u hu
    exact hsame (h.asleep3 u (h3 u hu).1) (Ne.symm (h3 u hu).2)

/-- **`post_all_sem` wakes the threads asleep on the semaphore** and the caller goes on. -/
theorem post1 (h : Proto s) (ht : Free (s.pc t)) (hp : ∀ ph, p ≠ .commit ph)
    (hs : s.post t s.s1 LogSys.setS1 .entering p = some s') : Proto s' := by
  obtain ⟨hb1, hb2, hb3⟩ := h.balanced
  rw [LogSys.post, Semaphore.postAllSem_of_balanced hb1, Option.map_some] at hs
  cases hs
  have hw : Proto ((s.setS1 (Semaphore.initSem 0)).wake s.s1.sleeplist.reverse .entering) := by
    refine h.of_wake (q := .asleepS1) (fun u hu => h.asleep1 u (List.mem_reverse.mp hu))
      (by simp) (by simp) rfl rfl rfl rfl ⟨Semaphore.balanced_initSem, hb2, hb3⟩ ?_ ?_ ?_
    · intro u hu
      cases hu
    · exact fun u hu => ⟨hu, by simp⟩
    · exact fun u hu => ⟨hu, by simp⟩
  refine hw.goto ?_ (fun ph hph => absurd hph (hp ph))
  have hts : t ∉ s.s1.sleeplist.reverse := fun hmem =>
    ht.ne_asleep1 (h.asleep1 t (List.mem_reverse.mp hmem))
  simp only [LogSys.wake, if_neg hts]
  exact ht

theorem post2 (h : Proto s) (ht : Free (s.pc t)) (hp : ∀ ph, p ≠ .commit ph)
    (hs : s.post t s.s2 LogSys.setS2 .returned p = some s') : Proto s' := by
  obtain ⟨hb1, hb2, hb3⟩ := h.balanced
  rw [LogSys.post, Semaphore.postAllSem_of_balanced hb2, Option.map_some] at hs
  cases hs
  have hw : Proto ((s.setS2 (Semaphore.initSem 0)).wake s.s2.sleeplist.reverse .returned) := by
    refine h.of_wake (q := .asleepS2) (fun u hu => h.asleep2 u (List.mem_reverse.mp hu))
      (by simp) (by simp) rfl rfl rfl rfl ⟨hb1, Semaphore.balanced_initSem, hb3⟩ ?_ ?_ ?_
    · exact fun u hu => ⟨hu, by simp⟩
    · intro u hu
      cases hu
    · exact fun u hu => ⟨hu, by simp⟩
  refine hw.goto ?_ (fun ph hph => absurd hph (hp ph))
  have hts : t ∉ s.s2.sleeplist.reverse := fun hmem =>
    ht.ne_asleep2 (h.asleep2 t (List.mem_reverse.mp hmem))
  simp only [LogSys.wake, if_neg hts]
  exact ht

theorem post3 (h : Proto s) (ht : Free (s.pc t)) (hp : ∀ ph, p ≠ .commit ph)
    (hs : s.post t s.s3 LogSys.setS3 .entering p = some s') : Proto s' := by
  obtain ⟨hb1, hb2, hb3⟩ := h.balanced
  rw [LogSys.post, Semaphore.postAllSem_of_balanced hb3, Option.map_some] at hs
  cases hs
  have hw : Proto ((s.setS3 (Semaphore.initSem 0)).wake s.s3.sleeplist.reverse .entering) := by
    refine h.of_wake (q := .asleepS3) (fun u hu => h.asleep3 u (List.mem_reverse.mp hu))
      (by simp) (by simp) rfl rfl rfl rfl ⟨hb1, hb2, Semaphore.balanced_initSem⟩ ?_ ?_ ?_
    · exact fun u hu => ⟨hu, by simp⟩
    · exact fun u hu => ⟨hu, by simp⟩
    · intro u hu
      cases hu
  refine hw.goto ?_ (fun ph hph => absurd hph (hp ph))
  have hts : t ∉ s.s3.sleeplist.reverse := fun hmem =>
    ht.ne_asleep3 (h.asleep3 t (List.mem_reverse.mp hmem))
  simp only [LogSys.wake, if_neg hts]
  exact ht

/-! ## The steps of a commit -/

/-- The committing thread takes a step that changes the log. -/
private theorem of_committer (h : Proto s) (ht : s.pc t = .commit ph)
    (hpc : ∀ u, u ≠ t → s'.pc u = s.pc u) (hctxs : s'.ctxs = s.ctxs)
    (hres : Reserved s'.log s'.ctxs)
    (hcommit : ∀ ph', s'.pc t = .commit ph' →
      s'.log.committing = true ∧ ph'.Within s'.log.header.numBlocks)
    (h1 : s'.s1 = s.s1) (h2 : s'.s2 = s.s2) (h3 : s'.s3 = s.s3) : Proto s' := by
  have hnil : s'.ctxs = [] := hctxs.trans (h.alone t ph ht).1
  have hsame : ∀ {u q}, s.pc u = q → (∀ ph, q ≠ .commit ph) → s'.pc u = q := by
    intro u q hu hq
    rw [hpc u, hu]
    rintro rfl
    exact hq ph (hu.symm.trans ht)
  have honly : ∀ {u ph'}, s'.pc u = .commit ph' → u = t := by
    intro u ph' hu
    by_contra hut
    rw [hpc u hut] at hu
    exact hut (h.unique u t ph' ph hu ht)
  constructor
  · exact hres
  · simp [hnil]
  · simp [hnil]
  · intro u ph' hu
    obtain rfl := honly hu
    exact ⟨hnil, (hcommit ph' hu).1⟩
  · intro u v ph' ph'' hu hv
    rw [honly hu, honly hv]
  · intro u ph' hu
    obtain rfl := honly hu
    exact (hcommit ph' hu).2
  · rw [h1, h2, h3]
    exact h.balanced
  · rw [h1]
    exact fun u hu => hsame (h.asleep1 u hu) (by simp)
  · rw [h2]
    exact fun u hu => hsame (h.asleep2 u hu) (by simp)
  · rw [h3]
    exact fun u hu => hsame (h.asleep3 u hu) (by simp)

/-- The committing thread moves within its commit. -/
private theorem goto_commit (h : Proto s) (ht : s.pc t = .commit ph) (ph' : Phase)
    (hw : ph'.Within s.log.header.numBlocks) : Proto (s.goto t (.commit ph')) := by
  refine h.goto (by rw [ht]; constructor <;> simp) ?_
  intro ph'' hp
  cases hp
  exact ⟨⟨ph, ht⟩, hw⟩

theorem take_some (hs : s.take t b = some s') :
    s.held b = none ∧ s' = { s with held := Function.update s.held b (some t) } := by
  rw [LogSys.take] at hs
  split at hs
  · rename_i hb
    exact ⟨hb, (Option.some.inj hs).symm⟩
  · cases hs

theorem commitStep (h : Proto s) (ht : s.pc t = .commit ph)
    (hs : s.commitStep sb t ph = some s') : Proto s' := by
  have hw := h.within t ph ht
  -- a round that acquires a block moves the thread and changes `held`
  have htake : ∀ {b} (ph' : Phase) {S : LogSys}, ph'.Within s.log.header.numBlocks →
      (s.take t b).map (fun r => r.goto t (.commit ph')) = some S → Proto S := by
    intro b ph' S hw' hS
    obtain ⟨r, hr, rfl⟩ := Option.map_eq_some_iff.mp hS
    obtain ⟨-, rfl⟩ := take_some hr
    exact (h.goto_commit ht ph' hw').congr rfl rfl rfl rfl rfl rfl rfl
  cases ph with
  | check =>
      simp only [LogSys.commitStep] at hs
      split at hs
      · cases hs
        exact h.goto_commit ht (.logTo 0) (Nat.zero_le _)
      · rename_i hn
        cases hs
        exact h.goto_commit ht .finish (Nat.eq_zero_of_not_pos hn)
  | logTo i =>
      simp only [LogSys.commitStep] at hs
      split at hs
      · rename_i hi
        exact htake (.logFrom i) hi hs
      · cases hs
        exact h.goto_commit ht .writeHeader trivial
  | logFrom i => exact htake (.logCopy i) hw hs
  | logCopy i =>
      cases hs
      exact (h.goto_commit ht (.logTo (i + 1)) (Nat.succ_le_of_lt hw)).congr rfl rfl rfl rfl rfl
        rfl rfl
  | writeHeader =>
      cases hs
      exact (h.goto_commit ht (.installFrom 0) (Nat.zero_le _)).congr rfl rfl rfl rfl rfl rfl rfl
  | installFrom i =>
      simp only [LogSys.commitStep] at hs
      split at hs
      · rename_i hi
        exact htake (.installTo i) hi hs
      · cases hs
        exact h.goto_commit ht .clear trivial
  | installTo i => exact htake (.installCopy i) hw hs
  | installCopy i =>
      cases hs
      exact (h.goto_commit ht (.installFrom (i + 1)) (Nat.succ_le_of_lt hw)).congr rfl rfl rfl rfl
        rfl rfl rfl
  | clear =>
      cases hs
      refine h.of_committer ht ?_ ?_ ?_ ?_ ?_ ?_ ?_
      · intro u hu
        exact s.goto_pc_of_ne _ hu
      · rfl
      · exact h.reserved.clear
      · intro ph' hp
        have : (s.goto t (.commit .clearHeader)).pc t = .commit ph' := hp
        rw [LogSys.goto_pc_self] at this
        cases this
        exact ⟨(h.alone t _ ht).2, rfl⟩
      · rfl
      · rfl
      · rfl
  | clearHeader =>
      cases hs
      exact (h.goto_commit ht .finish hw).congr rfl rfl rfl rfl rfl rfl rfl
  | finish =>
      cases hs
      refine h.of_committer ht ?_ ?_ ?_ ?_ ?_ ?_ ?_
      · intro u hu
        exact s.goto_pc_of_ne _ hu
      · rfl
      · exact h.reserved.setCommitting false
      · intro ph' hp
        have : (s.goto t .postS1).pc t = .commit ph' := hp
        rw [LogSys.goto_pc_self] at this
        cases this
      · rfl
      · rfl
      · rfl

/-- **Every step keeps the protocol.** -/
theorem step {i : ℕ × Act} (h : Proto s) (hs : s.step sb i = some s') : Proto s' := by
  obtain ⟨t, a⟩ := i
  cases a with
  | beginOp =>
      simp only [LogSys.step] at hs
      split at hs
      · rename_i ht
        cases hs
        refine h.goto ?_ (by simp)
        rcases ht with ht | ht <;> rw [ht] <;> constructor <;> simp
      · cases hs
  | acquire b =>
      simp only [LogSys.step] at hs
      split at hs
      · obtain ⟨-, rfl⟩ := take_some hs
        exact h.congr rfl rfl rfl rfl rfl rfl rfl
      · cases hs
  | modify b d =>
      simp only [LogSys.step] at hs
      split at hs
      · cases hs
        exact h.congr rfl rfl rfl rfl rfl rfl rfl
      · cases hs
  | sync b =>
      simp only [LogSys.step] at hs
      split at hs
      · rename_i ht
        exact h.sync ht.1 hs
      · cases hs
  | release b =>
      simp only [LogSys.step] at hs
      split at hs
      · cases hs
        exact h.congr rfl rfl rfl rfl rfl rfl rfl
      · cases hs
  | endOp =>
      simp only [LogSys.step] at hs
      split at hs
      · rename_i ht
        exact h.leave ht hs
      · cases hs
  | run =>
      simp only [LogSys.step, LogSys.runStep] at hs
      split at hs
      · rename_i ht
        cases hs
        exact h.enter ht
      · rename_i ht
        cases hs
        exact (h.wait (by rw [ht]; constructor <;> simp)).2.2
      · rename_i ht
        cases hs
        exact (h.wait (by rw [ht]; constructor <;> simp)).1
      · rename_i ht
        exact h.post1 (by rw [ht]; constructor <;> simp) (by simp) hs
      · rename_i ht
        cases hs
        exact (h.wait (by rw [ht]; constructor <;> simp)).2.1
      · rename_i ph ht
        exact h.commitStep ht hs
      · rename_i ht
        exact h.post1 (by rw [ht]; constructor <;> simp) (by simp) hs
      · rename_i ht
        exact h.post2 (by rw [ht]; constructor <;> simp) (by simp) hs
      · rename_i ht
        exact h.post3 (by rw [ht]; constructor <;> simp) (by simp) hs
      all_goals cases hs

/-- **Every run keeps the protocol.** -/
theorem of_reach {ok : LogSys → ℕ × Act → Prop} {disk : ℕ → Sector}
    (h : Reach (LogSys.step sb) ok (LogSys.start disk) s) : Proto s := by
  apply h.invariant (init disk)
  intro s i s' hP _ hs
  exact hP.step hs

end Proto

/-! ## The reservation -/

/-- **Log reservation accounting.**  In every reachable state the reservation is the sum of
what the outstanding operations may still record, it fits in the header, the recorded numbers
are distinct, and a sync of an operation that has recorded fewer than `OP_MAX_NUM_BLOCKS` new
numbers does not panic. -/
theorem reservation {sb : SuperBlock} {disk : ℕ → Sector} {s : LogSys}
    (h : Reach (LogSys.step sb) (fun _ _ => True) (LogSys.start disk) s) :
    s.log.outstanding = s.ctxs.length ∧
    s.log.opReserved = (s.ctxs.map Prod.snd).sum ∧
    s.log.header.numBlocks + s.log.opReserved ≤ logMaxSize ∧
    s.log.header.entries.Nodup ∧
    ∀ t rm b, (t, rm) ∈ s.ctxs → s.recorded t < opMaxNumBlocks → (s.log.sync rm b).isSome := by
  have hP := Proto.of_reach h
  refine ⟨hP.reserved.outstanding, hP.reserved.reserved, ?_, hP.reserved.nodup, ?_⟩
  · rw [hP.reserved.reserved]
    exact_mod_cast hP.reserved.bound
  · intro t rm b hmem hrec
    have hrm : 0 < rm := by
      have := hP.recorded _ hmem
      simp only at this
      omega
    rw [Log.sync]
    split
    · rfl
    · rfl

/-- Two operations are outstanding, and one of them has recorded a block. -/
theorem reservation_two_ops :
    ∃ s, Reach (LogSys.step Mkfs.sb) (fun _ _ => True) (LogSys.start fun _ => Bytes.zero) s ∧
      s.ctxs = [(0, 9), (1, 10)] ∧ s.log.opReserved = (s.ctxs.map Prod.snd).sum := by
  have hinit : Reach (LogSys.step Mkfs.sb) (fun _ _ => True) (LogSys.start fun _ => Bytes.zero)
    (LogSys.start fun _ => Bytes.zero) := .init
  have hrun := hinit.of_runs [(0, .beginOp), (0, .run), (1, .beginOp), (1, .run),
    (0, .acquire 100), (0, .sync 100)] rfl
  exact ⟨_, hrun, rfl, (reservation hrun).2.1⟩

/-! ## The log area -/

/-- Every run of the system keeps the writes of `write_log` inside the log area: a commit
starts with room for every entry, and each copy goes to a log block. -/
def StaysInside (sb : SuperBlock) : Prop :=
  ∀ disk s t, Reach (LogSys.step sb) (fun _ _ => True) (LogSys.start disk) s →
    (s.pc t = .commit .check → s.log.header.numBlocks + 1 ≤ sb.numLogBlocks) ∧
    ∀ i, s.pc t = .commit (.logCopy i) →
      sb.logStart + 1 ≤ sb.logBlock i ∧ sb.logBlock i < sb.logStart + sb.numLogBlocks

namespace Overfull

/-- A run that has recorded the first `n` targets with the first `m` threads. -/
structure Crowd (sb : SuperBlock) (disk : ℕ → Sector) (n m : ℕ) (ctxs : List (ℕ × ℕ))
    (s : LogSys) : Prop where
  reach : Reach (LogSys.step sb) (fun _ _ => True) (LogSys.start disk) s
  idle : s.log.committing = false
  ctxs_eq : s.ctxs = ctxs
  entries : s.log.header.entries = (List.range n).map (target sb)
  unheld : ∀ i, n ≤ i → s.held (target sb i) = none
  fresh : ∀ u, m ≤ u → s.pc u = .out

variable {sb : SuperBlock} {disk : ℕ → Sector} {n m t rm : ℕ} {ctxs : List (ℕ × ℕ)} {s : LogSys}

theorem Crowd.numBlocks (h : Crowd sb disk n m ctxs s) : s.log.header.numBlocks = n := by
  rw [← LogHeader.length_entries, h.entries]
  simp

/-- A new thread begins an operation. -/
theorem Crowd.begin (h : Crowd sb disk n m ctxs s)
    (hn : n + (ctxs.map Prod.snd).sum + opMaxNumBlocks ≤ logMaxSize) :
    ∃ s', Crowd sb disk n (m + 1) ((m, opMaxNumBlocks) :: ctxs) s' := by
  have hP := Proto.of_reach h.reach
  have hres := hP.reserved.reserved
  rw [h.ctxs_eq] at hres
  have hcond : ¬ ((s.log.header.numBlocks : ℤ) + s.log.opReserved + opMaxNumBlocks >
      logMaxSize) := by
    rw [h.numBlocks, hres]
    omega
  obtain ⟨l, hl⟩ : ∃ l, s.log.beginOp = .admitted opMaxNumBlocks l := by
    rw [Log.beginOp, h.idle, if_neg (by simp), if_neg hcond]
    exact ⟨_, rfl⟩
  have hnot : m ∉ s.ctxs.map Prod.fst := by
    intro hm
    have := hP.keys m hm
    rw [h.fresh m le_rfl] at this
    cases this
  obtain ⟨-, -, -, hcom, hhdr⟩ := hP.reserved.beginOp hnot hl
  have h₁ : s.step sb (m, .beginOp) = some (s.goto m .entering) := by
    simp [LogSys.step, h.fresh m le_rfl]
  have h₂ : (s.goto m .entering).step sb (m, .run) = some ((s.goto m .entering).enter m) := by
    simp [LogSys.step, LogSys.runStep]
  have hl' : (s.goto m .entering).log.beginOp = .admitted opMaxNumBlocks l := hl
  refine ⟨(s.goto m .entering).enter m, (h.reach.step trivial h₁).step trivial h₂, ?_, ?_, ?_, ?_,
    ?_⟩
  · simp only [LogSys.enter, hl', hcom]
  · simp only [LogSys.enter, hl']
    exact congrArg _ h.ctxs_eq
  · simp only [LogSys.enter, hl', hhdr]
    exact h.entries
  · simp only [LogSys.enter, hl']
    exact h.unheld
  · intro u hu
    have hne : u ≠ m := by omega
    simp only [LogSys.enter, hl']
    rw [LogSys.goto_pc_of_ne _ _ hne, LogSys.goto_pc_of_ne _ _ hne]
    exact h.fresh u (by omega)

/-- The operation records one more block. -/
theorem Crowd.record (h : Crowd sb disk n m ((t, rm + 1) :: ctxs) s)
    (hsb : sb.numLogBlocks ≤ logMaxSize) (hn : n < logMaxSize) :
    ∃ s', Crowd sb disk (n + 1) m ((t, rm) :: ctxs) s' := by
  have hP := Proto.of_reach h.reach
  have hpc : s.pc t = .inOp := hP.keys t (by simp [h.ctxs_eq])
  have hcl := (client_target hsb hn).1
  have hnew : target sb n ∉ s.log.header.entries := by
    rw [h.entries]
    simp [target]
  have hrm : s.rm t = some (rm + 1) := by
    rw [LogSys.rm, h.ctxs_eq]
    simp
  have h₁ : s.step sb (t, .acquire (target sb n)) =
      some { s with held := Function.update s.held (target sb n) (some t) } := by
    simp only [LogSys.step]
    rw [if_pos ⟨Or.inr (Or.inl hpc), hcl.1, hcl.2⟩, LogSys.take, if_pos (h.unheld n le_rfl)]
  have hlog : s.log.sync (rm + 1) (target sb n) = some (true, rm, { s.log with
      header := s.log.header.push (target sb n), opReserved := s.log.opReserved - 1 }) := by
    rw [Log.sync, if_neg hnew]
    simp
  obtain ⟨s', h₂, hs'⟩ : ∃ s', LogSys.step sb
      { s with held := Function.update s.held (target sb n) (some t) } (t, .sync (target sb n)) =
        some s' ∧ s'.log.header = s.log.header.push (target sb n) ∧
      s'.log.committing = s.log.committing ∧ s'.ctxs = (t, rm) :: s.ctxs.erase (t, rm + 1) ∧
      s'.held = Function.update s.held (target sb n) (some t) ∧ s'.pc = s.pc := by
    have hrm' : LogSys.rm { s with held := Function.update s.held (target sb n) (some t) } t =
        some (rm + 1) := hrm
    simp only [LogSys.step]
    rw [if_pos ⟨hpc, Function.update_self _ _ _, hcl.1, hcl.2⟩]
    simp only [LogSys.sync, hrm', Option.bind_eq_bind, Option.bind_some, hlog, Option.some.injEq,
      exists_eq_left', and_self]
  obtain ⟨hhdr, hcom, hctxs, hheld, hpc'⟩ := hs'
  refine ⟨s', (h.reach.step trivial h₁).step trivial h₂, ?_, ?_, ?_, ?_, ?_⟩
  · rw [hcom]
    exact h.idle
  · rw [hctxs, h.ctxs_eq]
    simp
  · rw [hhdr, LogHeader.entries_push, h.entries, List.range_succ, List.map_append]
    rfl
  · intro i hi
    have hne : target sb i ≠ target sb n := by
      simp only [target]
      omega
    rw [hheld, Function.update_of_ne hne]
    exact h.unheld i (by omega)
  · rw [hpc']
    exact h.fresh

theorem Crowd.records (k : ℕ) (h : Crowd sb disk n m ((t, rm + k) :: ctxs) s)
    (hsb : sb.numLogBlocks ≤ logMaxSize) (hn : n + k ≤ logMaxSize) :
    ∃ s', Crowd sb disk (n + k) m ((t, rm) :: ctxs) s' := by
  induction k generalizing n s with
  | zero => exact ⟨s, h⟩
  | succ k ih =>
      obtain ⟨s', h'⟩ := h.record hsb (by omega)
      obtain ⟨s'', h''⟩ := ih h' (by omega)
      rw [Nat.add_right_comm] at h''
      exact ⟨s'', h''⟩

/-- The operation ends while another one is outstanding. -/
theorem Crowd.finish {x : ℕ × ℕ} (h : Crowd sb disk n m ((t, rm) :: x :: ctxs) s) (ht : t < m) :
    ∃ s', Crowd sb disk n m (x :: ctxs) s' := by
  have hP := Proto.of_reach h.reach
  have hpc : s.pc t = .inOp := hP.keys t (by simp [h.ctxs_eq])
  have hout := hP.reserved.outstanding
  rw [h.ctxs_eq] at hout
  have hrm : s.rm t = some rm := by
    rw [LogSys.rm, h.ctxs_eq]
    simp
  have hl : s.log.endOp rm = (false, { s.log with
      outstanding := s.log.outstanding - 1, opReserved := s.log.opReserved - rm }) := by
    simp [Log.endOp, hout]
  have hs : s.step sb (t, .endOp) = some { s.goto t .leaving with
      log := { s.log with
        outstanding := s.log.outstanding - 1, opReserved := s.log.opReserved - rm }
      ctxs := s.ctxs.erase (t, rm) } := by
    simp only [LogSys.step, hpc, if_true, LogSys.leave, hrm, Option.bind_eq_bind,
      Option.bind_some, hl]
  refine ⟨_, h.reach.step trivial hs, h.idle, ?_, h.entries, h.unheld, ?_⟩
  · simp [h.ctxs_eq]
  · intro u hu
    have hne : u ≠ t := by omega
    simp only [LogSys.goto, Function.update_of_ne hne]
    exact h.fresh u hu

/-- The last operation ends: a commit starts. -/
theorem Crowd.commit (h : Crowd sb disk n m [(t, rm)] s) :
    ∃ s', Reach (LogSys.step sb) (fun _ _ => True) (LogSys.start disk) s' ∧
      s'.pc t = .commit .check ∧ s'.log.header.numBlocks = n := by
  have hP := Proto.of_reach h.reach
  have hpc : s.pc t = .inOp := hP.keys t (by simp [h.ctxs_eq])
  have hout := hP.reserved.outstanding
  rw [h.ctxs_eq] at hout
  have hrm : s.rm t = some rm := by
    rw [LogSys.rm, h.ctxs_eq]
    simp
  obtain ⟨l, hl⟩ : ∃ l, s.log.endOp rm = (true, l) := by
    simp [Log.endOp, hout]
  have hhdr : l.header = s.log.header :=
    (hP.reserved.endOp (Proto.rm_mem hrm) hl).2.1
  have hs : s.step sb (t, .endOp) = some { s.goto t (.commit .check) with
      log := l
      ctxs := s.ctxs.erase (t, rm)
      started := s.started + 1
      commitNo := Function.update s.commitNo t (s.started + 1) } := by
    simp only [LogSys.step, hpc, if_true, LogSys.leave, hrm, Option.bind_eq_bind,
      Option.bind_some, hl]
  refine ⟨_, h.reach.step trivial hs, s.goto_pc_self _ _, ?_⟩
  simp only [hhdr]
  exact h.numBlocks

/-- **The largest group of concurrent operations**: the header is full, and the last of them may
record no more. -/
theorem exists_full (disk : ℕ → Sector) (hsb : sb.numLogBlocks ≤ logMaxSize) :
    ∃ s, Crowd sb disk logMaxSize 7 [(0, 0)] s := by
  have h : Crowd sb disk 0 0 [] (LogSys.start disk) :=
    ⟨.init, rfl, rfl, by simp [LogSys.start, LogHeader.entries], fun _ _ => rfl, fun _ _ => rfl⟩
  have hsession : ∀ {n m k s}, Crowd sb disk n (m + 1) [(0, opMaxNumBlocks)] s →
      k ≤ opMaxNumBlocks → n + opMaxNumBlocks + opMaxNumBlocks ≤ logMaxSize →
      ∃ s', Crowd sb disk (n + k) (m + 2) [(0, opMaxNumBlocks)] s' := by
    intro n m k s h hk hn
    obtain ⟨s₁, h₁⟩ := h.begin (by simpa using hn)
    obtain ⟨j, hj⟩ : ∃ j, opMaxNumBlocks = j + k := ⟨opMaxNumBlocks - k, by omega⟩
    rw [show ((m + 1, opMaxNumBlocks) : ℕ × ℕ) = (m + 1, j + k) by rw [hj]] at h₁
    obtain ⟨s₂, h₂⟩ := h₁.records k hsb (by omega)
    exact h₂.finish (by omega)
  obtain ⟨s₀, h₀⟩ := h.begin (by simp)
  obtain ⟨s₁, h₁⟩ := hsession (k := 3) h₀ (by simp) (by simp)
  obtain ⟨s₂, h₂⟩ := hsession (k := 10) h₁ (by simp) (by simp)
  obtain ⟨s₃, h₃⟩ := hsession (k := 10) h₂ (by simp) (by simp)
  obtain ⟨s₄, h₄⟩ := hsession (k := 10) h₃ (by simp) (by simp)
  obtain ⟨s₅, h₅⟩ := hsession (k := 10) h₄ (by simp) (by simp)
  obtain ⟨s₆, h₆⟩ := hsession (k := 10) h₅ (by simp) (by simp)
  have h₆' : Crowd sb disk 53 7 [(0, 0 + 10)] s₆ := h₆
  exact h₆'.records 10 hsb (by simp)

/-- Its commit. -/
theorem exists_crowd (disk : ℕ → Sector) (hsb : sb.numLogBlocks ≤ logMaxSize) :
    ∃ s, Reach (LogSys.step sb) (fun _ _ => True) (LogSys.start disk) s ∧
      s.pc 0 = .commit .check ∧ s.log.header.numBlocks = logMaxSize := by
  obtain ⟨s, h⟩ := exists_full disk hsb
  exact h.commit

end Overfull

/-- **The log keeps inside its area exactly when the area is larger than `LOG_MAX_SIZE`.** -/
theorem staysInside_iff (sb : SuperBlock) : StaysInside sb ↔ logMaxSize < sb.numLogBlocks := by
  constructor
  · intro h
    by_contra hsb
    obtain ⟨s, hreach, hpc, hn⟩ :=
      Overfull.exists_crowd (fun _ => Bytes.zero) (Nat.le_of_not_lt hsb)
    have := (h _ s 0 hreach).1 hpc
    omega
  · intro hsb disk s t hreach
    have hP := Proto.of_reach hreach
    have hle := hP.reserved.numBlocks_le
    refine ⟨fun _ => by omega, ?_⟩
    intro i hpc
    have hi : i < s.log.header.numBlocks := hP.within t _ hpc
    simp only [SuperBlock.logBlock]
    omega

/-- The log area of mkfs is left by a group of 63 blocks. -/
theorem not_staysInside_mkfs : ¬ StaysInside Mkfs.sb := by
  intro h
  obtain ⟨s, hreach, hpc, hn⟩ := Overfull.exists_crowd (fun _ => Bytes.zero)
    (show Mkfs.sb.numLogBlocks ≤ logMaxSize by decide)
  have := (h _ s 0 hreach).1 hpc
  rw [hn] at this
  exact absurd this (by decide)

end OsLab
