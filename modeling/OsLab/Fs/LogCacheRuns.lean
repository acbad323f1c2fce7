import OsLab.Fs.LogCacheSteps

/-!
# When `cache_end_op` returns

An operation whose `cache_end_op` has returned should find every block it synced
installed by a commit that started after the sync (`LogCache.Installed`).  This is
so in every run in which no step disturbs the holder of a block, no thread goes to
sleep on `s2` while a commit that does not cover it is about to post, and no commit
overruns the log area.

The second condition is not met by every run (`early_return`): the thread that
commits clears `log.committing` before it posts `s2`.  In between, a new operation
can be admitted, sync, end and go to sleep on `s2`, and the post then wakes it
although nothing of it has been committed.

## Main definitions

* `LogCache.Reached` — the runs the result is about.
* `returned_installed` — the result.
-/

namespace OsLab

namespace LogCache

/-- The states reached by timely steps that disturb no holder. -/
def Reached (sb : SuperBlock) (c : Bcache) (s : LogCache) : Prop :=
  Reach (step sb) (fun s i => s.Timely sb i ∧ s.InOrder sb i) (start c) s

section Start

variable {sb : SuperBlock} {c : Bcache} {h : LogHeader}

theorem start_shows (hc : c.Coherent sb.logStart) (hfree : ∀ b, ¬ c.abs.held b)
    (hlog : c.log = ⟨h.clear, false, 0, 0⟩) : (start c).Shows sb fun _ => none := by
  constructor
  case sound => exact Sound.start hc hfree
  case dirty => simp [start]
  case pins =>
    intro _ b hb
    have hlog' : (start c).log = c.log := rfl
    rw [hlog', hlog] at hb
    simp [LogHeader.entries, LogHeader.clear] at hb
  case held => simp [start, AcqSys.start, Has]
  case asks => simp [start, AcqSys.start, AcqPc.call]
  case keeps => exact fun _ => trivial

/-- The state of `LogSys` behind the start, with the header `init_bcache` has read. -/
theorem abs_start (hlog : c.log = ⟨h.clear, false, 0, 0⟩) (hview : c.view = c.disk) :
    (start c).abs (fun _ => none) (fun _ => 0) =
      { LogSys.start c.disk with log := ⟨h.clear, false, 0, 0⟩ } :=
  (eq_abs (s := start c) (S := { LogSys.start c.disk with log := ⟨h.clear, false, 0, 0⟩ })
    hlog.symm ⟨rfl, rfl, rfl⟩ rfl rfl rfl rfl hview.symm rfl ⟨rfl, rfl, rfl, rfl⟩
    ⟨rfl, rfl, rfl, rfl⟩).symm

theorem start_proto (disk : ℕ → Sector) (h : LogHeader) :
    Proto { LogSys.start disk with log := ⟨h.clear, false, 0, 0⟩ } := by
  constructor <;> simp [LogSys.start, Semaphore.initSem, Semaphore.Balanced]
  constructor <;> simp [LogHeader.entries, LogHeader.clear]

theorem start_durable (disk : ℕ → Sector) (h : LogHeader) :
    Durable sb { LogSys.start disk with log := ⟨h.clear, false, 0, 0⟩ } := by
  constructor <;> simp [LogSys.start, At, LogHeader.entries, LogHeader.clear]

end Start

/-- **Every run of the shared cache is one of `LogSys`**, up to the steps inside the calls. -/
theorem Reached.shows {sb : SuperBlock} {disk : ℕ → Sector} {c : Bcache} {s : LogCache}
    (hc : Bcache.initBcache sb disk = some c)
    (hout : OutsideLog sb (LogHeader.decode (disk sb.logStart))) (h : Reached sb c s) : ∃ held recorded,
      s.Shows sb held ∧ Proto (s.abs held recorded) ∧ Durable sb (s.abs held recorded) := by
  obtain ⟨c', hc', hcoh, -, -, hview, hfree, -, hlog⟩ := initBcache_spec hout
  obtain rfl : c' = c := Option.some.inj (hc'.symm.trans hc)
  have hinv := Reach.invariant (P := fun s => ∃ held recorded,
    s.Shows sb held ∧ Proto (s.abs held recorded) ∧ Durable sb (s.abs held recorded)) h
  refine hinv ⟨_, fun _ => 0, start_shows hcoh hfree hlog, ?_, ?_⟩ ?_
  · rw [abs_start hlog hview]
    exact start_proto _ _
  · rw [abs_start hlog hview]
    exact start_durable _ _
  · rintro s i s' ⟨held, recorded, hS, hP, hD⟩ ⟨hok, ho⟩ hs
    obtain ⟨held', recorded', hS', hfollows⟩ := step_matched hS hP hD hok ho hs
    exact ⟨held', recorded', hS', hfollows.inv hP hD⟩

end LogCache

/-- **`cache_end_op` means durable** in every run whose steps are timely and disturb no holder of
a block: in each state reached, every block synced by an operation whose `cache_end_op` has
returned was installed by a commit that started after the sync. -/
theorem returned_installed {sb : SuperBlock} {disk : ℕ → Sector} {c : Bcache} {s : LogCache} {t : ℕ}
    (hc : Bcache.initBcache sb disk = some c)
    (hout : OutsideLog sb (LogHeader.decode (disk sb.logStart))) (h : LogCache.Reached sb c s)
    (ht : s.pc t = .returned) : ∀ x ∈ s.synced t, s.Installed x := by
  obtain ⟨held, recorded, -, -, hD⟩ := h.shows hc hout
  exact hD.installed (congrArg (CachePc.abs _) ht)

/-! ## Two runs -/

namespace AcqSys

/-- While the cache has room, nobody has taken a block over. -/
def Roomy (s : AcqSys) : Prop :=
  s.cache.head.length < evictionThreshold → ∀ u p b, s.pc u ≠ .evictWait p b

variable {s s' : AcqSys} {i : ℕ × AcqAct}

theorem Roomy.congr (h : s.Roomy) (hhead : s.cache.head.length ≤ s'.cache.head.length)
    (hpc : ∀ u p b, s'.pc u = .evictWait p b → s.pc u = .evictWait p b) : s'.Roomy := by
  intro hlt u p b hu
  exact h (by omega) u p b (hpc u p b hu)

/-- One thread goes on to a point other than the wait for a block it has taken over. -/
theorem not_evictWait_update {pc : ℕ → AcqPc} {t : ℕ} {r : AcqPc} (hr : ∀ p b, r ≠ .evictWait p b)
    (u p b : ℕ) (hu : Function.update pc t r u = .evictWait p b) : pc u = .evictWait p b := by
  rw [Function.update_apply] at hu
  split at hu
  · exact absurd hu (hr p b)
  · exact hu

theorem Roomy.step (h : s.Roomy) (hs : s.step i = some s') : s'.Roomy := by
  obtain ⟨t, a⟩ := i
  cases a with
  | acquire b =>
      simp only [AcqSys.step] at hs
      split_ifs at hs
      simp only [Bcache.acquireLocked] at hs
      split at hs
      · rename_i p c hacq
        split at hacq
        · cases hacq
          cases hs
          exact h.congr le_rfl (not_evictWait_update (by simp))
        · split at hacq <;> cases hacq
      · rename_i p c hacq
        split at hacq
        · cases hacq
        · split at hacq
          · rename_i hv
            cases hacq
            cases hs
            intro hlt
            split_ifs at hv with hfull
            exact absurd hfull (not_le.mpr hlt)
          · cases hacq
      · rename_i p c hacq
        split at hacq
        · cases hacq
        · split at hacq
          · cases hacq
          · cases hacq
            cases hs
            exact h.congr (Nat.le_succ _) (not_evictWait_update (by simp))
  | put p d kind =>
      simp only [AcqSys.step] at hs
      split at hs
      · cases hs
        exact h.congr (by cases kind <;> exact le_rfl) (fun _ _ _ hu => hu)
      · cases hs
  | release p =>
      simp only [AcqSys.step] at hs
      split at hs
      · cases hs
        refine h.congr ?_ (not_evictWait_update (by simp))
        simp only [AcqSys.goto, Bcache.releaseLocked, List.length_cons, List.length_erase]
        split <;> omega
      · cases hs
  | run =>
      have hrun : s.runStep t = some s' := hs
      cases hpc : s.pc t with
      | hitWait p b =>
          simp only [AcqSys.runStep, hpc] at hrun
          split at hrun
          all_goals
            cases hrun
            exact h.congr le_rfl (not_evictWait_update (by simp))
      | evictWait p b =>
          simp only [AcqSys.runStep, hpc] at hrun
          split at hrun
          all_goals
            cases hrun
            exact h.congr le_rfl (not_evictWait_update (by simp))
      | reading p b =>
          simp only [AcqSys.runStep, hpc] at hrun
          cases hrun
          exact h.congr le_rfl (not_evictWait_update (by simp))
      | releasing p =>
          simp only [AcqSys.runStep, hpc] at hrun
          split at hrun
          · cases hrun
          · cases hrun
            exact h.congr le_rfl (not_evictWait_update (by simp))
          · rename_i v l hpost
            cases hrun
            have hgo : ((s.setLock p l).goto t .idle).Roomy :=
              h.congr le_rfl (not_evictWait_update (by simp))
            simp only [AcqSys.wake]
            split
            · exact hgo.congr le_rfl (not_evictWait_update (by simp))
            · exact hgo.congr le_rfl (not_evictWait_update (by simp))
            · exact hgo
      | _ =>
          simp only [AcqSys.runStep, hpc] at hrun
          cases hrun

/-- A block is taken over in a full cache only. -/
theorem full_of_evict {c : Bcache} {b p : ℕ} {c' : Bcache} (h : c.acquireLocked b = (.evict p, c')) :
    evictionThreshold ≤ c.head.length := by
  simp only [Bcache.acquireLocked] at h
  split at h
  · cases h
  · split at h
    · rename_i hv
      split_ifs at hv with hfull
      exact hfull
    · cases h

end AcqSys

namespace LogCache

variable {sb : SuperBlock} {c : Bcache} {s s' : LogCache} {i : ℕ × LogCacheAct} {t : ℕ}

theorem roomy_commitStep {q : CommitPc} (h : s.blocks.Roomy) (hs : s.commitStep sb t q = some s') :
    s'.blocks.Roomy := by
  have hcall : ∀ {a} {f : AcqSys → LogCache}, (∀ b, (f b).blocks = b) →
      (s.blocks.step (t, a)).map f = some s' → s'.blocks.Roomy := by
    rintro a f hf hs
    obtain ⟨blocks, hstep, rfl⟩ := Option.map_eq_some_iff.mp hs
    rw [hf]
    exact h.step hstep
  cases q with
  | check =>
      simp only [commitStep] at hs
      split at hs <;> cases hs <;> exact h
  | first k tail =>
      simp only [commitStep] at hs
      split at hs
      · exact hcall (fun _ => rfl) hs
      · cases hs
        exact h
  | second k tail => exact hcall (fun _ => rfl) hs
  | freeFrom k tail lp rp => exact hcall (fun _ => rfl) hs
  | freeTo k tail lp rp => exact hcall (fun _ => rfl) hs
  | copy k tail lp =>
      cases hs
      exact h.congr le_rfl fun _ _ _ hu => hu
  | _ =>
      cases hs
      exact h.congr le_rfl fun _ _ _ hu => hu

theorem roomy_step (h : s.blocks.Roomy) (hs : s.step sb i = some s') : s'.blocks.Roomy := by
  obtain ⟨t, a⟩ := i
  have hsame : s'.blocks = s.blocks → s'.blocks.Roomy := fun hb => hb ▸ h
  cases a with
  | beginOp =>
      simp only [step] at hs
      split at hs <;> cases hs
      exact h
  | acquire b =>
      simp only [step] at hs
      split at hs
      · obtain ⟨blocks, hstep, rfl⟩ := Option.map_eq_some_iff.mp hs
        exact h.step hstep
      · cases hs
  | modify p d =>
      simp only [step] at hs
      split at hs
      · split at hs <;> cases hs
        exact h.congr le_rfl fun _ _ _ hu => hu
      · cases hs
  | sync p =>
      simp only [step] at hs
      split at hs
      · split at hs
        · simp only [sync, Option.bind_eq_bind, Option.bind_eq_some_iff] at hs
          obtain ⟨rm, -, ⟨new, rm', l⟩, -, hs⟩ := hs
          cases hs
          cases new <;> exact h.congr le_rfl fun _ _ _ hu => hu
        · cases hs
      · cases hs
  | release p =>
      simp only [step] at hs
      split at hs
      · split at hs
        · obtain ⟨blocks, hstep, rfl⟩ := Option.map_eq_some_iff.mp hs
          exact h.step hstep
        · cases hs
      · cases hs
  | endOp =>
      simp only [step] at hs
      split at hs
      · simp only [leave, Option.bind_eq_bind, Option.bind_eq_some_iff] at hs
        obtain ⟨rm, -, hs⟩ := hs
        split at hs <;> cases hs <;> exact h.congr le_rfl fun _ _ _ hu => hu
      · cases hs
  | run =>
      simp only [step] at hs
      split at hs
      · have hpost : ∀ {sem put awake next}, (∀ l, (put s l).blocks = s.blocks) →
            s.post t sem put awake next = some s' → s'.blocks.Roomy := by
          intro sem put awake next hput hs
          obtain ⟨r, -, rfl⟩ := Option.map_eq_some_iff.mp hs
          exact hsame (hput r.2)
        have hwait : ∀ {sem put asleep awake}, (∀ l, (put s l).blocks = s.blocks) →
            (s.wait t sem put asleep awake).blocks = s.blocks := by
          intro sem put asleep awake hput
          rw [wait]
          split <;> exact hput _
        simp only [runStep] at hs
        split at hs
        · cases hs
          rw [enter]
          split
          · exact h
          · exact h
          · exact h.congr le_rfl fun _ _ _ hu => hu
        · cases hs
          exact hsame (hwait fun _ => rfl)
        · cases hs
          exact hsame (hwait fun _ => rfl)
        · exact hpost (fun _ => rfl) hs
        · cases hs
          exact hsame (hwait fun _ => rfl)
        · exact roomy_commitStep h hs
        · exact hpost (fun _ => rfl) hs
        · exact hpost (fun _ => rfl) hs
        · exact hpost (fun _ => rfl) hs
        all_goals cases hs
      · obtain ⟨blocks, hstep, rfl⟩ := Option.map_eq_some_iff.mp hs
        exact h.step hstep

/-- **A test for the condition**: the cache has room, and a thread that waits on `s2` does so before
the first commit has cleared `log.committing`. -/
def calm (sb : SuperBlock) (s : LogCache) (i : ℕ × LogCacheAct) : Bool :=
  decide (s.blocks.cache.head.length < evictionThreshold) && match i with
    | (t, .run) => s.pc t ≠ .waitS2 || s.finished = 0
    | (_, .endOp) => s.log.header.numBlocks < sb.numLogBlocks
    | _ => true

theorem Reached.roomy (h : Reached sb c s) : s.blocks.Roomy := by
  refine Reach.invariant (P := fun s => s.blocks.Roomy) h ?_ fun _ _ _ h _ hs => roomy_step h hs
  intro _ u p b hu
  cases hu

theorem Reached.of_calm {disk : ℕ → Sector}
    (hc : Bcache.initBcache sb disk = some c)
    (hout : OutsideLog sb (LogHeader.decode (disk sb.logStart))) (h : Reached sb c s)
    (is : List (ℕ × LogCacheAct))
    (hr : runs (fun s i => if calm sb s i then step sb s i else none) s is = some s') :
    Reached sb c s' := by
  refine Reach.of_checked h ?_ is hr
  intro s i hs hcalm
  have hs' : Reached sb c s := hs
  simp only [calm, Bool.and_eq_true, decide_eq_true_eq] at hcalm
  obtain ⟨hroom, hcalm⟩ := hcalm
  constructor
  · obtain ⟨t, a⟩ := i
    cases a with
    | run =>
        intro hw u hu
        simp only [hw, ne_eq, not_true_eq_false, decide_false, Bool.false_or,
          decide_eq_true_eq] at hcalm
        -- nobody posts before a commit has finished
        obtain ⟨held, recorded, -, -, hD⟩ := hs'.shows hc hout
        have hhere := hD.here u
        rcases hu with hu | hu
        all_goals
          rw [show (s.abs held recorded).pc u = _ from congrArg (CachePc.abs _) hu] at hhere
          obtain ⟨h₁, h₂⟩ := hhere
          have h₂' : s.commitNo u ≤ s.finished := h₂
          have h₁' : s.began u < s.commitNo u := h₁
          omega
    | endOp => exact fun _ => by simpa using hcalm
    | _ => trivial
  · intro a ha
    cases a with
    | acquire b =>
        intro p c' hacq
        exact absurd (AcqSys.full_of_evict hacq) (not_le.mpr hroom)
    | run => exact fun p b _ u c => hs'.roomy hroom u p c
    | _ => trivial

end LogCache

/-! ## Two threads, and three -/

namespace TwoWriters

def twos : Sector := Bytes.ofFn fun _ => 2

/-- Thread 1 waits for block 200 while thread 0 changes it, and then changes it too.  Its operation
ends first, so it sleeps on `s2`. -/
def waiting : List (ℕ × LogCacheAct) :=
  [(0, .beginOp), (0, .run), (0, .acquire 200), (1, .beginOp), (1, .run), (1, .acquire 200),
    (1, .run), (0, .modify 0 Overfull.ones), (0, .sync 0), (0, .release 0), (0, .run),
    (1, .modify 0 twos), (1, .sync 0), (1, .release 0), (1, .run), (1, .endOp), (1, .run),
    (1, .run)]

/-- Thread 0 ends its operation and commits. -/
def committing : List (ℕ × LogCacheAct) := (0, .endOp) :: List.replicate 28 (0, .run)

/-- The run of these steps. -/
def run (is : List (ℕ × LogCacheAct)) : Option LogCache :=
  (Bcache.initBcache Mkfs.sb fun _ => Bytes.zero).bind fun c =>
    runs (fun s i => if LogCache.calm Mkfs.sb s i then LogCache.step Mkfs.sb s i else none)
      (LogCache.start c) is

theorem outside : OutsideLog Mkfs.sb (LogHeader.decode Bytes.zero) := by
  intro i hi
  have hzero : (LogHeader.decode Bytes.zero).numBlocks = 0 :=
    Overfull.numBlocks_decode_zero (fun _ => rfl) 0
  rw [hzero] at hi
  exact absurd hi (Nat.not_lt_zero i)

theorem reached {is : List (ℕ × LogCacheAct)} {s : LogCache} (h : run is = some s) :
    ∃ c, Bcache.initBcache Mkfs.sb (fun _ => Bytes.zero) = some c ∧
      LogCache.Reached Mkfs.sb c s := by
  obtain ⟨c, hc, hr⟩ := Option.bind_eq_some_iff.mp h
  exact ⟨c, hc, LogCache.Reached.of_calm hc outside .init is hr⟩

end TwoWriters

open TwoWriters in
/-- Thread 1 has slept on `s2`, and finds its content of block 200 on disk. -/
theorem returned_installed_asleep : ∃ c s₁ s, Bcache.initBcache Mkfs.sb (fun _ => Bytes.zero) = some c ∧
    LogCache.Reached Mkfs.sb c s₁ ∧ s₁.pc 1 = .asleepS2 ∧ s₁.disk 200 = Bytes.zero ∧
    LogCache.Reached Mkfs.sb c s ∧ s.pc 1 = .returned ∧ s.synced 1 = [(200, 2, 0)] ∧
    s.hist 200 = [Bytes.zero, Overfull.ones, twos] ∧ s.Installed (200, 2, 0) := by
  have hwait : (run waiting).map (fun s => (s.pc 1, s.disk 200)) =
      some (.asleepS2, Bytes.zero) := by decide +kernel
  have hdone : (run (waiting ++ committing)).map (fun s => (s.pc 1, s.synced 1, s.hist 200)) =
      some (.returned, [(200, 2, 0)], [Bytes.zero, Overfull.ones, twos]) := by decide +kernel
  obtain ⟨s₁, hs₁, hx₁⟩ := Option.map_eq_some_iff.mp hwait
  obtain ⟨s, hs, hx⟩ := Option.map_eq_some_iff.mp hdone
  simp only [Prod.mk.injEq] at hx₁ hx
  obtain ⟨hasleep, hzero⟩ := hx₁
  obtain ⟨hpc, hsynced, hhist⟩ := hx
  obtain ⟨c, hc, hreach₁⟩ := reached hs₁
  obtain ⟨c', hc', hreach⟩ := reached hs
  obtain rfl : c' = c := Option.some.inj (hc'.symm.trans hc)
  refine ⟨c', s₁, s, hc, hreach₁, hasleep, hzero, hreach, hpc, hsynced, hhist, ?_⟩
  refine returned_installed hc outside hreach hpc _ ?_
  rw [hsynced]
  exact List.mem_singleton.mpr rfl

/-- **An early return.**  Thread 0 commits an empty group and has cleared `log.committing`.
Threads 1 and 2 begin; thread 2 changes block 200, syncs it, ends and goes to sleep on `s2`.
Thread 0 posts `s2`, and `cache_end_op` of thread 2 returns with nothing on disk. -/
theorem early_return : ∃ c s, Bcache.initBcache Mkfs.sb (fun _ => Bytes.zero) = some c ∧
    Reach (LogCache.step Mkfs.sb) (fun _ _ => True) (LogCache.start c) s ∧
    s.pc 2 = .returned ∧ s.synced 2 = [(200, 1, 1)] ∧ s.hist 200 = [Bytes.zero, Overfull.ones] ∧
    s.disk 200 = Bytes.zero ∧ ¬ s.Installed (200, 1, 1) := by
  have hrun : ((Bcache.initBcache Mkfs.sb fun _ => Bytes.zero).bind fun c =>
      runs (LogCache.step Mkfs.sb) (LogCache.start c)
        [(0, .beginOp), (0, .run), (0, .endOp), (0, .run), (0, .run), (1, .beginOp), (1, .run),
          (2, .beginOp), (2, .run), (2, .acquire 200), (2, .modify 0 Overfull.ones), (2, .sync 0),
          (2, .release 0), (2, .run), (2, .endOp), (2, .run), (2, .run), (0, .run),
          (0, .run)]).map (fun s => ((s.pc 2, s.synced 2), s.hist 200, s.disk 200, s.inst 200)) =
      some ((.returned, [(200, 1, 1)]), [Bytes.zero, Overfull.ones], Bytes.zero, 0) := by
    decide +kernel
  obtain ⟨s, hs, hx⟩ := Option.map_eq_some_iff.mp hrun
  obtain ⟨c, hc, hs⟩ := Option.bind_eq_some_iff.mp hs
  simp only [Prod.mk.injEq] at hx
  obtain ⟨⟨hpc, hsynced⟩, hhist, hdisk, hinst⟩ := hx
  refine ⟨c, s, hc, Reach.init.of_runs _ hs, hpc, hsynced, hhist, hdisk, ?_⟩
  rintro ⟨hlt, -⟩
  rw [hinst] at hlt
  exact absurd hlt (by decide)

end OsLab
