import OsLab.Fs.CacheProg
import OsLab.Fs.LogProtocol

/-!
# A thread that runs a program in an operation

One thread of the system of `OsLab.Fs.LogSys` is between `cache_begin_op` and `cache_end_op` and
runs a program; the others take any steps.  `header.num_blocks` is not reset while the operation
is outstanding, so that a block takes from `ctx->rm` the first time it is synced at most, and a
program that syncs no more than `OP_MAX_NUM_BLOCKS` different blocks does not make `cache_sync`
panic (`sync_isSome`).

## Main definitions

* `OpRun`, `OpRun.answer`, `OpRun.others` — the system with the program in it.
* `Counted` — what an operation has taken from `ctx->rm`, kept by every step.
* `syncContract` — what a program may sync, and what it may rely on.
* `meets_of_reach` — such a program in every run.
-/

namespace OsLab

/-! ## The operations of the system -/

/-- The blocks that the operation of thread `t` has synced. -/
def LogSys.syncedBlocks (s : LogSys) (t : ℕ) : List ℕ := (s.synced t).map Prod.fst

/-- An operation is outstanding, has recorded no more numbers than it has synced blocks, and the
header has those. -/
structure Counted (s : LogSys) (t : ℕ) : Prop where
  ctx : t ∈ s.ctxs.map Prod.fst
  recorded : s.recorded t ≤ (s.syncedBlocks t).toFinset.card
  entries : ∀ b ∈ s.syncedBlocks t, b ∈ s.log.header.entries

/-- What stays of an operation that does not take the step. -/
structure OpKept (s s' : LogSys) (t : ℕ) : Prop where
  pc : s'.pc t = .inOp ↔ s.pc t = .inOp
  ctx : t ∈ s.ctxs.map Prod.fst → t ∈ s'.ctxs.map Prod.fst
  recorded : s'.recorded t = s.recorded t
  synced : s'.synced t = s.synced t
  entries : t ∈ s.ctxs.map Prod.fst → ∀ b ∈ s.log.header.entries, b ∈ s'.log.header.entries

section System

variable {sb : SuperBlock} {s s' : LogSys} {t u b : ℕ} {a : Act}

theorem Counted.kept (h : Counted s t) (hk : OpKept s s' t) : Counted s' t := by
  have hsynced : s'.syncedBlocks t = s.syncedBlocks t := by
    rw [LogSys.syncedBlocks, hk.synced, LogSys.syncedBlocks]
  refine ⟨hk.ctx h.ctx, ?_, ?_⟩
  · rw [hsynced, hk.recorded]
    exact h.recorded
  · rw [hsynced]
    exact fun b hb => hk.entries h.ctx b (h.entries b hb)

/-- A step that moves another thread only. -/
theorem OpKept.of_goto (ht : t ≠ u) (p : Pc) (hlog : s'.log = s.log) (hctxs : s'.ctxs = s.ctxs)
    (hpc : s'.pc = (s.goto u p).pc) (hrec : s'.recorded = s.recorded)
    (hsynced : s'.synced = s.synced) : OpKept s s' t := by
  constructor
  · rw [hpc, s.goto_pc_of_ne p ht]
  · rw [hctxs]
    exact id
  · rw [hrec]
  · rw [hsynced]
  · rw [hlog]
    exact fun _ _ => id

theorem OpKept.of_same (hlog : s'.log = s.log) (hctxs : s'.ctxs = s.ctxs) (hpc : s'.pc = s.pc)
    (hrec : s'.recorded = s.recorded) (hsynced : s'.synced = s.synced) : OpKept s s' t := by
  constructor
  · rw [hpc]
  · rw [hctxs]
    exact id
  · rw [hrec]
  · rw [hsynced]
  · rw [hlog]
    exact fun _ _ => id

/-- `post_all_sem` wakes threads that are asleep, and so in no operation. -/
theorem OpKept.of_post {sem : Semaphore} {put : LogSys → Semaphore → LogSys} {awake next q : Pc}
    (ht : t ≠ u) (hbal : sem.Balanced) (hsleep : ∀ v ∈ sem.sleeplist, s.pc v = q)
    (hq : q ≠ .inOp) (hput : ∀ sem, (put s sem).log = s.log ∧ (put s sem).ctxs = s.ctxs ∧
      (put s sem).pc = s.pc ∧ (put s sem).recorded = s.recorded ∧ (put s sem).synced = s.synced)
    (hawake : awake ≠ .inOp) (hs : s.post u sem put awake next = some s') : OpKept s s' t := by
  rw [LogSys.post, Semaphore.postAllSem_of_balanced hbal, Option.map_some] at hs
  cases hs
  obtain ⟨hlog, hctxs, hpc, hrec, hsynced⟩ := hput (Semaphore.initSem 0)
  constructor
  · rw [LogSys.goto_pc_of_ne _ _ ht]
    simp only [LogSys.wake, hpc]
    split_ifs with hmem
    · have hpct := hsleep t (List.mem_reverse.mp hmem)
      constructor
      · intro h
        exact absurd h hawake
      · intro h
        exact absurd (hpct.symm.trans h) hq
    · exact Iff.rfl
  · intro h
    exact hctxs ▸ h
  · exact congrFun hrec t
  · exact congrFun hsynced t
  · intro _ b hb
    exact hlog ▸ hb

/-- A thread that waits on a semaphore moves itself only. -/
theorem wait_kept (ht : t ≠ u) (s : LogSys) (sem : Semaphore)
    (put : LogSys → Semaphore → LogSys) (asleep awake : Pc)
    (hput : ∀ sem, (put s sem).log = s.log ∧ (put s sem).ctxs = s.ctxs ∧ (put s sem).pc = s.pc ∧
      (put s sem).recorded = s.recorded ∧ (put s sem).synced = s.synced) :
    OpKept s (s.wait u sem put asleep awake) t := by
  have hgoto : ∀ sem p, OpKept s ((put s sem).goto u p) t := by
    intro sem p
    obtain ⟨hlog, hctxs, hpc, hrec, hsynced⟩ := hput sem
    refine .of_goto ht p hlog hctxs ?_ hrec hsynced
    rw [LogSys.goto, LogSys.goto, hpc]
  rw [LogSys.wait]
  split
  · exact hgoto _ _
  · exact hgoto _ _

/-- A step of a commit leaves the operations alone. -/
theorem commitStep_frame {ph : Phase} (hs : s.commitStep sb u ph = some s') :
    s'.ctxs = s.ctxs ∧ s'.recorded = s.recorded ∧ s'.synced = s.synced ∧
      (∀ v, v ≠ u → s'.pc v = s.pc v) ∧ s'.pc u ≠ .inOp := by
  have hgoto : ∀ (r : LogSys) p, p ≠ .inOp →
      (∀ v, v ≠ u → (r.goto u p).pc v = r.pc v) ∧ (r.goto u p).pc u ≠ .inOp := by
    intro r p hp
    refine ⟨fun v hv => r.goto_pc_of_ne p hv, ?_⟩
    rw [r.goto_pc_self]
    exact hp
  have htake : ∀ (r : LogSys) b ph, (r.take u b).map (fun r => r.goto u (.commit ph)) = some s' →
      s'.ctxs = r.ctxs ∧ s'.recorded = r.recorded ∧ s'.synced = r.synced ∧
        (∀ v, v ≠ u → s'.pc v = r.pc v) ∧ s'.pc u ≠ .inOp := by
    intro r b ph hr
    obtain ⟨r', hr', rfl⟩ := Option.map_eq_some_iff.mp hr
    obtain ⟨-, rfl⟩ := Proto.take_some hr'
    exact ⟨rfl, rfl, rfl, hgoto _ _ (by simp)⟩
  cases ph with
  | check =>
      simp only [LogSys.commitStep] at hs
      split_ifs at hs
      · cases hs
        exact ⟨rfl, rfl, rfl, hgoto s _ (by simp)⟩
      · cases hs
        exact ⟨rfl, rfl, rfl, hgoto s _ (by simp)⟩
  | logTo i | installFrom i =>
      simp only [LogSys.commitStep] at hs
      split_ifs at hs
      · exact htake s _ _ hs
      · cases hs
        exact ⟨rfl, rfl, rfl, hgoto s _ (by simp)⟩
  | logFrom i | installTo i => exact htake s _ _ hs
  | logCopy i | installCopy i | writeHeader | clear | clearHeader | finish =>
      cases hs
      exact ⟨rfl, rfl, rfl, hgoto s _ (by simp)⟩

/-- **A step of another thread keeps the operation.** -/
theorem OpKept.of_step (hP : Proto s) (ht : t ≠ u) (hs : s.step sb (u, a) = some s') :
    OpKept s s' t := by
  have hkeys : ∀ {ctxs : List (ℕ × ℕ)} {x : ℕ × ℕ}, x.1 = u → t ∈ ctxs.map Prod.fst →
      t ∈ (ctxs.erase x).map Prod.fst := by
    intro ctxs x hx hmem
    obtain ⟨y, hy, rfl⟩ := List.mem_map.mp hmem
    refine List.mem_map_of_mem ((List.mem_erase_of_ne ?_).mpr hy)
    rintro rfl
    exact ht hx
  cases a with
  | beginOp =>
      simp only [LogSys.step] at hs
      split_ifs at hs
      cases hs
      exact .of_goto ht .entering rfl rfl rfl rfl rfl
  | acquire b =>
      simp only [LogSys.step] at hs
      split_ifs at hs
      obtain ⟨-, rfl⟩ := Proto.take_some hs
      exact .of_same rfl rfl rfl rfl rfl
  | modify b d =>
      simp only [LogSys.step] at hs
      split_ifs at hs
      cases hs
      exact .of_same rfl rfl rfl rfl rfl
  | release b =>
      simp only [LogSys.step] at hs
      split_ifs at hs
      cases hs
      exact .of_same rfl rfl rfl rfl rfl
  | sync b =>
      simp only [LogSys.step] at hs
      split_ifs at hs with hop
      simp only [LogSys.sync, Option.bind_eq_bind, Option.bind_eq_some_iff] at hs
      obtain ⟨rm, hrm, ⟨new, rm', l⟩, hl, hs⟩ := hs
      cases hs
      obtain ⟨-, -, -, hgrow, -⟩ := hP.reserved.sync (Proto.rm_mem hrm) hl
      constructor
      · exact Iff.rfl
      · exact fun hmem => List.mem_cons_of_mem _ (hkeys rfl hmem)
      · exact Function.update_of_ne ht _ _
      · exact Function.update_of_ne ht _ _
      · exact fun _ x hx => (hgrow x).mpr (Or.inl hx)
  | endOp =>
      simp only [LogSys.step] at hs
      split_ifs at hs with hop
      simp only [LogSys.leave, Option.bind_eq_bind, Option.bind_eq_some_iff] at hs
      obtain ⟨rm, hrm, hs⟩ := hs
      split at hs
      all_goals
        rename_i l hl
        cases hs
        obtain ⟨-, hhdr, -, -⟩ := hP.reserved.endOp (Proto.rm_mem hrm) hl
        constructor
        · rw [show _ = _ from s.goto_pc_of_ne _ ht]
        · exact hkeys rfl
        · rfl
        · rfl
        · exact fun _ b hb => hhdr ▸ hb
  | run =>
      obtain ⟨hb1, hb2, hb3⟩ := hP.balanced
      simp only [LogSys.step, LogSys.runStep] at hs
      split at hs
      · cases hs
        rw [LogSys.enter]
        split
        · exact .of_goto ht .waitS3 rfl rfl rfl rfl rfl
        · exact .of_goto ht .waitS1 rfl rfl rfl rfl rfl
        · rename_i hpc rm l hl
          have hhdr : l.header = s.log.header := by
            simp only [Log.beginOp] at hl
            split_ifs at hl
            cases hl
            rfl
          constructor
          · rw [show _ = _ from s.goto_pc_of_ne .inOp ht]
          · exact fun hmem => List.mem_cons_of_mem _ hmem
          · exact Function.update_of_ne ht _ _
          · exact Function.update_of_ne ht _ _
          · exact fun _ b hb => hhdr ▸ hb
      · cases hs
        exact wait_kept ht _ _ _ _ _ fun _ => ⟨rfl, rfl, rfl, rfl, rfl⟩
      · cases hs
        exact wait_kept ht _ _ _ _ _ fun _ => ⟨rfl, rfl, rfl, rfl, rfl⟩
      · exact .of_post ht hb1 hP.asleep1 (by simp) (fun _ => ⟨rfl, rfl, rfl, rfl, rfl⟩) (by simp) hs
      · cases hs
        exact wait_kept ht _ _ _ _ _ fun _ => ⟨rfl, rfl, rfl, rfl, rfl⟩
      · rename_i ph hpc
        obtain ⟨hctxs, hrec, hsynced, hpcs, -⟩ := commitStep_frame hs
        constructor
        · rw [hpcs t ht]
        · rw [hctxs]
          exact id
        · rw [hrec]
        · rw [hsynced]
        · intro hmem
          rw [(hP.alone u ph hpc).1] at hmem
          cases hmem
      · exact .of_post ht hb1 hP.asleep1 (by simp) (fun _ => ⟨rfl, rfl, rfl, rfl, rfl⟩) (by simp) hs
      · exact .of_post ht hb2 hP.asleep2 (by simp) (fun _ => ⟨rfl, rfl, rfl, rfl, rfl⟩) (by simp) hs
      · exact .of_post ht hb3 hP.asleep3 (by simp) (fun _ => ⟨rfl, rfl, rfl, rfl, rfl⟩) (by simp) hs
      all_goals cases hs

/-- `cache_sync` takes from `ctx->rm` for a block that the operation has not synced before. -/
theorem Counted.sync (hP : Proto s) (h : Counted s t) (hs : s.sync t b = some s') :
    Counted s' t ∧ s'.syncedBlocks t = s.syncedBlocks t ++ [b] := by
  simp only [LogSys.sync, Option.bind_eq_bind, Option.bind_eq_some_iff] at hs
  obtain ⟨rm, hrm, ⟨new, rm', l⟩, hl, hs⟩ := hs
  cases hs
  obtain ⟨-, -, hb, hgrow, hnew⟩ := hP.reserved.sync (Proto.rm_mem hrm) hl
  have hsynced : ((s.synced t ++ [(b, (s.hist b).length - 1, s.started)]).map Prod.fst) =
      s.syncedBlocks t ++ [b] := by
    rw [List.map_append, LogSys.syncedBlocks]
    rfl
  refine ⟨⟨List.mem_cons_self, ?_, ?_⟩, ?_⟩
  · simp only [LogSys.syncedBlocks, Function.update_self]
    rw [hsynced]
    have hsub : (s.syncedBlocks t).toFinset ⊆ (s.syncedBlocks t ++ [b]).toFinset := by
      intro x hx
      rw [List.mem_toFinset] at hx ⊢
      exact List.mem_append_left _ hx
    cases hn : new with
    | false =>
        rw [if_neg (by decide), Nat.add_zero]
        exact h.recorded.trans (Finset.card_le_card hsub)
    | true =>
        rw [if_pos rfl]
        have hnot : b ∉ s.syncedBlocks t := fun hmem => hnew.mp hn (h.entries b hmem)
        have hcard : (s.syncedBlocks t ++ [b]).toFinset.card =
            (s.syncedBlocks t).toFinset.card + 1 := by
          rw [List.toFinset_append, List.toFinset_cons, List.toFinset_nil, insert_empty_eq,
            Finset.union_comm, ← Finset.insert_eq, Finset.card_insert_of_notMem]
          rwa [List.mem_toFinset]
        rw [hcard]
        exact Nat.succ_le_succ h.recorded
  · intro x hx
    simp only [LogSys.syncedBlocks, Function.update_self] at hx
    rw [hsynced] at hx
    rcases List.mem_append.mp hx with hx | hx
    · exact (hgrow x).mpr (Or.inl (h.entries x hx))
    · rw [List.mem_singleton.mp hx]
      exact hb
  · simp only [LogSys.syncedBlocks, Function.update_self]
    exact hsynced

/-- **No panic**: an operation that has synced, with this block, no more than `OP_MAX_NUM_BLOCKS`
different ones finds room for it. -/
theorem Counted.sync_isSome (hP : Proto s) (h : Counted s t)
    (hcard : (s.syncedBlocks t ++ [b]).toFinset.card ≤ opMaxNumBlocks) : (s.sync t b).isSome := by
  obtain ⟨x, hx, rfl⟩ := List.mem_map.mp h.ctx
  have hfind : (s.ctxs.find? fun y => y.1 = x.1).isSome := by
    rw [List.find?_isSome]
    exact ⟨x, hx, by simp⟩
  obtain ⟨y, hy⟩ := Option.isSome_iff_exists.mp hfind
  have hrm : s.rm x.1 = some y.2 := by rw [LogSys.rm, hy, Option.map_some]
  have hrec := hP.recorded _ (Proto.rm_mem hrm)
  simp only [LogSys.sync, hrm, Option.bind_eq_bind, Option.bind_some, Log.sync]
  by_cases hb : b ∈ s.log.header.entries
  · rw [if_pos hb]
    rfl
  · have hnot : b ∉ s.syncedBlocks x.1 := fun hmem => hb (h.entries b hmem)
    have hlt : (s.syncedBlocks x.1).toFinset.card + 1 ≤ opMaxNumBlocks := by
      rw [List.toFinset_append, List.toFinset_cons, List.toFinset_nil, insert_empty_eq,
        Finset.union_comm, ← Finset.insert_eq, Finset.card_insert_of_notMem] at hcard
      · exact hcard
      · rwa [List.mem_toFinset]
    have hrecorded := h.recorded
    rw [if_neg hb, if_pos (by simp only at hrec; omega)]
    rfl

/-- A step of the thread itself. -/
theorem counted_own (hP : Proto s) (hcount : s.pc t = .inOp → Counted s t)
    (hs : s.step sb (t, a) = some s') (ht : s'.pc t = .inOp) : Counted s' t := by
  have hgoto : ∀ (r : LogSys) p, p ≠ .inOp → (r.goto t p).pc t ≠ .inOp := by
    intro r p hp
    rw [r.goto_pc_self]
    exact hp
  cases a with
  | beginOp =>
      simp only [LogSys.step] at hs
      split_ifs at hs
      cases hs
      exact absurd ht (hgoto _ _ (by simp))
  | acquire b =>
      simp only [LogSys.step] at hs
      split_ifs at hs
      obtain ⟨-, rfl⟩ := Proto.take_some hs
      exact (hcount ht).kept (.of_same rfl rfl rfl rfl rfl)
  | modify b d =>
      simp only [LogSys.step] at hs
      split_ifs at hs
      cases hs
      exact (hcount ht).kept (.of_same rfl rfl rfl rfl rfl)
  | release b =>
      simp only [LogSys.step] at hs
      split_ifs at hs
      cases hs
      exact (hcount ht).kept (.of_same rfl rfl rfl rfl rfl)
  | sync b =>
      simp only [LogSys.step] at hs
      split_ifs at hs with hop
      exact ((hcount hop.1).sync hP hs).1
  | endOp =>
      simp only [LogSys.step] at hs
      split_ifs at hs with hop
      simp only [LogSys.leave, Option.bind_eq_bind, Option.bind_eq_some_iff] at hs
      obtain ⟨rm, hrm, hs⟩ := hs
      split at hs
      · cases hs
        exact absurd ht (hgoto _ _ (by simp))
      · cases hs
        exact absurd ht (hgoto _ _ (by simp))
  | run =>
      have hwait : ∀ (sem : Semaphore) (put : LogSys → Semaphore → LogSys) (asleep awake : Pc),
          asleep ≠ .inOp → awake ≠ .inOp → (s.wait t sem put asleep awake).pc t ≠ .inOp := by
        intro sem put asleep awake h₁ h₂
        rw [LogSys.wait]
        split
        · exact hgoto _ _ h₂
        · exact hgoto _ _ h₁
      have hpost : ∀ (sem : Semaphore) (put : LogSys → Semaphore → LogSys) (awake next : Pc),
          next ≠ .inOp → s.post t sem put awake next = some s' → s'.pc t ≠ .inOp := by
        intro sem put awake next hnext hr
        obtain ⟨r, -, rfl⟩ := Option.map_eq_some_iff.mp hr
        exact hgoto _ _ hnext
      simp only [LogSys.step, LogSys.runStep] at hs
      split at hs
      · cases hs
        rw [LogSys.enter] at ht ⊢
        split at ht
        · exact absurd ht (hgoto _ _ (by simp))
        · exact absurd ht (hgoto _ _ (by simp))
        · refine ⟨List.mem_cons_self, ?_, ?_⟩
          · simp only [Function.update_self]
            exact Nat.zero_le _
          · intro b hb
            simp only [LogSys.syncedBlocks, Function.update_self] at hb
            cases hb
      · cases hs
        exact absurd ht (hwait _ _ _ _ (by simp) (by simp))
      · cases hs
        exact absurd ht (hwait _ _ _ _ (by simp) (by simp))
      · exact absurd ht (hpost _ _ _ _ (by simp) hs)
      · cases hs
        exact absurd ht (hwait _ _ _ _ (by simp) (by simp))
      · exact absurd ht (commitStep_frame hs).2.2.2.2
      · exact absurd ht (hpost _ _ _ _ (by simp) hs)
      · exact absurd ht (hpost _ _ _ _ (by simp) hs)
      · exact absurd ht (hpost _ _ _ _ (by simp) hs)
      all_goals cases hs

/-- **Every operation of a run is counted.** -/
theorem counted_of_reach {disk : ℕ → Sector}
    (h : Reach (LogSys.step sb) (fun _ _ => True) (LogSys.start disk) s) :
    Proto s ∧ ∀ t, s.pc t = .inOp → Counted s t := by
  refine h.invariant (P := fun s => Proto s ∧ ∀ t, s.pc t = .inOp → Counted s t)
    ⟨Proto.init disk, ?_⟩ ?_
  · intro t ht
    cases ht
  · intro s i s' hs _ hstep
    obtain ⟨hP, hcount⟩ := hs
    obtain ⟨u, a⟩ := i
    refine ⟨hP.step hstep, ?_⟩
    intro t ht
    by_cases htu : t = u
    · subst htu
      exact counted_own hP (hcount t) hstep ht
    · have hk := OpKept.of_step hP htu hstep
      exact (hcount t (hk.pc.mp ht)).kept hk

end System

/-! ## The program among the threads -/

/-- The system, with the blocks that the program has synced so far. -/
structure OpRun where
  sys : LogSys
  synced : List ℕ

namespace OpRun

/-- The answer to a call of thread `t`.  With `NULL` `cache_sync` writes the block to the device. -/
def answer (t : ℕ) (x : OpRun) : (c : CacheCall) → Option (c.Res × OpRun)
  | .acquire b => (x.sys.take t b).map fun s => (s.view b, { x with sys := s })
  | .store b d =>
      some ((), { x with sys := { x.sys with
        view := Function.update x.sys.view b d
        dirty := Function.update x.sys.dirty b true
        hist := Function.update x.sys.hist b (x.sys.hist b ++ [d]) } })
  | .sync true b => (x.sys.sync t b).map fun s => ((), ⟨s, x.synced ++ [b]⟩)
  | .sync false b =>
      some ((), ⟨{ x.sys with
        disk := Function.update x.sys.disk b (x.sys.view b)
        dirty := Function.update x.sys.dirty b false }, x.synced ++ [b]⟩)
  | .release b =>
      some ((), { x with sys := { x.sys with held := Function.update x.sys.held b none } })

/-- A step of another thread. -/
def others (sb : SuperBlock) (x : OpRun) (i : ℕ × Act) : Option OpRun :=
  (x.sys.step sb i).map fun s => { x with sys := s }

end OpRun

/-- **What the other threads keep**: block 0, which belongs to no file, stays in use, and the blocks
`F`, which a lock of the caller protects, stay as they are. -/
structure Keeps (sb : SuperBlock) (F : Set ℕ) (m m' : Disk) : Prop where
  used : sb.used m 0 = true → sb.used m' 0 = true
  locked : ∀ b ∈ F, m' b = m b

section Keeps

variable {sb : SuperBlock} {F : Set ℕ} {m m' m'' : Disk}

theorem Keeps.refl (sb : SuperBlock) (F : Set ℕ) (m : Disk) : Keeps sb F m m :=
  ⟨id, fun _ _ => rfl⟩

theorem Keeps.trans (h : Keeps sb F m m') (h' : Keeps sb F m' m'') : Keeps sb F m m'' :=
  ⟨fun hu => h'.used (h.used hu), fun b hb => (h'.locked b hb).trans (h.locked b hb)⟩

end Keeps

/-- The other threads keep it with each of their steps. -/
def Respects {α : Type} (sb : SuperBlock) (t : ℕ) (F : Set ℕ) (x : OpRun × CacheProg α) :
    Option (ℕ × Act) → Prop
  | none => True
  | some i => i.1 ≠ t ∧ ∀ s, x.1.sys.step sb i = some s → Keeps sb F x.1.sys.view s.view

/-- **The contract of a program**, over the contents of the blocks and the blocks synced so far.
The list stays one of `I`, and between two calls the contents change as the others may change
them. -/
def syncContract (sb : SuperBlock) (F : Set ℕ) (I : List ℕ → Prop) :
    Contract CacheCall CacheCall.Res (Disk × List ℕ) where
  pre g
    | .sync _ b => I (g.2 ++ [b])
    | _ => True
  post g
    | .acquire b => fun d g' => Keeps sb F g.1 g'.1 ∧ d = g'.1 b ∧ g'.2 = g.2
    | .store b d => fun _ g' => ∃ m, Keeps sb F g.1 m ∧ g' = (Function.update m b d, g.2)
    | .sync _ b => fun _ g' => g' = (g.1, g.2 ++ [b])
    | .release _ => fun _ g' => g' = g

/-- What a run of the program has to do with its contract. -/
structure OpSim (sb : SuperBlock) (t : ℕ) (F : Set ℕ) (I : List ℕ → Prop) (x : OpRun)
    (g : Disk × List ℕ) : Prop where
  proto : Proto x.sys
  op : x.sys.pc t = .inOp
  counted : Counted x.sys t
  view : Keeps sb F g.1 x.sys.view
  synced : g.2 = x.synced
  sub : ∀ b ∈ x.sys.syncedBlocks t, b ∈ x.synced
  inv : I x.synced

section Run

variable {sb : SuperBlock} {t : ℕ} {F : Set ℕ} {I : List ℕ → Prop} {x : OpRun}
  {g : Disk × List ℕ} {α : Type}

/-- A step that leaves the operation and the blocks synced as they are. -/
theorem OpSim.kept (h : OpSim sb t F I x g) {s : LogSys} {g' : Disk × List ℕ} (hP : Proto s)
    (hk : OpKept x.sys s t) (hview : Keeps sb F g'.1 s.view) (hg : g'.2 = g.2) :
    OpSim sb t F I { x with sys := s } g' where
  proto := hP
  op := hk.pc.mpr h.op
  counted := h.counted.kept hk
  view := hview
  synced := hg.trans h.synced
  sub := by
    intro b hb
    rw [LogSys.syncedBlocks, hk.synced] at hb
    exact h.sub b hb
  inv := h.inv

/-- The calls of the program. -/
theorem OpSim.answer (h : OpSim sb t F I x g) {c : CacheCall} {r : c.Res} {y : OpRun}
    (hpre : (syncContract sb F I).pre g c) (hans : x.answer t c = some (r, y)) :
    ∃ g', (syncContract sb F I).post g c r g' ∧ OpSim sb t F I y g' := by
  cases c with
  | acquire b =>
      obtain ⟨s, hs, hr⟩ := Option.map_eq_some_iff.mp hans
      obtain ⟨-, rfl⟩ := Proto.take_some hs
      cases hr
      refine ⟨(x.sys.view, g.2), ⟨h.view, rfl, rfl⟩, ?_⟩
      exact h.kept (h.proto.congr rfl rfl rfl rfl rfl rfl rfl) (.of_same rfl rfl rfl rfl rfl)
        (Keeps.refl sb F _) rfl
  | store b d =>
      cases hans
      refine ⟨(Function.update x.sys.view b d, g.2), ⟨x.sys.view, h.view, rfl⟩, ?_⟩
      exact h.kept (h.proto.congr rfl rfl rfl rfl rfl rfl rfl) (.of_same rfl rfl rfl rfl rfl)
        (Keeps.refl sb F _) rfl
  | release b =>
      cases hans
      refine ⟨g, rfl, ?_⟩
      exact h.kept (h.proto.congr rfl rfl rfl rfl rfl rfl rfl) (.of_same rfl rfl rfl rfl rfl)
        h.view rfl
  | sync ctx b =>
      have hinv : I (x.synced ++ [b]) := h.synced ▸ hpre
      cases ctx with
      | false =>
          cases hans
          refine ⟨(g.1, g.2 ++ [b]), rfl, ?_⟩
          have hk := h.kept (s := { x.sys with
            disk := Function.update x.sys.disk b (x.sys.view b)
            dirty := Function.update x.sys.dirty b false })
            (h.proto.congr rfl rfl rfl rfl rfl rfl rfl) (.of_same rfl rfl rfl rfl rfl) h.view rfl
          exact ⟨hk.proto, hk.op, hk.counted, h.view, by rw [h.synced],
            fun c hc => List.mem_append_left _ (h.sub c hc), hinv⟩
      | true =>
          obtain ⟨s, hs, hr⟩ := Option.map_eq_some_iff.mp hans
          cases hr
          refine ⟨(g.1, g.2 ++ [b]), rfl, ?_⟩
          obtain ⟨hcount, hblocks⟩ := h.counted.sync h.proto hs
          have hsame : s.pc = x.sys.pc ∧ s.view = x.sys.view := by
            simp only [LogSys.sync, Option.bind_eq_bind, Option.bind_eq_some_iff] at hs
            obtain ⟨rm, -, ⟨new, rm', l⟩, -, hs⟩ := hs
            cases hs
            exact ⟨rfl, rfl⟩
          refine ⟨h.proto.sync h.op hs, ?_, hcount, ?_, by rw [h.synced], ?_, hinv⟩
          · rw [hsame.1]
            exact h.op
          · rw [hsame.2]
            exact h.view
          · intro c hc
            rw [hblocks] at hc
            rcases List.mem_append.mp hc with hc | hc
            · exact List.mem_append_left _ (h.sub c hc)
            · exact List.mem_append_right _ hc

/-- **A program in an operation.**  It starts where the operation has synced nothing yet, and meets
the contract for lists with no more than `OP_MAX_NUM_BLOCKS` different blocks.  In every run with
other threads the blocks that it has synced are such a list, and `cache_sync` does not panic. -/
theorem meets_of_reach {disk : ℕ → Sector} {s : LogSys} {p : CacheProg α}
    {Q : α → Disk × List ℕ → Prop} {x : OpRun × CacheProg α}
    (hs : Reach (LogSys.step sb) (fun _ _ => True) (LogSys.start disk) s) (hop : s.pc t = .inOp)
    (hfresh : s.synced t = []) (hnil : I [])
    (hcard : ∀ l, I l → l.toFinset.card ≤ opMaxNumBlocks)
    (hp : p.Meets (syncContract sb F I) Q (s.view, []))
    (hx : Reach (Prog.step (OpRun.answer t) (OpRun.others sb)) (Respects sb t F) (⟨s, []⟩, p) x) :
    I x.1.synced ∧
      ∀ b k, x.2 = .call (.sync true b) k → (x.1.sys.sync t b).isSome := by
  obtain ⟨hP, hcount⟩ := counted_of_reach hs
  have hstart : OpSim sb t F I ⟨s, []⟩ (s.view, []) := by
    refine ⟨hP, hop, hcount t hop, Keeps.refl sb F _, rfl, ?_, hnil⟩
    intro b hb
    rw [LogSys.syncedBlocks, hfresh] at hb
    cases hb
  have hothers : ∀ (y : OpRun × CacheProg α) i z g, OpSim sb t F I y.1 g →
      Respects sb t F y (some i) → OpRun.others sb y.1 i = some z → OpSim sb t F I z g := by
    intro y i z g hsim hok hz
    obtain ⟨s', hs', rfl⟩ := Option.map_eq_some_iff.mp hz
    obtain ⟨hne, hkeep⟩ := hok
    exact hsim.kept (hsim.proto.step hs') (.of_step hsim.proto hne.symm hs')
      (hsim.view.trans (hkeep s' hs')) rfl
  obtain ⟨g, hsim, hmeets⟩ := hx.meets hstart hp hothers fun _ _ _ _ _ h => h.answer
  refine ⟨hsim.inv, ?_⟩
  intro b k hk
  rw [hk] at hmeets
  have hpre : I (g.2 ++ [b]) := hmeets.1
  refine hsim.counted.sync_isSome hsim.proto (le_trans (Finset.card_le_card ?_) (hcard _ hpre))
  intro c hc
  rw [List.mem_toFinset] at hc ⊢
  rw [hsim.synced]
  rcases List.mem_append.mp hc with hc | hc
  · exact List.mem_append_left _ (hsim.sub c hc)
  · exact List.mem_append_right _ hc

end Run

end OsLab
