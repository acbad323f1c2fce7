import OsLab.Fs.FileSys

/-!
# Files after a power loss

A power loss leaves the device with a prefix of the writes of a run.  What the next recovery finds
there is the inode tree after a prefix of the calls: none of an operation is there without the
rest of it and without the operations that were open beside it, and nothing is lost that had
returned while no operation was open.  The image is sound again, so that the next run starts as
the first one did, any number of times (`crash_keeps_operations`).

## Main definitions

* `openOps` — the number of operations that a run has open.
* `CrashPoint` — what a recovery finds after a power loss.
* `FsLife`, `Survived` — runs with power losses between them, and what is left of their calls.
-/

namespace OsLab

/-! ## Open operations -/

/-- What a call adds to the number of open operations. -/
def FsCall.opens : FsCall → ℤ
  | .beginOp _ => 1
  | .endOp _ => -1
  | .call _ _ => 0

/-- The number of operations that are open after the calls. -/
def openOps (l : List (FsCall × InodeRes)) : ℤ := (l.map fun x => x.1.opens).sum

theorem openOps_append (l : List (FsCall × InodeRes)) (i : FsCall) (r : InodeRes) :
    openOps (l ++ [(i, r)]) = openOps l + i.opens := by
  simp [openOps]

section Open

variable {sb : SuperBlock} {w w' : World} {c : ℕ}

theorem World.answer_ctxs {call : CacheCall} {r : call.Res}
    (hs : w.answer sb c call = some (r, w')) : w'.ctxs.length = w.ctxs.length := by
  simp only [World.answer, Option.map_eq_some_iff, Prod.mk.injEq] at hs
  obtain ⟨w'', hstep, -, rfl⟩ := hs
  cases call with
  | acquire b =>
      simp only [CacheCall.toCall, World.step, Option.bind_eq_bind,
        Option.bind_eq_some_iff] at hstep
      obtain ⟨_, -, hstep⟩ := hstep
      cases hstep
      rfl
  | store b d =>
      simp only [CacheCall.toCall, World.step, Option.bind_eq_bind,
        Option.bind_eq_some_iff] at hstep
      obtain ⟨_, -, hstep⟩ := hstep
      cases hstep
      rfl
  | sync ctx b =>
      cases ctx with
      | false =>
          simp only [CacheCall.toCall, World.step, Bool.false_eq_true, if_false,
            Option.bind_eq_bind, Option.bind_eq_some_iff] at hstep
          obtain ⟨_, -, hstep⟩ := hstep
          cases hstep
          rfl
      | true =>
          simp only [CacheCall.toCall, World.step, if_true, Option.bind_eq_bind,
            Option.bind_eq_some_iff] at hstep
          obtain ⟨p, -, rm, hrm, _, -, hstep⟩ := hstep
          cases hstep
          have hmem := Sim.rm_mem hrm
          rw [List.length_cons, List.length_erase_of_mem hmem]
          exact Nat.sub_add_cancel (List.length_pos_of_mem hmem)
  | release b =>
      simp only [CacheCall.toCall, World.step, Option.bind_eq_bind,
        Option.bind_eq_some_iff] at hstep
      obtain ⟨p, -, _, -, hstep⟩ := hstep
      cases hstep
      rfl

theorem FsState.answer_ctxs {s s' : FsState} {i : FsCall} {r : InodeRes}
    (hs : s.answer sb i = some (r, s')) :
    (s'.world.ctxs.length : ℤ) = s.world.ctxs.length + i.opens := by
  cases i with
  | beginOp c =>
      simp only [FsState.answer, Option.map_eq_some_iff, Prod.mk.injEq] at hs
      obtain ⟨w', hstep, -, rfl⟩ := hs
      simp only [World.step] at hstep
      split at hstep
      · cases hstep
      · obtain ⟨_, -, hstep⟩ := Option.bind_eq_some_iff.mp hstep
        cases hstep
        simp [FsCall.opens]
  | endOp c =>
      simp only [FsState.answer, Option.map_eq_some_iff, Prod.mk.injEq] at hs
      obtain ⟨w', hstep, -, rfl⟩ := hs
      simp only [World.step, Option.bind_eq_bind, Option.bind_eq_some_iff] at hstep
      obtain ⟨rm, hrm, _, -, hstep⟩ := hstep
      cases hstep
      have hmem := Sim.rm_mem hrm
      have hpos := List.length_pos_of_mem hmem
      rw [List.length_erase_of_mem hmem, FsCall.opens]
      omega
  | call c call =>
      simp only [FsState.answer, Option.map_eq_some_iff, Prod.mk.injEq] at hs
      obtain ⟨⟨⟨r', inodes'⟩, w'⟩, hexec, -, rfl⟩ := hs
      have hsame : ∀ w call r w', World.answer sb c w call = some (r, w') →
          w'.ctxs.length = w.ctxs.length := fun _ _ _ _ => World.answer_ctxs
      have hlen := Prog.exec_unchanged (f := fun w : World => w.ctxs.length) hsame hexec
      simp [FsCall.opens, hlen]

/-- The contexts are those of the open operations. -/
theorem FsRun.openOps {d : Disk} {l : List (FsCall × InodeRes)} {s : FsState}
    (h : FsRun sb d l s) : (s.world.ctxs.length : ℤ) = openOps l := by
  obtain ⟨s₀, -, htrace⟩ := h
  refine htrace.invariant (P := fun l s => (s.world.ctxs.length : ℤ) = OsLab.openOps l) rfl ?_
  intro l s i r s' _ hP _ hs
  rw [FsState.answer_ctxs hs, openOps_append, hP]

theorem FsRun.ctxs_nil_iff {d : Disk} {l : List (FsCall × InodeRes)} {s : FsState}
    (h : FsRun sb d l s) : s.world.ctxs = [] ↔ OsLab.openOps l = 0 := by
  rw [← h.openOps, Nat.cast_eq_zero, List.length_eq_zero_iff]

end Open

/-! ## What is on the device while no operation is open -/

/-- A commit empties the header. -/
theorem Bcache.commit_numBlocks {sb : SuperBlock} {s s' : Bcache} (h : s.commit sb = some s') :
    s'.log.header.numBlocks = 0 := by
  rw [Bcache.commit] at h
  split_ifs at h with hn
  · simp only [Option.bind_eq_bind, Option.bind_eq_some_iff] at h
    obtain ⟨s₁, -, s₂, -, h⟩ := h
    cases h
    rfl
  · cases h
    exact Nat.eq_zero_of_not_pos hn

section Saved

variable {sb : SuperBlock} {d m : Disk} {hist : List Disk} {w : World} {pm : PlainMap}

/-- **While no operation is open nothing is recorded**: the last operation of a group commits. -/
theorem Logged.settled (hsb : logMaxSize < sb.numLogBlocks) (hr : RecoversTo sb d m)
    (h : Logged sb d m w pm hist) (hw : w.ctxs = []) : w.cache.log.header.numBlocks = 0 := by
  induction h with
  | init hs =>
      obtain ⟨t, ht, -, -, -, -, -, -, hlog⟩ := initBcache_spec (hr.outside hsb)
      obtain rfl := Option.some.inj (ht.symm.trans hs)
      simp only [World.start]
      rw [hlog]
      rfl
  | @step w w' pm hist call hlog hin hok hs ih =>
      have hsim := (hlog.inv hsb hr).sim
      cases call with
      | beginOp c =>
          simp only [World.step] at hs
          split at hs
          · cases hs
          · obtain ⟨_, -, hs⟩ := Option.bind_eq_some_iff.mp hs
            cases hs
            cases hw
      | endOp c =>
          have hlen : w'.cache.log.outstanding = 0 := by
            have hlog' := Logged.step (.endOp c) hlog hin hok hs
            rw [(hlog'.inv hsb hr).sim.reserved.outstanding, hw]
            rfl
          simp only [World.step, Bcache.cacheEndOp, Option.bind_eq_bind,
            Option.bind_eq_some_iff] at hs
          obtain ⟨rm, -, s', hend, hs⟩ := hs
          cases hs
          split at hend
          · obtain ⟨s'', hcommit, hend⟩ := Option.bind_eq_some_iff.mp hend
            have hempty := Bcache.commit_numBlocks hcommit
            cases hend
            exact hempty
          · -- this was not the last one
            rename_i l hl
            cases hend
            simp only [Log.endOp] at hl
            split_ifs at hl with hlast
            · cases hl
            · cases hl
              exact absurd hlen hlast
      | acquire b =>
          simp only [World.step, Option.bind_eq_bind, Option.bind_eq_some_iff] at hs
          obtain ⟨⟨p, s'⟩, hacq, hs⟩ := hs
          cases hs
          obtain ⟨-, A⟩ := Bcache.cacheAcquire_spec hsim.coherent
            (Sim.client_ne hok (by omega)) hacq
          have hsame : s'.log = w.cache.log := congrArg Abs.log A.abs_eq
          rw [hsame]
          exact ih hw
      | modify b x =>
          simp only [World.step, Option.bind_eq_bind, Option.bind_eq_some_iff] at hs
          obtain ⟨p, -, hs⟩ := hs
          cases hs
          exact ih hw
      | sync ctx b =>
          cases ctx with
          | none => exact absurd hin id
          | some c =>
              simp only [World.step, Option.bind_eq_bind, Option.bind_eq_some_iff] at hs
              obtain ⟨p, -, rm, -, _, -, hs⟩ := hs
              cases hs
              cases hw
      | release b =>
          simp only [World.step, Option.bind_eq_bind, Option.bind_eq_some_iff,
            Bcache.cacheRelease, Bcache.postLock, Option.map_eq_some_iff] at hs
          obtain ⟨p, -, s', ⟨_, -, rfl⟩, hs⟩ := hs
          cases hs
          exact ih hw

/-- While no operation is open, the device recovers to what callers see. -/
theorem Shown.saved {s : FsState} {t : InodeTree} (hsb : logMaxSize < sb.numLogBlocks)
    (hr : RecoversTo sb d m) (h : Shown sb d m hist s t) (hquiet : s.world.ctxs = []) :
    RecoversTo sb (applyWrites s.world.cache.writes d) t.disk := by
  obtain ⟨pm, hlog, hagree⟩ := h.logged
  have hinv := hlog.inv hsb hr
  have hnone : s.world.cache.log.header.entries = [] := by
    refine List.eq_nil_of_length_eq_zero ?_
    rw [LogHeader.length_entries]
    exact hlog.settled hsb hr hquiet
  rw [← hinv.disk_eq]
  refine RecoversTo.of_empty hinv.empty ?_
  intro b hb
  rw [← hagree b hb, hinv.sim.on_disk b hb]
  rw [hnone]
  exact List.not_mem_nil

end Saved

/-! ## One power loss -/

namespace RecoversTo

variable {sb : SuperBlock} {d c c' : Disk}

theorem unique (h : RecoversTo sb d c) (h' : RecoversTo sb d c') {b : ℕ} (hb : sb.Client b) :
    c b = c' b :=
  (h.replay b hb).symm.trans (h'.replay b hb)

theorem of_agree (h : RecoversTo sb d c) (hc : ∀ b, sb.Client b → c b = c' b) :
    RecoversTo sb d c' :=
  ⟨h.valid, fun b hb => (h.replay b hb).trans (hc b hb)⟩

end RecoversTo

/-- **What a recovery finds** on the device `e`, after the first `k` writes of a run from `d` with
the calls `l`: the tree after the calls `l₁`, the first of the run, at a moment when no operation
was open.  Every call up to such a moment whose writes are among the `k` is one of them. -/
structure CrashPoint (sb : SuperBlock) (d m : Disk) (l : List (FsCall × InodeRes)) (k : ℕ)
    (e : Disk) (l₁ : List (FsCall × InodeRes)) (t : InodeTree) : Prop where
  first : l₁ <+: l
  quiet : openOps l₁ = 0
  tree : TreeRun sb m l₁ t
  recovers : RecoversTo sb e t.disk
  durable : ∀ l₀ s₀, FsRun sb d l₀ s₀ → l₀ <+: l → openOps l₀ = 0 →
    s₀.world.cache.writes.length ≤ k → l₀ <+: l₁

section Cut

variable {sb : SuperBlock} {d m e e' : Disk} {l l₁ : List (FsCall × InodeRes)} {k : ℕ}
  {s s' : FsState} {t t' : InodeTree} {i : FsCall} {r : InodeRes} {hist hist' : List Disk}

theorem FsRun.unique (h : FsRun sb d l s) (h' : FsRun sb d l s') : s = s' := by
  obtain ⟨s₀, hs₀, htrace⟩ := h
  obtain ⟨s₁, hs₁, htrace'⟩ := h'
  obtain rfl := Option.some.inj (hs₀.symm.trans hs₁)
  exact htrace.unique htrace'

theorem prefix_snoc {α : Type} {x : α} {l₀ l : List α} (h : l₀ <+: l ++ [x]) :
    l₀ <+: l ∨ l₀ = l ++ [x] := by
  obtain ⟨l', hl'⟩ := h
  rcases List.eq_nil_or_concat l' with rfl | ⟨l'', y, rfl⟩
  · rw [List.append_nil] at hl'
    exact Or.inr hl'
  · rw [List.concat_eq_append, ← List.append_assoc] at hl'
    obtain ⟨hl, -⟩ := List.append_inj' hl' rfl
    exact Or.inl ⟨l'', hl⟩

/-- Where the call is one with a write after the first `k`, or leaves an operation open, the
recovery finds what it found before the call. -/
theorem CrashPoint.snoc (h : CrashPoint sb d m l k e l₁ t) (hrun : FsRun sb d (l ++ [(i, r)]) s')
    (hlate : openOps (l ++ [(i, r)]) = 0 → k < s'.world.cache.writes.length)
    (hrec : RecoversTo sb e' t.disk) : CrashPoint sb d m (l ++ [(i, r)]) k e' l₁ t := by
  refine ⟨h.first.trans (List.prefix_append _ _), h.quiet, h.tree, hrec, ?_⟩
  intro l₀ s₀ hrun₀ hpre hquiet hle
  rcases prefix_snoc hpre with hpre | rfl
  · exact h.durable l₀ s₀ hrun₀ hpre hquiet hle
  · rw [hrun₀.unique hrun] at hle
    exact absurd (hlate hquiet) (Nat.not_lt.mpr hle)

/-- The recovery finds all of the run. -/
theorem CrashPoint.all (htree : TreeRun sb m l t) (hquiet : openOps l = 0)
    (hrec : RecoversTo sb e t.disk) : CrashPoint sb d m l k e l t :=
  ⟨List.prefix_refl _, hquiet, htree, hrec, fun _ _ _ hpre _ _ => hpre⟩

/-- In the middle of a group commit the device recovers to the contents before the group, or to
those that the commit saves. -/
theorem recovers_mid_commit (hsb : logMaxSize < sb.numLogBlocks) (hr : RecoversTo sb d m)
    {x c : Disk} (h : Shown sb d m hist s t) (h' : Shown sb d m (hist ++ [x]) s' t')
    (hpre : s.world.cache.writes <+: s'.world.cache.writes)
    (hk : s.world.cache.writes.length ≤ k)
    (hc : RecoversTo sb (applyWrites s.world.cache.writes d) c) :
    RecoversTo sb (applyWrites (s'.world.cache.writes.take k) d) c ∨
      RecoversTo sb (applyWrites (s'.world.cache.writes.take k) d) x := by
  obtain ⟨pm, hlog, -⟩ := h.logged
  obtain ⟨pm', hlog', -⟩ := h'.logged
  have hinv := hlog.inv hsb hr
  have hinv' := hlog'.inv hsb hr
  have hcut := hinv'.cut k
  have hlen := hinv.length_eq
  have hlen' := hinv'.length_eq
  rw [List.length_append, List.length_singleton] at hlen'
  have hlow : sb.commitsIn s.world.cache.writes ≤
      sb.commitsIn (s'.world.cache.writes.take k) := by
    obtain ⟨ws, hws⟩ := hpre
    rw [← hws, List.take_append, List.take_of_length_le hk]
    exact (List.sublist_append_left _ _).countP_le
  have hhigh : sb.commitsIn (s'.world.cache.writes.take k) ≤ sb.commitsIn s'.world.cache.writes :=
    (List.take_sublist _ _).countP_le
  by_cases hn : sb.commitsIn (s'.world.cache.writes.take k) = hist.length
  · right
    rw [hn, List.getD_append_right _ _ _ _ le_rfl, Nat.sub_self] at hcut
    exact hcut
  · left
    have hn' : sb.commitsIn (s'.world.cache.writes.take k) = sb.commitsIn s.world.cache.writes := by
      omega
    rw [hn', List.getD_append _ _ _ _ (by omega)] at hcut
    have hold := hinv.cut s.world.cache.writes.length
    rw [List.take_length] at hold
    exact hcut.of_agree fun b hb => hold.unique hc hb

/-- **One call.** -/
theorem CrashPoint.step (hsb : logMaxSize < sb.numLogBlocks) (hr : RecoversTo sb d m)
    (h : Shown sb d m hist s t) (h' : Shown sb d m hist' s' t')
    (hgrows : Grows sb t' s s' hist hist') (hrun : FsRun sb d (l ++ [(i, r)]) s')
    (htree : TreeRun sb m (l ++ [(i, r)]) t')
    (hold : ∃ l₁ t₁, CrashPoint sb d m l k (applyWrites (s.world.cache.writes.take k) d) l₁ t₁) :
    ∃ l₁ t₁, CrashPoint sb d m (l ++ [(i, r)]) k
      (applyWrites (s'.world.cache.writes.take k) d) l₁ t₁ := by
  obtain ⟨l₁, t₁, hold⟩ := hold
  by_cases hall : openOps (l ++ [(i, r)]) = 0 ∧ s'.world.cache.writes.length ≤ k
  · refine ⟨_, t', CrashPoint.all htree hall.1 ?_⟩
    rw [List.take_of_length_le hall.2]
    exact h'.saved hsb hr (hrun.ctxs_nil_iff.mpr hall.1)
  · have hlate : openOps (l ++ [(i, r)]) = 0 → k < s'.world.cache.writes.length :=
      fun hquiet => Nat.lt_of_not_le fun hle => hall ⟨hquiet, hle⟩
    cases hgrows with
    | same hwrites =>
        refine ⟨l₁, t₁, hold.snoc hrun hlate ?_⟩
        rw [hwrites]
        exact hold.recovers
    | commit x hquiet hpre hx =>
        by_cases hk : s.world.cache.writes.length ≤ k
        · have hrec := hold.recovers
          rw [List.take_of_length_le hk] at hrec
          rcases recovers_mid_commit hsb hr h h' hpre hk hrec with hrec' | hrec'
          · exact ⟨l₁, t₁, hold.snoc hrun hlate hrec'⟩
          · exact ⟨_, t', CrashPoint.all htree (hrun.ctxs_nil_iff.mp hquiet) (hrec'.of_agree hx)⟩
        · refine ⟨l₁, t₁, hold.snoc hrun hlate ?_⟩
          obtain ⟨ws, hws⟩ := hpre
          rw [← hws, List.take_append_of_le_length (Nat.le_of_not_le hk)]
          exact hold.recovers

/-- **After a power loss** the device recovers to the tree after a prefix of the calls. -/
theorem FsRun.crashPoint (hw : sb.WellLaid) (hsb : logMaxSize < sb.numLogBlocks)
    (hlog : sb.logStart + sb.numLogBlocks ≤ sb.inodeStart) (hr : RecoversTo sb d m)
    (hO : Owned sb m) (h : FsRun sb d l s) (k : ℕ) :
    ∃ l₁ t₁, CrashPoint sb d m l k (applyWrites (s.world.cache.writes.take k) d) l₁ t₁ := by
  have hL := hw.logApart hlog
  obtain ⟨s₀, hs₀, htrace⟩ := h
  have hstart := Shown.start hsb hr hs₀
  have hI := InodeTree.Inv.init ((owned_iff hw).mp hO)
  obtain ⟨-, -, -, -, -, hpoint⟩ := htrace.invariant
    (P := fun l s => ∃ t hist, TreeRun sb m l t ∧ Shown sb d m hist s t ∧
      InodeTree.Inv sb sb.metaBlocks t ∧ ∃ l₁ t₁,
        CrashPoint sb d m l k (applyWrites (s.world.cache.writes.take k) d) l₁ t₁)
    (by
      refine ⟨_, _, .init, hstart, hI, [], _, CrashPoint.all .init rfl ?_⟩
      have hcut := (hr.initBcache hsb hs₀).cut k
      cases hn : sb.commitsIn (s₀.writes.take k) with
      | zero => rwa [World.start, hn] at hcut
      | succ n => rwa [World.start, hn] at hcut)
    (by
      rintro l s i r s' ht ⟨t, hist, htree, hshown, hI, hpoint⟩ hlegal hs
      obtain ⟨hlegal', t', hist', ht', hI', hgrows, hshown'⟩ :=
        hshown.answer hsb hr hL hI hlegal hs
      have hrun : FsRun sb d (l ++ [(i, r)]) s' := ⟨s₀, hs₀, ht.step hlegal hs⟩
      have htree' := htree.step hlegal' ht'
      exact ⟨t', hist', htree', hshown', hI',
        CrashPoint.step hsb hr hshown hshown' hgrows hrun htree' hpoint⟩)
  exact hpoint

end Cut

/-! ## Any number of power losses -/

/-- A device after runs of the file system that each end with a power loss.  Of each run, the
calls `l` that were made, and those `l₀` of them that had returned, with all that the cache wrote
for them on the device, at a moment when no operation was open. -/
inductive FsLife (sb : SuperBlock) (d₀ : Disk) :
    List (List (FsCall × InodeRes) × List (FsCall × InodeRes)) → Disk → Prop
  | start : FsLife sb d₀ [] d₀
  | powerLoss {L : List (List (FsCall × InodeRes) × List (FsCall × InodeRes))} {d : Disk}
      {l l₀ : List (FsCall × InodeRes)} {s s₀ : FsState} (k : ℕ) :
      FsLife sb d₀ L d → FsRun sb d l s → FsRun sb d l₀ s₀ → l₀ <+: l → openOps l₀ = 0 →
      s₀.world.cache.writes.length ≤ k →
      FsLife sb d₀ (L ++ [(l₀, l)]) (applyWrites (s.world.cache.writes.take k) d)

/-- The plain disk that is left: of each run the first calls, among them `l₀`, up to a moment when
no operation was open. -/
inductive Survived (sb : SuperBlock) (m₀ : Disk) :
    List (List (FsCall × InodeRes) × List (FsCall × InodeRes)) → Disk → Prop
  | start : Survived sb m₀ [] m₀
  | run {L : List (List (FsCall × InodeRes) × List (FsCall × InodeRes))} {m : Disk}
      {l l₀ l₁ : List (FsCall × InodeRes)} {t : InodeTree} :
      Survived sb m₀ L m → l₀ <+: l₁ → l₁ <+: l → openOps l₁ = 0 → TreeRun sb m l₁ t →
      Survived sb m₀ (L ++ [(l₀, l)]) t.disk

theorem TreeRun.owned {sb : SuperBlock} {m : Disk} {l : List (FsCall × InodeRes)} {t : InodeTree}
    (hw : sb.WellLaid) (hO : Owned sb m) (h : TreeRun sb m l t) : Owned sb t.disk := by
  refine (owned_iff hw).mpr (InodeTree.Inv.image (s := t) ?_)
  refine h.invariant (P := fun _ t => InodeTree.Inv sb sb.metaBlocks t)
    (InodeTree.Inv.init ((owned_iff hw).mp hO)) ?_
  intro l t i r t' _ hI hlegal hs
  cases i with
  | beginOp c =>
      cases hs
      exact hI
  | endOp c =>
      cases hs
      exact hI
  | call c call =>
      obtain ⟨r', -, hs⟩ := Option.bind_eq_some_iff.mp hs
      obtain ⟨t'', hstep, heq⟩ := Option.bind_eq_some_iff.mp hs
      cases heq
      exact hI.step hw.layout hlegal hstep

/-- **Operations survive power losses whole.**  After any number of runs, each ended by a power
loss at any of its writes, the log of the device recovers to a sound image: the inode tree after
some of the first calls of each run, which end where no operation was open and hold every call that
had returned, with no operation open after it, before the power loss.  `init_bcache` returns with
that image. -/
theorem crash_keeps_operations {sb : SuperBlock} {d₀ m₀ d : Disk}
    {L : List (List (FsCall × InodeRes) × List (FsCall × InodeRes))}
    (hw : sb.WellLaid) (hsb : logMaxSize < sb.numLogBlocks)
    (hlog : sb.logStart + sb.numLogBlocks ≤ sb.inodeStart) (hr : RecoversTo sb d₀ m₀)
    (hO : Owned sb m₀) (h : FsLife sb d₀ L d) :
    ∃ m, Survived sb m₀ L m ∧ Owned sb m ∧
      ∃ s, Bcache.initBcache sb d = some s ∧ ∀ b, sb.Client b → s.disk b = m b := by
  obtain ⟨m, hS, hO', hr'⟩ : ∃ m, Survived sb m₀ L m ∧ Owned sb m ∧ RecoversTo sb d m := by
    induction h with
    | start => exact ⟨m₀, .start, hO, hr⟩
    | powerLoss k _ hrun hrun₀ hpre hquiet hle ih =>
        obtain ⟨m, hS, hO', hr'⟩ := ih
        obtain ⟨l₁, t, hpoint⟩ := hrun.crashPoint hw hsb hlog hr' hO' k
        have hkept := hpoint.durable _ _ hrun₀ hpre hquiet hle
        exact ⟨t.disk, hS.run hkept hpoint.first hpoint.quiet hpoint.tree,
          hpoint.tree.owned hw hO', hpoint.recovers⟩
  obtain ⟨s, hs, -⟩ := initBcache_spec (hr'.outside hsb)
  exact ⟨m, hS, hO', s, hs, fun b hb => hr'.start_disk hsb hs hb⟩

/-- The power is lost right after the write of the header, before the operation has returned. -/
theorem crash_keeps_operations_byte : ∃ l s m,
    FsState.play Wide.sb Wide.disk Wide.calls = some (l, s) ∧
    Survived Wide.sb Wide.disk [([], l)] m ∧ Owned Wide.sb m ∧
    ∃ s', Bcache.initBcache Wide.sb (applyWrites (s.world.cache.writes.take 5) Wide.disk) = some s' ∧
      ∀ b, Wide.sb.Client b → s'.disk b = m b := by
  obtain ⟨⟨l, s⟩, hs⟩ : ∃ x, FsState.play Wide.sb Wide.disk Wide.calls = some x :=
    Option.isSome_iff_exists.mp (by decide +kernel)
  obtain ⟨s₀, hs₀, hle⟩ : ∃ s₀, Bcache.initBcache Wide.sb Wide.disk = some s₀ ∧
      s₀.writes.length ≤ 5 := by
    have hlen : (Bcache.initBcache Wide.sb Wide.disk).map (fun s => s.writes.length) = some 1 := by
      decide +kernel
    obtain ⟨s₀, hs₀, hlen⟩ := Option.map_eq_some_iff.mp hlen
    exact ⟨s₀, hs₀, by omega⟩
  have hlife : FsLife Wide.sb Wide.disk [([], l)]
      (applyWrites (s.world.cache.writes.take 5) Wide.disk) :=
    .powerLoss 5 .start (FsRun.of_play hs) ⟨s₀, hs₀, .init⟩ List.nil_prefix rfl hle
  obtain ⟨m, hm⟩ := crash_keeps_operations Wide.wellLaid (by decide) (by decide) Wide.recoversTo
    Wide.owned hlife
  exact ⟨l, s, m, hs, hm⟩

end OsLab
