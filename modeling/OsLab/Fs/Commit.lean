import OsLab.Fs.CacheSpec
import OsLab.Lib.Device

/-!
# What a commit and a recovery write

`commit` copies the recorded blocks into the log, writes the header, copies the
log back to the recorded blocks and writes an empty header.  Seen through
`Bcache.abs` each round of its two loops is one device write, whatever the cache
did to find the two blocks, so a whole commit is four lists of writes
(`commitWrites`) and a recovery is the last two of them (`recoverWrites`).

The loops are right as long as no recorded block lies in the part of the log they
use, the header and one block for each entry (`OutsideLog`).

## Main definitions

* `Abs.devWrites` — a list of writes to blocks that are not held.
* `OutsideLog` — the recorded blocks are not in the part of the log in use.
* `Bcache.commit_spec`, `Bcache.recoverFromLog_spec` — the effect of the two
  procedures.
-/

namespace OsLab

/-- The recorded numbers keep clear of the log header and of the first
`num_blocks` log blocks. -/
def OutsideLog (sb : SuperBlock) (h : LogHeader) : Prop :=
  ∀ i < h.numBlocks, h.blockNo i < sb.logStart ∨ sb.logStart + h.numBlocks < h.blockNo i

theorem OutsideLog.ne_logStart {sb : SuperBlock} {h : LogHeader} (ho : OutsideLog sb h) {i : ℕ}
    (hi : i < h.numBlocks) : h.blockNo i ≠ sb.logStart := by
  have := ho i hi
  omega

theorem OutsideLog.ne_logBlock {sb : SuperBlock} {h : LogHeader} (ho : OutsideLog sb h) {i j : ℕ}
    (hi : i < h.numBlocks) (hj : j < h.numBlocks) : h.blockNo i ≠ sb.logBlock j := by
  have := ho i hi
  simp only [SuperBlock.logBlock]
  omega

theorem SuperBlock.logBlock_ne_logStart (sb : SuperBlock) (i : ℕ) : sb.logBlock i ≠ sb.logStart := by
  simp only [SuperBlock.logBlock]
  omega

theorem SuperBlock.logBlock_inj (sb : SuperBlock) {i j : ℕ} (h : sb.logBlock i = sb.logBlock j) :
    i = j := by
  simp only [SuperBlock.logBlock] at h
  omega

namespace Abs

/-- A list of writes to blocks that are not held, seen in the cache and on disk. -/
@[simps -fullyApplied] def devWrites (a : Abs) (ws : List (ℕ × Sector)) : Abs :=
  { a with
    view := applyWrites ws a.view
    disk := applyWrites ws a.disk
    writes := a.writes ++ ws }

@[simp] theorem devWrites_nil (a : Abs) : a.devWrites [] = a := by
  ext1 <;> simp

theorem devWrites_append_singleton (a : Abs) (ws : List (ℕ × Sector)) (w : ℕ × Sector) :
    a.devWrites (ws ++ [w]) = (a.devWrites ws).devWrite w.1 w.2 := by
  ext1 <;> simp [applyWrites_append]

/-- The blocks `bs` are no longer pinned. -/
@[simps -fullyApplied] def unpin (a : Abs) (bs : List ℕ) : Abs :=
  { a with pinned := fun b => a.pinned b ∧ b ∉ bs }

@[simp] theorem unpin_nil (a : Abs) : a.unpin [] = a := by
  ext1 <;> simp

theorem store_flush (a : Abs) (b : ℕ) (d : Sector) : (a.store b d).flush b = a.devWrite b d := by
  ext1 <;> simp

end Abs

namespace Bcache

variable {sb : SuperBlock} {s s' : Bcache} {tail : ℕ}

/-! ## Two blocks at a time -/

/-- Acquiring two blocks that nobody holds. -/
private theorem acquire_two {ls x y : ℕ} (hc : Coherent ls s) (hx : x ≠ ls) (hy : y ≠ ls)
    (hxy : x ≠ y) (hhx : ¬ s.abs.held x) (hhy : ¬ s.abs.held y) :
    ∃ p s₁ q s₂, s.cacheAcquire x = some (p, s₁) ∧ s₁.log = s.log ∧
      s₁.cacheAcquire y = some (q, s₂) ∧ Coherent ls s₂ ∧ Owns s₂ p x ∧ Owns s₂ q y ∧
      s₂.abs = (s.abs.acquire x).acquire y ∧ ∀ r c, Owns s r c → Owns s₂ r c := by
  obtain ⟨p, s₁, h₁, A₁⟩ := cacheAcquire_of_not_held hc hx hhx
  have hhy₁ : ¬ s₁.abs.held y := by
    rwa [A₁.abs_eq, Abs.acquire_held, Function.update_of_ne (Ne.symm hxy)]
  obtain ⟨q, s₂, h₂, A₂⟩ := cacheAcquire_of_not_held A₁.coherent hy hhy₁
  refine ⟨p, s₁, q, s₂, h₁, congrArg Abs.log A₁.abs_eq, h₂, A₂.coherent, A₂.frame _ _ A₁.owns,
    A₂.owns, by rw [A₂.abs_eq, A₁.abs_eq], ?_⟩
  intro r c h
  exact A₂.frame _ _ (A₁.frame _ _ h)

/-- Giving two blocks back. -/
private theorem release_two {ls x y p q : ℕ} (hc : Coherent ls s) (hp : Owns s p x)
    (hq : Owns s q y) (hxy : x ≠ y) (hx : ¬ s.abs.pinned x → s.view x = s.disk x)
    (hy : ¬ s.abs.pinned y → s.view y = s.disk y) :
    ∃ s₁ s₂, s.cacheRelease p = some s₁ ∧ s₁.cacheRelease q = some s₂ ∧ Coherent ls s₂ ∧
      s₂.abs = (s.abs.release x).release y ∧
      ∀ r c, Owns s r c → c ≠ x → c ≠ y → Owns s₂ r c := by
  obtain ⟨s₁, h₁, hc₁, habs₁, hf₁⟩ := cacheRelease_spec hc hp hx
  have hy₁ : ¬ s₁.abs.pinned y → s₁.view y = s₁.disk y := by
    intro h
    rw [habs₁] at h
    have hv : s₁.view = s.view := congrArg Abs.view habs₁
    have hd : s₁.disk = s.disk := congrArg Abs.disk habs₁
    rw [hv, hd]
    exact hy h
  obtain ⟨s₂, h₂, hc₂, habs₂, hf₂⟩ := cacheRelease_spec hc₁ (hf₁ _ _ hq (Ne.symm hxy)) hy₁
  refine ⟨s₁, s₂, h₁, h₂, hc₂, by rw [habs₂, habs₁], ?_⟩
  intro r c h hcx hcy
  exact hf₂ _ _ (hf₁ _ _ h hcx) hcy

/-- The `held` flags after two blocks were acquired and given back. -/
private theorem held_restored {held : ℕ → Prop} {b c : ℕ} (hb : ¬ held b) (hc : ¬ held c)
    (hbc : b ≠ c) :
    Function.update (Function.update (Function.update (Function.update held b True) c True)
      c False) b False = held ∧
    Function.update (Function.update (Function.update (Function.update held b True) c True)
      b False) c False = held := by
  constructor
  all_goals
    funext x
    by_cases hxb : x = b
    · subst hxb
      simp [hb, hbc]
    · by_cases hxc : x = c
      · subst hxc
        simp [hxb, hc]
      · simp [hxb, hxc]

/-! ## One round of each loop -/

/-- A round of either loop that returns found neither of its two blocks held. -/
private theorem not_held_of_acquire_two {x y p q : ℕ} {s₁ s₂ : Bcache}
    (hc : Coherent sb.logStart s) (hx : x ≠ sb.logStart) (hy : y ≠ sb.logStart) (hxy : x ≠ y)
    (h₁ : s.cacheAcquire x = some (p, s₁)) (h₂ : s₁.cacheAcquire y = some (q, s₂)) :
    ¬ s.abs.held x ∧ ¬ s.abs.held y := by
  obtain ⟨hhx, A₁⟩ := cacheAcquire_spec hc hx h₁
  obtain ⟨hhy, -⟩ := cacheAcquire_spec A₁.coherent hy h₂
  rw [A₁.abs_eq, Abs.acquire_held, Function.update_of_ne (Ne.symm hxy)] at hhy
  exact ⟨hhx, hhy⟩

section Round

variable (hc : Coherent sb.logStart s) (hB : s.log.header.blockNo tail ≠ sb.logStart)
  (hne : s.log.header.blockNo tail ≠ sb.logBlock tail)
include hc hB hne

theorem writeLogStep_not_held (h : s.writeLogStep sb tail = some s') :
    ¬ s.abs.held (sb.logBlock tail) ∧ ¬ s.abs.held (s.log.header.blockNo tail) := by
  simp only [writeLogStep, Option.bind_eq_bind, Option.bind_eq_some_iff] at h
  obtain ⟨⟨dst, s₁⟩, h₁, ⟨src, s₂⟩, h₂, -⟩ := h
  have hlog : s₁.log = s.log :=
    congrArg Abs.log (cacheAcquire_spec hc (sb.logBlock_ne_logStart tail) h₁).2.abs_eq
  simp only [hlog] at h₂
  exact not_held_of_acquire_two hc (sb.logBlock_ne_logStart tail) hB (Ne.symm hne) h₁ h₂

variable (hhL : ¬ s.abs.held (sb.logBlock tail)) (hhB : ¬ s.abs.held (s.log.header.blockNo tail))
include hhL hhB

/-- **One round of `write_log`** writes the content of entry `tail` to its log block. -/
theorem writeLogStep_spec :
    ∃ s', s.writeLogStep sb tail = some s' ∧ Coherent sb.logStart s' ∧
      s'.abs = s.abs.devWrite (sb.logBlock tail) (s.view (s.log.header.blockNo tail)) ∧
      ∀ q c, Owns s q c → Owns s' q c := by
  have hLs := sb.logBlock_ne_logStart tail
  generalize hL : sb.logBlock tail = L at *
  generalize hBdef : s.log.header.blockNo tail = B at *
  obtain ⟨dst, s₁, src, s₂, h₁, hlog₁, h₂, hc₂, ho_dst, ho_src, habs₂, hf₂⟩ :=
    acquire_two hc hLs hB (Ne.symm hne) hhL hhB
  have hdata : (s₂.mem src).data = s.view B := by
    rw [ho_src.data hc₂]
    exact congrFun (congrArg Abs.view habs₂) B
  obtain ⟨hc₃, habs₃, hf₃⟩ := setData_spec hc₂ ho_dst (s.view B)
  obtain ⟨hc₄, habs, hf₄⟩ := deviceWrite_spec hc₃ (hf₃ _ _ ho_dst)
  rw [habs₃, habs₂, Abs.store_flush] at habs
  -- the source is as clean as before, the target has just been written
  have hcl_src := fun h : ¬ ((s₂.setData dst (s.view B)).deviceWrite dst).abs.pinned B =>
    hc.view_eq_disk hhB (by rw [habs] at h; exact h)
  obtain ⟨s₅, s₆, h₅, h₆, hc₆, habs₆, hf₆⟩ := release_two hc₄ (hf₄ _ _ (hf₃ _ _ ho_src))
    (hf₄ _ _ (hf₃ _ _ ho_dst)) hne
    (by
      intro h
      rw [← abs_view, ← abs_disk, habs]
      simpa [hne] using hcl_src h)
    (by
      intro _
      rw [← abs_view, ← abs_disk, habs]
      simp)
  refine ⟨s₆, ?_, hc₆, ?_, ?_⟩
  · rw [writeLogStep, hL, h₁]
    simp only [Option.bind_eq_bind, Option.bind_some, hlog₁, hBdef, h₂, hdata]
    exact Option.bind_eq_some_iff.mpr ⟨s₅, h₅, h₆⟩
  · rw [habs₆, habs]
    ext1
    · rfl
    · exact (held_restored hhL hhB (Ne.symm hne)).1
    · rfl
    · rfl
    · rfl
    · rfl
  · intro q c ho
    have hcL : c ≠ L := by
      rintro rfl
      exact hhL ho.held
    have hcB : c ≠ B := by
      rintro rfl
      exact hhB ho.held
    exact hf₆ _ _ (hf₄ _ _ (hf₃ _ _ (hf₂ _ _ ho))) hcB hcL

/-- **One round of `install_trans`** writes the log copy of entry `tail` to its place and
unpins the block. -/
theorem installStep_spec :
    ∃ s', s.installStep sb tail = some s' ∧ Coherent sb.logStart s' ∧
      s'.abs = (s.abs.devWrite (s.log.header.blockNo tail) (s.view (sb.logBlock tail))).pin
        (s.log.header.blockNo tail) False ∧
      ∀ q c, Owns s q c → Owns s' q c := by
  have hLs := sb.logBlock_ne_logStart tail
  generalize hL : sb.logBlock tail = L at *
  generalize hBdef : s.log.header.blockNo tail = B at *
  obtain ⟨src, s₁, dst, s₂, h₁, hlog₁, h₂, hc₂, ho_src, ho_dst, habs₂, hf₂⟩ :=
    acquire_two hc hLs hB (Ne.symm hne) hhL hhB
  have hdata : (s₂.mem src).data = s.view L := by
    rw [ho_src.data hc₂]
    exact congrFun (congrArg Abs.view habs₂) L
  obtain ⟨hc₃, habs₃, hf₃⟩ := setData_spec hc₂ ho_dst (s.view L)
  obtain ⟨hc₄, habs₄, hf₄⟩ := deviceWrite_spec hc₃ (hf₃ _ _ ho_dst)
  obtain ⟨hc₅, habs, hf₅⟩ := setPinned_spec hc₄ (hf₄ _ _ (hf₃ _ _ ho_dst)) false
  rw [habs₄, habs₃, habs₂, Abs.store_flush] at habs
  have hcl_src := fun h : ¬ (((s₂.setData dst (s.view L)).deviceWrite dst).setPinned
      dst false).abs.pinned L =>
    hc.view_eq_disk hhL (by rw [habs] at h; simpa [Ne.symm hne] using h)
  obtain ⟨s₆, s₇, h₆, h₇, hc₇, habs₇, hf₇⟩ := release_two hc₅
    (hf₅ _ _ (hf₄ _ _ (hf₃ _ _ ho_src))) (hf₅ _ _ (hf₄ _ _ (hf₃ _ _ ho_dst))) (Ne.symm hne)
    (by
      intro h
      rw [← abs_view, ← abs_disk, habs]
      simpa [Ne.symm hne] using hcl_src h)
    (by
      intro _
      rw [← abs_view, ← abs_disk, habs]
      simp)
  refine ⟨s₇, ?_, hc₇, ?_, ?_⟩
  · rw [installStep, hL, h₁]
    simp only [Option.bind_eq_bind, Option.bind_some, hlog₁, hBdef, h₂, hdata]
    exact Option.bind_eq_some_iff.mpr ⟨s₆, h₆, h₇⟩
  · rw [habs₇, habs]
    ext1
    · rfl
    · exact (held_restored hhL hhB (Ne.symm hne)).2
    · simp
    · rfl
    · rfl
    · rfl
  · intro q c ho
    have hcL : c ≠ L := by
      rintro rfl
      exact hhL ho.held
    have hcB : c ≠ B := by
      rintro rfl
      exact hhB ho.held
    exact hf₇ _ _ (hf₅ _ _ (hf₄ _ _ (hf₃ _ _ (hf₂ _ _ ho)))) hcL hcB

end Round

/-! ## The two loops -/

/-- The writes of `write_log` for the header `h` and the contents `view`. -/
def logWrites (sb : SuperBlock) (h : LogHeader) (view : ℕ → Sector) : List (ℕ × Sector) :=
  (List.range h.numBlocks).map fun i => (sb.logBlock i, view (h.blockNo i))

/-- The writes of `install_trans`. -/
def installWrites (sb : SuperBlock) (h : LogHeader) (view : ℕ → Sector) : List (ℕ × Sector) :=
  (List.range h.numBlocks).map fun i => (h.blockNo i, view (sb.logBlock i))

/-- Nobody holds a log block in use or a recorded block. -/
def Unheld (sb : SuperBlock) (s : Bcache) : Prop :=
  ∀ i < s.log.header.numBlocks,
    ¬ s.abs.held (sb.logBlock i) ∧ ¬ s.abs.held (s.log.header.blockNo i)

variable (hc : Coherent sb.logStart s) (hout : OutsideLog sb s.log.header)
include hc hout

/-- What `write_log` has done before round `i`. -/
private structure LogRound (sb : SuperBlock) (s : Bcache) (i : ℕ) (t : Bcache) : Prop where
  coherent : Coherent sb.logStart t
  abs_eq : t.abs = s.abs.devWrites
    ((List.range i).map fun j => (sb.logBlock j, s.view (s.log.header.blockNo j)))
  frame : ∀ q c, Owns s q c → Owns t q c

omit hc in
private theorem LogRound.next {i : ℕ} {t t' : Bcache} (hi : i < s.log.header.numBlocks)
    (hP : LogRound sb s i t) (hc' : Coherent sb.logStart t')
    (habs : t'.abs = t.abs.devWrite (sb.logBlock i) (t.view (t.log.header.blockNo i)))
    (hf : ∀ q c, Owns t q c → Owns t' q c) : LogRound sb s (i + 1) t' := by
  have hlog : t.log = s.log := congrArg Abs.log hP.abs_eq
  have hview : t.view (s.log.header.blockNo i) = s.view (s.log.header.blockNo i) := by
    rw [← abs_view, hP.abs_eq]
    refine applyWrites_of_notMem ?_
    intro w hw
    obtain ⟨j, hj, rfl⟩ := List.mem_map.mp hw
    exact (hout.ne_logBlock hi (by have := List.mem_range.mp hj; omega)).symm
  refine ⟨hc', ?_, fun q c h => hf _ _ (hP.frame _ _ h)⟩
  rw [List.range_succ, List.map_append, List.map_cons, List.map_nil,
    Abs.devWrites_append_singleton, ← hP.abs_eq, habs, hlog, hview]

/-- **`write_log` copies the recorded blocks into the log** when nobody holds one. -/
theorem writeLog_spec (hfree : Unheld sb s) :
    ∃ s', s.writeLog sb = some s' ∧ Coherent sb.logStart s' ∧
      s'.abs = s.abs.devWrites (logWrites sb s.log.header s.view) ∧
      ∀ q c, Owns s q c → Owns s' q c := by
  obtain ⟨s', hs', hP⟩ := iterM_progress (f := writeLogStep sb) s.log.header.numBlocks
    (LogRound sb s) (s := s) ⟨hc, by simp, fun _ _ h => h⟩ (by
      intro i t hi hP
      have hlog : t.log = s.log := congrArg Abs.log hP.abs_eq
      have hheld : t.abs.held = s.abs.held := by rw [hP.abs_eq]; rfl
      obtain ⟨t', ht', hc', habs', hf'⟩ := writeLogStep_spec hP.coherent
        (by rw [hlog]; exact hout.ne_logStart hi) (by rw [hlog]; exact hout.ne_logBlock hi hi)
        (by rw [hheld]; exact (hfree i hi).1) (by rw [hheld, hlog]; exact (hfree i hi).2)
      exact ⟨t', ht', hP.next hout hi hc' habs' hf'⟩)
  exact ⟨s', hs', hP.coherent, hP.abs_eq, hP.frame⟩

/-- A `write_log` that returns found no block held. -/
theorem unheld_of_writeLog (h : s.writeLog sb = some s') : Unheld sb s := by
  have hP := iterM_induction (P := fun i t => LogRound sb s i t ∧ ∀ j < i,
    ¬ s.abs.held (sb.logBlock j) ∧ ¬ s.abs.held (s.log.header.blockNo j)) h
    ⟨⟨hc, by simp, fun _ _ h => h⟩, fun j hj => absurd hj (Nat.not_lt_zero j)⟩ (by
      intro i t t' hi hP hstep
      have hlog : t.log = s.log := congrArg Abs.log hP.1.abs_eq
      have hheld : t.abs.held = s.abs.held := by rw [hP.1.abs_eq]; rfl
      have hB : t.log.header.blockNo i ≠ sb.logStart := by
        rw [hlog]
        exact hout.ne_logStart hi
      have hne : t.log.header.blockNo i ≠ sb.logBlock i := by
        rw [hlog]
        exact hout.ne_logBlock hi hi
      obtain ⟨hL, hB'⟩ := writeLogStep_not_held hP.1.coherent hB hne hstep
      obtain ⟨t'', ht'', hc', habs', hf'⟩ := writeLogStep_spec hP.1.coherent hB hne hL hB'
      obtain rfl : t'' = t' := Option.some.inj (ht''.symm.trans hstep)
      refine ⟨hP.1.next hout hi hc' habs' hf', ?_⟩
      intro j hj
      rcases Nat.lt_succ_iff_lt_or_eq.mp hj with hj | rfl
      · exact hP.2 j hj
      · rw [hheld] at hL hB'
        rw [hlog] at hB'
        exact ⟨hL, hB'⟩)
  exact hP.2

/-- What `install_trans` has done before round `i`. -/
private structure InstallRound (sb : SuperBlock) (s : Bcache) (i : ℕ) (t : Bcache) : Prop where
  coherent : Coherent sb.logStart t
  abs_eq : t.abs = (s.abs.devWrites
    ((List.range i).map fun j => (s.log.header.blockNo j, s.view (sb.logBlock j)))).unpin
      ((List.range i).map s.log.header.blockNo)
  frame : ∀ q c, Owns s q c → Owns t q c

/-- **`install_trans` copies the log to the recorded blocks** and unpins them. -/
theorem installTrans_spec (hfree : Unheld sb s) :
    ∃ s', s.installTrans sb = some s' ∧ Coherent sb.logStart s' ∧
      s'.abs = (s.abs.devWrites (installWrites sb s.log.header s.view)).unpin
        s.log.header.entries ∧
      ∀ q c, Owns s q c → Owns s' q c := by
  obtain ⟨s', hs', hP⟩ := iterM_progress (f := installStep sb) s.log.header.numBlocks
    (InstallRound sb s) (s := s) ⟨hc, by simp, fun _ _ h => h⟩ (by
      intro i t hi hP
      have hlog : t.log = s.log := congrArg Abs.log hP.abs_eq
      have hheld : t.abs.held = s.abs.held := by rw [hP.abs_eq]; rfl
      obtain ⟨t', ht', hc', habs', hf'⟩ := installStep_spec hP.coherent
        (by rw [hlog]; exact hout.ne_logStart hi) (by rw [hlog]; exact hout.ne_logBlock hi hi)
        (by rw [hheld]; exact (hfree i hi).1) (by rw [hheld, hlog]; exact (hfree i hi).2)
      -- the log block still holds what it held before the loop
      have hview : t.view (sb.logBlock i) = s.view (sb.logBlock i) := by
        rw [← abs_view, hP.abs_eq]
        refine applyWrites_of_notMem ?_
        intro w hw
        obtain ⟨j, hj, rfl⟩ := List.mem_map.mp hw
        exact hout.ne_logBlock (by have := List.mem_range.mp hj; omega) hi
      refine ⟨t', ht', hc', ?_, fun q c h => hf' _ _ (hP.frame _ _ h)⟩
      rw [habs', hP.abs_eq, hlog, hview, List.range_succ, List.map_append, List.map_append,
        List.map_cons, List.map_nil, List.map_cons, List.map_nil, Abs.devWrites_append_singleton]
      ext1
      · rfl
      · rfl
      · funext b
        refine propext ?_
        by_cases hb : b = s.log.header.blockNo i
        · simp [hb]
        · simp [hb]
      · rfl
      · rfl
      · rfl)
  exact ⟨s', hs', hP.coherent, hP.abs_eq, hP.frame⟩

/-! ## Commit and recovery -/

/-- The device writes of a commit: the log copies, the header, the blocks in their
places, the empty header. -/
def commitWrites (sb : SuperBlock) (h : LogHeader) (view : ℕ → Sector) : List (ℕ × Sector) :=
  logWrites sb h view ++ (sb.logStart, h.encode) ::
    ((List.range h.numBlocks).map (fun i => (h.blockNo i, view (h.blockNo i))) ++
      [(sb.logStart, h.clear.encode)])

/-- The device writes of a recovery. -/
def recoverWrites (sb : SuperBlock) (h : LogHeader) (view : ℕ → Sector) : List (ℕ × Sector) :=
  installWrites sb h view ++ [(sb.logStart, h.clear.encode)]

omit hc hout in
/-- The header after a commit or a recovery. -/
theorem clearHeader_spec (sb : SuperBlock) (hc : Coherent sb.logStart s) :
    Coherent sb.logStart (s.clearHeader.writeHeader sb) ∧
    (s.clearHeader.writeHeader sb).abs =
      (s.abs.setLog { s.log with header := s.log.header.clear }).devWrite sb.logStart
        s.log.header.clear.encode ∧
    ∀ q c, Owns s q c → Owns (s.clearHeader.writeHeader sb) q c := by
  obtain ⟨hc₁, habs₁, hf₁⟩ := setLog_spec hc { s.log with header := s.log.header.clear }
  obtain ⟨hc₂, habs₂, hf₂⟩ := writeHeader_spec hc₁
  exact ⟨hc₂, by rw [← habs₁]; exact habs₂, fun q c h => hf₂ _ _ (hf₁ _ _ h)⟩

/-- **What a commit does**: every recorded block reaches its place on disk, the header is
empty, and no content outside the log changes. -/
theorem commit_spec (hn : 0 < s.log.header.numBlocks) (hfree : Unheld sb s) :
    ∃ s', s.commit sb = some s' ∧ Coherent sb.logStart s' ∧
      s'.abs = ((s.abs.devWrites (commitWrites sb s.log.header s.view)).unpin
        s.log.header.entries).setLog { s.log with header := s.log.header.clear } ∧
      ∀ q c, Owns s q c → Owns s' q c := by
  obtain ⟨s₁, h₁, hc₁, habs₁, hf₁⟩ := writeLog_spec hc hout hfree
  obtain ⟨hc₂, habs₂, hf₂⟩ := writeHeader_spec hc₁
  have hlog₂ : (s₁.writeHeader sb).log = s.log := congrArg Abs.log habs₁
  have hheld₂ : (s₁.writeHeader sb).abs.held = s.abs.held := by rw [habs₂, habs₁]; rfl
  have hfree₂ : Unheld sb (s₁.writeHeader sb) := by
    intro i hi
    rw [hheld₂, hlog₂]
    exact hfree i (by rwa [hlog₂] at hi)
  obtain ⟨s₃, h₃, hc₃, habs₃, hf₃⟩ := installTrans_spec hc₂ (by rw [hlog₂]; exact hout) hfree₂
  obtain ⟨hc₄, habs₄, hf₄⟩ := clearHeader_spec sb hc₃
  have hlog₃ : s₃.log = s.log := (congrArg Abs.log habs₃).trans hlog₂
  -- the log copies are read back as they were written
  have hinst : installWrites sb s.log.header (s₁.writeHeader sb).view =
      (List.range s.log.header.numBlocks).map
        fun i => (s.log.header.blockNo i, s.view (s.log.header.blockNo i)) := by
    refine List.map_congr_left ?_
    intro i hi
    have hi' : i < s.log.header.numBlocks := List.mem_range.mp hi
    have hcopy : applyWrites (logWrites sb s.log.header s.view) s.view (sb.logBlock i) =
        s.view (s.log.header.blockNo i) := by
      refine applyWrites_of_mem (w := (sb.logBlock i, s.view (s.log.header.blockNo i))) ?_ ?_
      · rw [logWrites, List.map_map]
        exact List.nodup_range.map_on fun x _ y _ h => sb.logBlock_inj h
      · exact List.mem_map.mpr ⟨i, hi, rfl⟩
    rw [← abs_view, habs₂, Abs.devWrite_view, Function.update_of_ne (sb.logBlock_ne_logStart i),
      abs_view, ← abs_view, habs₁, Abs.devWrites_view, abs_view, hcopy]
  refine ⟨s₃.clearHeader.writeHeader sb, ?_, hc₄, ?_, ?_⟩
  · rw [commit, if_pos hn, h₁]
    simp only [Option.bind_eq_bind, Option.bind_some, h₃]
  · rw [habs₄, habs₃, hlog₃, hlog₂, hinst, habs₂, habs₁]
    have hlog₁ : s₁.log = s.log := congrArg Abs.log habs₁
    rw [hlog₁]
    ext1
    · simp [commitWrites, applyWrites_append]
    · rfl
    · rfl
    · rfl
    · simp [commitWrites, applyWrites_append]
    · simp [commitWrites]
  · intro q c h
    exact hf₄ _ _ (hf₃ _ _ (hf₂ _ _ (hf₁ _ _ h)))

/-- A commit that returns found no recorded block held. -/
theorem unheld_of_commit (hn : 0 < s.log.header.numBlocks) (h : s.commit sb = some s') :
    Unheld sb s := by
  rw [commit, if_pos hn, Option.bind_eq_bind, Option.bind_eq_some_iff] at h
  obtain ⟨s₁, h₁, -⟩ := h
  exact unheld_of_writeLog hc hout h₁

end Bcache

/-- **What a recovery does**: the log copies of the entries on disk reach their places. -/
theorem initBcache_spec {sb : SuperBlock} {disk : ℕ → Sector}
    (hout : OutsideLog sb (LogHeader.decode (disk sb.logStart))) :
    ∃ s, Bcache.initBcache sb disk = some s ∧ s.Coherent sb.logStart ∧
      s.writes = Bcache.recoverWrites sb (LogHeader.decode (disk sb.logStart)) disk ∧
      s.disk = applyWrites s.writes disk ∧ s.view = s.disk ∧
      (∀ b, ¬ s.abs.held b) ∧ (∀ b, ¬ s.abs.pinned b) ∧
      s.log = ⟨(LogHeader.decode (disk sb.logStart)).clear, false, 0, 0⟩ := by
  obtain ⟨s₀, hs₀⟩ : ∃ t, (Bcache.boot disk).readHeader sb = t := ⟨_, rfl⟩
  have hc₀ : s₀.Coherent sb.logStart := by
    rw [← hs₀]
    constructor <;> simp [Bcache.boot, Bcache.readHeader]
  have hheld₀ : ∀ b, ¬ s₀.abs.held b := by
    rw [← hs₀]
    simp [Bcache.boot, Bcache.readHeader, Bcache.abs]
  have hpin₀ : ∀ b, ¬ s₀.abs.pinned b := by
    rw [← hs₀]
    simp [Bcache.boot, Bcache.readHeader, Bcache.abs]
  have hlog₀ : s₀.log = ⟨LogHeader.decode (disk sb.logStart), false, 0, 0⟩ := by
    rw [← hs₀]
    rfl
  have hview₀ : s₀.view = disk := by
    rw [← hs₀]
    rfl
  have hdisk₀ : s₀.disk = disk := by
    rw [← hs₀]
    rfl
  have hw₀ : s₀.writes = [] := by
    rw [← hs₀]
    rfl
  generalize LogHeader.decode (disk sb.logStart) = h at *
  obtain ⟨s₁, h₁, hc₁, habs₁, -⟩ := Bcache.installTrans_spec hc₀ (by rw [hlog₀]; exact hout)
    (fun i _ => ⟨hheld₀ _, hheld₀ _⟩)
  obtain ⟨hc₂, habs₂, -⟩ := Bcache.clearHeader_spec sb hc₁
  have hlog₁ : s₁.log = ⟨h, false, 0, 0⟩ := (congrArg Abs.log habs₁).trans hlog₀
  rw [hlog₀, hview₀] at habs₁
  rw [hlog₁, habs₁] at habs₂
  generalize hs₂ : s₁.clearHeader.writeHeader sb = s₂ at *
  have hw : s₂.writes = Bcache.recoverWrites sb h disk := by
    have happ : s₂.abs.writes = (s₀.writes ++ Bcache.installWrites sb h disk) ++
        [(sb.logStart, h.clear.encode)] := by
      rw [habs₂]
      rfl
    rw [hw₀, List.nil_append] at happ
    exact happ
  have hd : s₂.disk = applyWrites s₂.writes disk := by
    rw [hw, ← Bcache.abs_disk, habs₂]
    simp [Bcache.recoverWrites, applyWrites_append, hdisk₀]
  refine ⟨s₂, ?_, hc₂, hw, hd, ?_, ?_, ?_, ?_⟩
  · rw [Bcache.initBcache, Bcache.recoverFromLog, hs₀, h₁]
    exact congrArg some hs₂
  · rw [← Bcache.abs_view, ← Bcache.abs_disk, habs₂]
    simp [hview₀, hdisk₀]
  · intro b hb
    rw [habs₂] at hb
    exact hheld₀ b hb
  · intro b hb
    rw [habs₂] at hb
    exact hpin₀ b hb.1
  · exact congrArg Abs.log habs₂

end OsLab
