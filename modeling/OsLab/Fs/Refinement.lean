import OsLab.Fs.PlainMap
import OsLab.Mkfs.Layout

/-!
# When the block cache refines the plain map

The simulation of `OsLab.Fs.PlainMap` needs the log area to hold the header and
one block for each recorded number.  A group commit may record `LOG_MAX_SIZE`
numbers, so an area with `num_log_blocks > LOG_MAX_SIZE` is always large enough.
With any smaller one there is a serialised run whose last commit writes a log
copy on the block after the area (`exists_overfull`), and a client that reads
that block gets the log copy.

## Main definitions

* `Refines` — `cache_acquire` returns the last synced content, and the recorded
  blocks are cached once, pinned, with that content.
* `refines_iff` — the super blocks for which every serialised run does so.
-/

namespace OsLab

/-- The plain map describes the cache between two calls. -/
structure Refines (sb : SuperBlock) (w : World) (m : PlainMap) : Prop where
  /-- what `cache_acquire` returns is the last content synced -/
  acquire : ∀ b p s, sb.Client b → w.cache.cacheAcquire b = some (p, s) →
    (s.mem p).blockNo = b ∧ (s.mem p).data = m.content b
  /-- a recorded block is cached once, pinned, with the last content synced, or with
  what its holder has made of it since -/
  recorded : ∀ b ∈ w.cache.log.header.entries, ∃ p,
    (w.cache.head.filter fun q => (w.cache.mem q).blockNo = b) = [p] ∧
    (w.cache.mem p).pinned = true ∧ (w.cache.mem p).data = (m.buf b).getD (m.content b)

namespace Sim

variable {sb : SuperBlock} {w w' : World} {m : PlainMap} {b c p rm : ℕ}

/-- The cached blocks with number `b`, when `p` is one. -/
private theorem filter_eq_singleton {s : Bcache} {ls : ℕ} (hc : s.Coherent ls) (hp : p ∈ s.head)
    (hb : (s.mem p).blockNo = b) : (s.head.filter fun q => (s.mem q).blockNo = b) = [p] := by
  have hall : ∀ q ∈ s.head, decide ((s.mem q).blockNo = b) = (q == p) := by
    intro q hq
    by_cases hqp : q = p
    · simp [hqp, hb]
    · have : (s.mem q).blockNo ≠ b := fun h => hqp (hc.inj q hq p hp (h.trans hb.symm))
      simp [hqp, this]
  rw [List.filter_congr hall, List.filter_beq, List.count_eq_one_of_mem hc.nodup hp]
  rfl

theorem refines (h : Sim sb w m) (h0 : 0 < sb.numLogBlocks) : Refines sb w m := by
  constructor
  · intro b p s hb hacq
    obtain ⟨hnot, A⟩ := Bcache.cacheAcquire_spec h.coherent (client_ne hb h0) hacq
    have hnone : w.env b = none := by
      cases he : w.env b with
      | none => rfl
      | some q => exact absurd (h.held_iff.mpr ⟨q, he⟩) hnot
    refine ⟨A.owns.no, ?_⟩
    rw [A.owns.data A.coherent, ← h.view_eq hb hnone]
    exact congrFun (congrArg Abs.view A.abs_eq) b
  · intro b hb
    obtain ⟨p, hp, hno, hpin⟩ := (h.pinned b).mpr hb
    refine ⟨p, filter_eq_singleton h.coherent hp hno, hpin, ?_⟩
    rw [← h.coherent.view_eq hp hno, h.buf b]
    cases he : w.env b with
    | none => exact (h.in_cache b hb he).symm
    | some q => rfl

/-! ## Calls that return -/

theorem acquire_returns (h : Sim sb w m) (h0 : 0 < sb.numLogBlocks) (hb : sb.Client b)
    (he : w.env b = none) : ∃ p s, s.log = w.cache.log ∧
      w.step sb (.acquire b) = some ⟨s, w.ctxs, Function.update w.env b (some p)⟩ := by
  have hnot : ¬ w.cache.abs.held b := by
    rw [h.held_iff, he]
    simp
  obtain ⟨p, s, hacq, A⟩ := Bcache.cacheAcquire_of_not_held h.coherent (client_ne hb h0) hnot
  refine ⟨p, s, congrArg Abs.log A.abs_eq, ?_⟩
  simp [World.step, hacq]

theorem sync_returns (h : Sim sb w m) (he : w.env b = some p) (hrm : w.rm c = some (rm + 1))
    (hb : b ∉ w.cache.log.header.entries) :
    ∃ s, s.log.header = w.cache.log.header.push b ∧
      w.step sb (.sync (some c) b) =
        some ⟨s, (c, rm) :: w.ctxs.erase (c, rm + 1), w.env⟩ := by
  have hno : (w.cache.mem p).blockNo = b := ((h.env b p).mp he).no
  refine ⟨_, ?_, by
    simp only [World.step, Option.bind_eq_bind, he, hrm, Option.bind_some, Bcache.cacheSync, hno,
      Log.sync, if_neg hb, gt_iff_lt, Nat.succ_pos, if_true, Nat.add_sub_cancel]
    rfl⟩
  rfl

theorem release_returns (h : Sim sb w m) (he : w.env b = some p)
    (hok : m.buf b = some (m.content b)) : ∃ s, s.log = w.cache.log ∧
      w.step sb (.release b) = some ⟨s, w.ctxs, Function.update w.env b none⟩ := by
  have hcontent : w.cache.view b = m.content b := by
    rw [h.buf_of_env he] at hok
    exact Option.some.inj hok
  obtain ⟨s, hrel, -, habs, -⟩ := Bcache.cacheRelease_spec h.coherent ((h.env b p).mp he) (by
    intro hp
    rw [hcontent]
    exact h.on_disk b (h.env_client b p he) (fun hmem => hp ((h.pinned b).mpr hmem)))
  refine ⟨s, congrArg Abs.log habs, ?_⟩
  simp [World.step, he, hrel]

end Sim

/-! ## A log area that is too small -/

/-- The super block with the smallest log area that is always large enough. -/
def SuperBlock.wideLog (sb : SuperBlock) : SuperBlock where
  numBlocks := sb.numBlocks
  numDataBlocks := sb.numDataBlocks
  numInodes := sb.numInodes
  numLogBlocks := logMaxSize + 1
  logStart := sb.logStart
  inodeStart := sb.inodeStart
  bitmapStart := sb.bitmapStart
  isU32 := by
    have h := sb.isU32
    simp only [List.mem_cons, List.not_mem_nil, or_false, forall_eq_or_imp, forall_eq] at h ⊢
    exact ⟨h.1, h.2.1, h.2.2.1, by decide, h.2.2.2.2.1, h.2.2.2.2.2.1, h.2.2.2.2.2.2⟩

/-- Recovery reads `log_start` and nothing else of the super block. -/
theorem SuperBlock.initBcache_wideLog (sb : SuperBlock) (disk : ℕ → Sector) :
    Bcache.initBcache sb.wideLog disk = Bcache.initBcache sb disk := by
  have hlog : ∀ i, sb.wideLog.logBlock i = sb.logBlock i := fun _ => rfl
  have hstep : Bcache.installStep sb.wideLog = Bcache.installStep sb := by
    funext i s
    simp only [Bcache.installStep, hlog]
  have hstart : sb.wideLog.logStart = sb.logStart := rfl
  simp only [Bcache.initBcache, Bcache.recoverFromLog, Bcache.installTrans, Bcache.readHeader,
    Bcache.writeHeader, hstep, hstart]

namespace Overfull

/-- The `i`-th block the run below writes. -/
def target (sb : SuperBlock) (i : ℕ) : ℕ := sb.logStart + logMaxSize + 1 + i

/-- What it writes there. -/
def ones : Sector := Bytes.ofFn fun _ => 1

theorem ones_ne_zero : ones ≠ Bytes.zero := by
  intro h
  have := congrArg (fun s : Sector => s.get 0) h
  simp [ones, Bytes.zero, Bytes.get_ofFn] at this

/-- The state of a run that has written the first `n` targets and holds no block. -/
structure Filled (sb : SuperBlock) (disk : ℕ → Sector) (n : ℕ) (ctxs : List (ℕ × ℕ)) (w : World)
    (m : PlainMap) : Prop where
  serial : Serial sb disk w m
  sim : Sim sb.wideLog w m
  free : ∀ b, w.env b = none
  ctxs_eq : w.ctxs = ctxs
  entries : w.cache.log.header.entries = (List.range n).map (target sb)
  last : m.content (sb.logStart + logMaxSize) = Bytes.zero
  written : ∀ i < n, m.content (target sb i) = ones

variable {sb : SuperBlock} {disk : ℕ → Sector} {n c rm : ℕ} {ctxs : List (ℕ × ℕ)} {w : World}
  {m : PlainMap}

theorem client_target (hsb : sb.numLogBlocks ≤ logMaxSize) (hn : n < logMaxSize) :
    sb.Client (target sb n) ∧ sb.wideLog.Client (target sb n) := by
  have := sb.logStart_lt
  simp only [SuperBlock.Client, SuperBlock.InLog, SuperBlock.wideLog, target, logMaxSize_eq] at *
  omega

theorem Filled.numBlocks (h : Filled sb disk n ctxs w m) : w.cache.log.header.numBlocks = n := by
  rw [← LogHeader.length_entries, h.entries]
  simp

/-- One more block is written. -/
theorem Filled.write (h : Filled sb disk n ((c, rm + 1) :: ctxs) w m)
    (hsb : sb.numLogBlocks ≤ logMaxSize) (hn : n < logMaxSize) :
    ∃ w' m', Filled sb disk (n + 1) ((c, rm) :: ctxs) w' m' := by
  obtain ⟨hcl, hcl'⟩ := client_target hsb hn
  generalize hb : target sb n = b at *
  have hne : b ≠ sb.logStart + logMaxSize := by
    rw [← hb, target]
    omega
  have hnew : b ∉ w.cache.log.header.entries := by
    rw [h.entries, ← hb]
    simp [target]
  have h0 : 0 < sb.wideLog.numLogBlocks := Nat.succ_pos _
  obtain ⟨p, s₁, hlog₁, h₁⟩ := h.sim.acquire_returns h0 hcl' (h.free b)
  have sim₁ := h.sim.acquire h0 hcl' h₁
  have ser₁ := Serial.step (.acquire b) h.serial hcl h₁
  obtain ⟨w₂, h₂⟩ : ∃ w₂, World.step sb ⟨s₁, w.ctxs, Function.update w.env b (some p)⟩
      (.modify b ones) = some w₂ := by simp [World.step]
  have hw₂ := h₂
  simp only [World.step, Function.update_self, Option.bind_eq_bind, Option.bind_some,
    Option.some.injEq] at hw₂
  have sim₂ := sim₁.modify h₂
  have ser₂ := Serial.step (.modify b ones) ser₁ trivial h₂
  have he₂ : w₂.env b = some p := by rw [← hw₂]; simp
  have hlog₂ : w₂.cache.log = w.cache.log := by rw [← hw₂]; exact hlog₁
  have hrm₂ : w₂.rm c = some (rm + 1) := by rw [← hw₂, World.rm, h.ctxs_eq]; simp
  obtain ⟨s₃, hlog₃, h₃⟩ := sim₂.sync_returns he₂ hrm₂ (by rw [hlog₂]; exact hnew)
  have sim₃ := sim₂.syncCtx h₃
  have ser₃ := Serial.step (.sync (some c) b) ser₂ trivial h₃
  have hok : (((m.step (.acquire b)).step (.modify b ones)).step (.sync (some c) b)).buf b =
      some ((((m.step (.acquire b)).step (.modify b ones)).step (.sync (some c) b)).content b) := by
    simp [PlainMap.step]
  obtain ⟨s₄, hlog₄, h₄⟩ := sim₃.release_returns (p := p) he₂ hok
  have hcont : ((((m.step (.acquire b)).step (.modify b ones)).step (.sync (some c) b)).step
      (.release b)).content = Function.update m.content b ones := by
    simp [PlainMap.step]
  refine ⟨_, _, Serial.step (.release b) ser₃ hok h₄, sim₃.release hok h₄, ?_, ?_, ?_, ?_, ?_⟩
  · intro x
    by_cases hx : x = b
    · simp [hx]
    · simp [← hw₂, hx, h.free x]
  · simp [← hw₂, h.ctxs_eq]
  · simp only [hlog₄, hlog₃, hlog₂, LogHeader.entries_push, h.entries, List.range_succ,
      List.map_append, List.map_cons, List.map_nil, hb]
  · rw [hcont, Function.update_of_ne (Ne.symm hne)]
    exact h.last
  · intro i hi
    rw [hcont]
    by_cases hin : i = n
    · rw [hin, hb, Function.update_self]
    · have hib : target sb i ≠ b := by
        rw [← hb, target, target]
        omega
      rw [Function.update_of_ne hib]
      exact h.written i (by omega)

/-- Several more blocks are written. -/
theorem Filled.writes (k : ℕ) (h : Filled sb disk n ((c, rm + k) :: ctxs) w m)
    (hsb : sb.numLogBlocks ≤ logMaxSize) (hn : n + k ≤ logMaxSize) :
    ∃ w' m', Filled sb disk (n + k) ((c, rm) :: ctxs) w' m' := by
  induction k generalizing n w m with
  | zero => exact ⟨w, m, h⟩
  | succ k ih =>
      obtain ⟨w', m', h'⟩ := h.write hsb (by omega)
      obtain ⟨w'', m'', h''⟩ := ih h' (by omega)
      rw [Nat.add_right_comm] at h''
      exact ⟨w'', m'', h''⟩

/-- Another operation begins. -/
theorem Filled.begin (h : Filled sb disk n ctxs w m) (hc : c ∉ ctxs.map Prod.fst)
    (hn : n + (ctxs.map Prod.snd).sum + opMaxNumBlocks ≤ logMaxSize) :
    ∃ w', Filled sb disk n ((c, opMaxNumBlocks) :: ctxs) w' m := by
  have hres := h.sim.reserved.reserved
  rw [h.ctxs_eq] at hres
  have hcond : ¬ ((w.cache.log.header.numBlocks : ℤ) + w.cache.log.opReserved +
      opMaxNumBlocks > logMaxSize) := by
    rw [h.numBlocks, hres]
    omega
  obtain ⟨l, hl⟩ : ∃ l, w.cache.log.beginOp = .admitted opMaxNumBlocks l := by
    rw [Log.beginOp, h.sim.idle, if_neg (by simp), if_neg hcond]
    exact ⟨_, rfl⟩
  obtain ⟨-, -, -, -, hhdr⟩ := h.sim.reserved.beginOp (c := c) (by rw [h.ctxs_eq]; exact hc) hl
  have hs : World.step sb w (.beginOp c) =
      some { w with cache := { w.cache with log := l },
                    ctxs := (c, opMaxNumBlocks) :: w.ctxs } := by
    simp only [World.step, h.ctxs_eq, if_neg hc, Bcache.cacheBeginOp, hl]
    rfl
  refine ⟨_, Serial.step (.beginOp c) h.serial trivial hs, h.sim.beginOp hs, h.free, ?_, ?_,
    h.last, h.written⟩
  · simp [h.ctxs_eq]
  · simp only [hhdr]
    exact h.entries

/-- An operation ends while another one is outstanding. -/
theorem Filled.finish {x : ℕ × ℕ} (h : Filled sb disk n ((c, rm) :: x :: ctxs) w m) :
    ∃ w', Filled sb disk n (x :: ctxs) w' m := by
  have hout := h.sim.reserved.outstanding
  rw [h.ctxs_eq] at hout
  have hrm : w.rm c = some rm := by
    rw [World.rm, h.ctxs_eq]
    simp
  have hl : w.cache.log.endOp rm = (false, { w.cache.log with
      outstanding := w.cache.log.outstanding - 1, opReserved := w.cache.log.opReserved - rm }) := by
    simp [Log.endOp, hout]
  have hs : ∀ sb : SuperBlock, World.step sb w (.endOp c) = some { w with
      cache := { w.cache with log := { w.cache.log with
        outstanding := w.cache.log.outstanding - 1, opReserved := w.cache.log.opReserved - rm } },
      ctxs := w.ctxs.erase (c, rm) } := by
    intro sb
    simp only [World.step, hrm, Bcache.cacheEndOp, hl, Option.bind_eq_bind, Option.bind_some]
  refine ⟨_, Serial.step (.endOp c) h.serial trivial (hs sb), ?_, h.free, ?_, h.entries, h.last,
    h.written⟩
  · refine h.sim.endOp ?_ (hs sb.wideLog)
    have := h.sim.reserved.numBlocks_le
    simp only [SuperBlock.wideLog]
    omega
  · simp [h.ctxs_eq]

theorem numBlocks_decode_zero (h : ∀ b, disk b = Bytes.zero) (b : ℕ) :
    (LogHeader.decode (disk b)).numBlocks = 0 := by
  rw [h b]
  exact Bytes.word_zero _ _

/-- A device full of zeros has an empty log. -/
theorem validLog_zero (sb : SuperBlock) (h : ∀ b, disk b = Bytes.zero) : ValidLog sb disk := by
  have hn := numBlocks_decode_zero h sb.logStart
  constructor
  · rw [hn]
    exact Nat.zero_le _
  · rw [LogHeader.entries, hn]
    simp

theorem exists_start (sb : SuperBlock) (h : ∀ b, disk b = Bytes.zero) :
    ∃ w m, Filled sb disk 0 [] w m := by
  have hn := numBlocks_decode_zero h sb.wideLog.logStart
  have hv := validLog_zero sb.wideLog h
  have hroom : (LogHeader.decode (disk sb.wideLog.logStart)).numBlocks <
      sb.wideLog.numLogBlocks := by
    rw [hn]
    exact Nat.succ_pos _
  obtain ⟨s, hs, -, hw, hd, -, -, -, hlog⟩ := initBcache_spec (Sim.outsideLog_of_valid hv hroom)
  have hlast : s.disk (sb.logStart + logMaxSize) = Bytes.zero := by
    -- recovery writes nothing but the empty header
    rw [hd, hw, applyWrites_of_notMem, h]
    intro x hx
    rw [Bcache.recoverWrites, Bcache.installWrites, hn, List.range_zero, List.map_nil,
      List.nil_append, List.mem_singleton] at hx
    rw [hx]
    simp [SuperBlock.wideLog]
  refine ⟨World.start s, ⟨s.disk, fun _ => none⟩, .init (sb.initBcache_wideLog _ ▸ hs),
    Sim.init hv hroom hs, fun _ => rfl, rfl, ?_, hlast, ?_⟩
  · simp only [World.start, hlog, LogHeader.entries_clear, List.range_zero, List.map_nil]
  · intro i hi
    omega

/-- An operation comes, writes `k` blocks and goes. -/
theorem Filled.session {k : ℕ} (h : Filled sb disk n [(0, opMaxNumBlocks)] w m)
    (hsb : sb.numLogBlocks ≤ logMaxSize) (hk : k ≤ opMaxNumBlocks)
    (hn : n + opMaxNumBlocks + opMaxNumBlocks ≤ logMaxSize) :
    ∃ w' m', Filled sb disk (n + k) [(0, opMaxNumBlocks)] w' m' := by
  obtain ⟨w₁, h₁⟩ := h.begin (c := 1) (by simp) (by simpa using hn)
  obtain ⟨j, hj⟩ : ∃ j, opMaxNumBlocks = j + k := ⟨opMaxNumBlocks - k, by omega⟩
  rw [show ((1, opMaxNumBlocks) : ℕ × ℕ) = (1, j + k) by rw [hj]] at h₁
  obtain ⟨w₂, m₂, h₂⟩ := h₁.writes k hsb (by omega)
  obtain ⟨w₃, h₃⟩ := h₂.finish
  exact ⟨w₃, m₂, h₃⟩

/-- **The largest group**: one operation stays open while six others come and go. -/
theorem exists_filled (hz : ∀ b, disk b = Bytes.zero) (hsb : sb.numLogBlocks ≤ logMaxSize) :
    ∃ w m rm, Filled sb disk logMaxSize [(0, rm)] w m := by
  obtain ⟨w, m, h⟩ := exists_start sb hz
  obtain ⟨w₀, h₀⟩ := h.begin (c := 0) (by simp) (by simp)
  obtain ⟨w₁, m₁, h₁⟩ := h₀.session (k := 3) hsb (by simp) (by simp)
  obtain ⟨w₂, m₂, h₂⟩ := h₁.session (k := 10) hsb (by simp) (by simp)
  obtain ⟨w₃, m₃, h₃⟩ := h₂.session (k := 10) hsb (by simp) (by simp)
  obtain ⟨w₄, m₄, h₄⟩ := h₃.session (k := 10) hsb (by simp) (by simp)
  obtain ⟨w₅, m₅, h₅⟩ := h₄.session (k := 10) hsb (by simp) (by simp)
  obtain ⟨w₆, m₆, h₆⟩ := h₅.session (k := 10) hsb (by simp) (by simp)
  have h₆' : Filled sb disk 53 [(0, 0 + 10)] w₆ m₆ := h₆
  obtain ⟨w₇, m₇, h₇⟩ := h₆'.writes 10 hsb (by simp)
  exact ⟨w₇, m₇, 0, h₇⟩

/-- A commit leaves the log copies in the log blocks. -/
private theorem applyWrites_commitWrites_logBlock {h : LogHeader} {view d : ℕ → Sector} {i : ℕ}
    (hout : OutsideLog sb h) (hi : i < h.numBlocks) :
    applyWrites (Bcache.commitWrites sb h view) d (sb.logBlock i) = view (h.blockNo i) := by
  have hlog : applyWrites (Bcache.logWrites sb h view) d (sb.logBlock i) = view (h.blockNo i) := by
    refine applyWrites_of_mem (w := (sb.logBlock i, view (h.blockNo i))) ?_ ?_
    · rw [Bcache.logWrites, List.map_map]
      exact List.nodup_range.map_on fun x _ y _ h => sb.logBlock_inj h
    · exact List.mem_map.mpr ⟨i, List.mem_range.mpr hi, rfl⟩
  rw [Bcache.commitWrites, applyWrites_append, applyWrites_of_notMem, hlog]
  intro x hx
  simp only [List.mem_cons, List.mem_append, List.mem_map, List.mem_range, List.not_mem_nil,
    or_false] at hx
  rcases hx with rfl | ⟨j, hj, rfl⟩ | rfl
  · exact (sb.logBlock_ne_logStart i).symm
  · exact hout.ne_logBlock hj hi
  · exact (sb.logBlock_ne_logStart i).symm

/-- **A log area that is too small is left**: the block after it is overwritten with a log
copy, and `cache_acquire` returns that copy. -/
theorem exists_overfull (hz : ∀ b, disk b = Bytes.zero) (hsb : sb.numLogBlocks ≤ logMaxSize) :
    ∃ w m, Serial sb disk w m ∧ ¬ Refines sb w m := by
  obtain ⟨w, m, rm, h⟩ := exists_filled hz hsb
  have hrm : w.rm 0 = some rm := by
    rw [World.rm, h.ctxs_eq]
    simp
  have hout := h.sim.reserved.outstanding
  rw [h.ctxs_eq] at hout
  obtain ⟨l, hl⟩ : ∃ l, w.cache.log.endOp rm = (true, l) := by
    simp [Log.endOp, hout]
  have hhdr : l.header = w.cache.log.header :=
    (h.sim.reserved.endOp (c := 0) (by rw [h.ctxs_eq]; simp) hl).2.1
  have hnum : l.header.numBlocks = logMaxSize := by rw [hhdr, h.numBlocks]
  have hno : ∀ i < logMaxSize, l.header.blockNo i = target sb i := by
    intro i hi
    have hrange := h.entries
    rw [← hhdr, LogHeader.entries, hnum, List.map_inj_left] at hrange
    exact hrange i (List.mem_range.mpr hi)
  have houtside : OutsideLog sb l.header := by
    intro i hi
    right
    rw [hno i (by rwa [hnum] at hi), hnum, target]
    omega
  obtain ⟨hc₁, habs₁, -⟩ := Bcache.setLog_spec h.sim.coherent l
  have hheld : ∀ b, ¬ w.cache.abs.held b := by
    intro b
    rw [h.sim.held_iff, h.free b]
    simp
  have hc₁' : Bcache.Coherent sb.logStart { w.cache with log := l } := hc₁
  obtain ⟨s, hs, hc₂, habs₂, -⟩ := Bcache.commit_spec hc₁' houtside (by rw [hnum]; simp)
    (fun i _ => ⟨hheld _, hheld _⟩)
  obtain ⟨hc₃, habs₃, -⟩ := Bcache.setLog_spec hc₂ { s.log with committing := false }
  have hstep : World.step sb w (.endOp 0) = some { w with
      cache := { s with log := { s.log with committing := false } },
      ctxs := w.ctxs.erase (0, rm) } := by
    simp only [World.step, hrm, Bcache.cacheEndOp, hl, Option.bind_eq_bind, Option.bind_some, hs]
  refine ⟨_, _, Serial.step (.endOp 0) h.serial trivial hstep, ?_⟩
  intro href
  -- the last log block is the block after the area
  have hblock : sb.logBlock 62 = sb.logStart + logMaxSize := rfl
  have hview : Bcache.view { s with log := { s.log with committing := false } }
      (sb.logBlock 62) = ones := by
    rw [← Bcache.abs_view, habs₃, habs₂]
    simp only [Abs.setLog_view, Abs.unpin_view, Abs.devWrites_view]
    rw [applyWrites_commitWrites_logBlock houtside (by rw [hnum]; decide), hno 62 (by decide)]
    change w.cache.view (target sb 62) = ones
    have hmem : target sb 62 ∈ w.cache.log.header.entries := by
      rw [h.entries]
      exact List.mem_map.mpr ⟨62, List.mem_range.mpr (by decide), rfl⟩
    rw [← h.sim.in_cache _ hmem (h.free _)]
    exact h.written 62 (by decide)
  have hnot : ¬ (Bcache.abs { s with log := { s.log with committing := false } }).held
      (sb.logBlock 62) := by
    rw [habs₃, habs₂]
    exact hheld _
  obtain ⟨p, s', hacq, A⟩ := Bcache.cacheAcquire_of_not_held hc₃ (sb.logBlock_ne_logStart 62) hnot
  have hclient : sb.Client (sb.logBlock 62) := by
    have := sb.logStart_lt
    rw [hblock]
    simp only [SuperBlock.Client, SuperBlock.InLog, logMaxSize_eq] at *
    omega
  have hdata := (href.acquire _ p s' hclient hacq).2
  rw [A.owns.data A.coherent, show s'.view (sb.logBlock 62) = _ from
    congrFun (congrArg Abs.view A.abs_eq) _] at hdata
  simp only [Abs.acquire_view, Bcache.abs_view] at hdata
  rw [hview, hblock] at hdata
  exact ones_ne_zero (hdata.trans h.last)

end Overfull

/-! ## The refinement -/

/-- Every serialised run on a log area of the declared size refines the plain map. -/
def RefinesMap (sb : SuperBlock) : Prop :=
  ∀ disk w m, ValidLog sb disk → Serial sb disk w m → Refines sb w m

theorem Serial.sim {sb : SuperBlock} {disk : ℕ → Sector} {w : World} {m : PlainMap}
    (hsb : logMaxSize < sb.numLogBlocks) (hv : ValidLog sb disk) (h : Serial sb disk w m) :
    Sim sb w m := by
  induction h with
  | init hs => exact Sim.init hv (lt_of_le_of_lt hv.le hsb) hs
  | step _ _ hok hs ih =>
      refine ih.step (by omega) ?_ hok hs
      intro _ _
      exact lt_of_le_of_lt ih.reserved.numBlocks_le hsb

/-- **The block cache refines a plain map exactly when the log area has room for a header
and `LOG_MAX_SIZE` blocks.** -/
theorem refinesMap_iff (sb : SuperBlock) : RefinesMap sb ↔ logMaxSize < sb.numLogBlocks := by
  constructor
  · intro h
    by_contra hsb
    have hz : ∀ b : ℕ, (fun _ => Bytes.zero : ℕ → Sector) b = Bytes.zero := fun _ => rfl
    obtain ⟨w, m, hser, hnot⟩ := Overfull.exists_overfull hz (Nat.le_of_not_lt hsb)
    exact hnot (h _ w m (Overfull.validLog_zero sb hz) hser)
  · intro hsb disk w m hv hser
    exact (hser.sim hsb hv).refines (by omega)

/-- The log area of mkfs is one block too small. -/
theorem not_refinesMap_mkfs : ¬ RefinesMap Mkfs.sb := by
  have hz : ∀ b : ℕ, (fun _ => Bytes.zero : ℕ → Sector) b = Bytes.zero := fun _ => rfl
  obtain ⟨w, m, hser, hnot⟩ := Overfull.exists_overfull hz (show Mkfs.sb.numLogBlocks ≤ logMaxSize by decide)
  intro h
  exact hnot (h _ w m (Overfull.validLog_zero Mkfs.sb hz) hser)

end OsLab
