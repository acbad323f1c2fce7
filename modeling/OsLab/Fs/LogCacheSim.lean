import OsLab.Fs.AcquireCalls
import OsLab.Fs.Durability
import OsLab.Fs.LogCache

/-!
# The shared cache under the log

Over runs whose steps are in order, `LogCache` does what `LogSys` says: where
`LogSys` has contents by number and one owner for each number, `LogCache` has
`Block` structures that are found, taken over, locked and released.  A step of
`LogCache` is one step of `LogSys` or none.  The steps inside a call of
`cache_acquire` are none, up to the one in which it returns: there `LogSys` takes
the block, for the thread that the lock goes to.

## Main definitions

* `CachePc.abs`, `LogCache.abs` — the state of `LogSys` behind a state of `LogCache`.
* `LogCache.Shows` — what ties the blocks to it.
* `LogCache.Matched` — a step is one of `LogSys` or none; `Shows.inCall`, `Shows.acquire` and the
  releases are the steps inside a call.
-/

namespace OsLab

/-! ## What a thread does to a block it holds -/

namespace Sound

variable {dirty dirty' : ℕ → Bool} {s : AcqSys} {t p b : ℕ} {e : Sector}

theorem setLog (h : Sound dirty s) (l : Log) : Sound dirty (s.setLog l) :=
  ⟨h.nodup, h.lt_brk, h.inj, h.block, h.outside, h.clean⟩

/-- The device block of the header is not kept up to date in the cache. -/
theorem writeHeader {sb : SuperBlock} (h : Sound dirty s) (hd : dirty sb.logStart = true) :
    Sound dirty (s.writeHeader sb) := by
  refine ⟨h.nodup, h.lt_brk, h.inj, h.block, h.outside, ?_⟩
  intro c hc hpin
  have hne : c ≠ sb.logStart := by
    rintro rfl
    rw [hd] at hc
    cases hc
  simp only [AcqSys.writeHeader, Bcache.writeHeader, Bcache.devWrite, Function.update_of_ne hne]
  exact h.clean c hc hpin

/-- The content of a held block. -/
theorem data_eq (h : Sound dirty s) (hh : s.hold t p = some (b, e)) :
    (s.cache.mem p).blockNo = b ∧ (s.cache.mem p).data = s.cur b := by
  have hp := h.mem_of_hold (t := t) (p := p) (by rw [hh]; simp)
  have hB := h.block p hp
  have hno := (hB.held t b e hh).1
  refine ⟨hno, ?_⟩
  rw [← hno]
  exact hB.loaded (hB.loaded_of_hold (t := t) (by rw [hh]; simp))

/-- The holder changes the block in place, and its number is dirty. -/
theorem change (h : Sound dirty s) (hh : s.hold t p = some (b, e)) (d : Sector)
    (hd : ∀ c, dirty' c = false → c ≠ b ∧ dirty c = false) : Sound dirty' (s.change t p b d) := by
  have hp : p ∈ s.cache.head := h.mem_of_hold (t := t) (by rw [hh]; simp)
  have hB := h.block p hp
  have hb : (s.cache.mem p).blockNo = b := (hB.held t b e hh).1
  have hself : (s.change t p b d).cache.mem p = { s.cache.mem p with data := d } :=
    Bcache.set_mem_self _ _ _
  have hother : ∀ q, q ≠ p → (s.change t p b d).cache.mem q = s.cache.mem q :=
    fun q hq => Bcache.set_mem_of_ne _ _ hq
  refine h.of_block hp (List.Perm.refl _) rfl hother ?_ (fun _ _ _ => rfl) ?_ ?_ ?_ ?_
  · rw [hself]
    exact h.no_ne hp
  · intro q hq u
    exact hold_update_of_ne _ _ _ _ hq
  · intro c hc
    rw [hself, hb] at hc
    exact Function.update_of_ne hc _ _
  · intro c hc hpin
    obtain ⟨hne, hc⟩ := hd c hc
    have hcur : (s.change t p b d).cur c = s.cur c := Function.update_of_ne hne _ _
    rw [hcur]
    apply h.clean c hc
    intro q hq hqc
    by_cases hqp : q = p
    · rw [hqp, hb] at hqc
      exact absurd hqc.symm hne
    · have := hpin q hq
      rw [hother q hqp] at this
      exact this hqc
  · rw [hself]
    simp only [AcqSys.change, AcqSys.setHold, hold_update]
    exact hB.put hh rfl rfl rfl

/-- The pin of a held block changes.  Where nothing keeps a number in the cache, it is on disk. -/
theorem pin (h : Sound dirty s) (hh : s.hold t p ≠ none) (v : Bool)
    (hclean : ∀ c, dirty' c = false → (∀ q ∈ s.cache.head, (s.cache.mem q).blockNo = c →
      ((s.pin p v).cache.mem q).pinned = false) → s.cur c = s.cache.disk c) :
    Sound dirty' (s.pin p v) := by
  have hp : p ∈ s.cache.head := h.mem_of_hold hh
  have hB := h.block p hp
  have hself : (s.pin p v).cache.mem p = { s.cache.mem p with pinned := v } :=
    Bcache.set_mem_self _ _ _
  have hother : ∀ q, q ≠ p → (s.pin p v).cache.mem q = s.cache.mem q :=
    fun q hq => Bcache.set_mem_of_ne _ _ hq
  have hno : ∀ q, ((s.pin p v).cache.mem q).blockNo = (s.cache.mem q).blockNo := by
    intro q
    by_cases hqp : q = p
    · rw [hqp, hself]
    · rw [hother q hqp]
  refine h.of_block hp (List.Perm.refl _) rfl hother ?_ (fun _ _ _ => rfl) (fun _ _ _ => rfl)
    (fun _ _ => rfl) ?_ ?_
  · rw [hno]
    exact h.no_ne hp
  · intro c hc hpin
    exact hclean c hc fun q hq hqc => hpin q hq ((hno q).trans hqc)
  · rw [hself]
    have hload := hB.loaded_of_hold hh
    exact { hB with
      unpinned := fun u hu => by
        have hu' : ((s.pc u).role p).loading = true := hu
        rw [hload u] at hu'
        cases hu' }

end Sound

/-! ## The state of `LogSys` -/

/-- The points of a loop in `LogSys`: before the log block is acquired, -/
def Pass.first (tail : ℕ) : Pass → Phase
  | .writeLog => .logTo tail
  | .installTrans => .installFrom tail

/-- before the recorded block is, -/
def Pass.second (tail : ℕ) : Pass → Phase
  | .writeLog => .logFrom tail
  | .installTrans => .installTo tail

/-- and before the copy. -/
def Pass.copy (tail : ℕ) : Pass → Phase
  | .writeLog => .logCopy tail
  | .installTrans => .installCopy tail

/-- The same point in `LogSys`.  A thread in `cache_acquire` has yet to take the block there, and
after the device write its blocks are free there. -/
def CommitPc.abs (inCall : Bool) : CommitPc → Phase
  | .check => .check
  | .first k tail => k.first tail
  | .second k tail => if inCall then k.first tail else k.second tail
  | .copy k tail _ => if inCall then k.second tail else k.copy tail
  | .unpin tail _ _ => .installFrom (tail + 1)
  | .freeFrom k tail _ _ | .freeTo k tail _ _ => k.first (tail + 1)
  | .writeHeader => .writeHeader
  | .clear => .clear
  | .clearHeader => .clearHeader
  | .finish => .finish

def CachePc.abs (inCall : Bool) : CachePc → Pc
  | .out => .out
  | .entering => .entering
  | .waitS3 => .waitS3
  | .asleepS3 => .asleepS3
  | .waitS1 => .waitS1
  | .asleepS1 => .asleepS1
  | .inOp => .inOp
  | .leaving => .leaving
  | .waitS2 => .waitS2
  | .asleepS2 => .asleepS2
  | .commit q => .commit (q.abs inCall)
  | .postS1 => .postS1
  | .postS2 => .postS2
  | .postS3 => .postS3
  | .returned => .returned

/-- The blocks a committer has written and not released yet. -/
def CachePc.busy : CachePc → List ℕ
  | .commit (.unpin _ lp rp) | .commit (.freeFrom _ _ lp rp) | .commit (.freeTo _ _ lp rp) =>
      [lp, rp]
  | _ => []

/-- A point outside `commit`. -/
def CachePc.plain : CachePc → Bool
  | .commit _ => false
  | _ => true

/-- A thread at this point may be in `cache_acquire(b)`. -/
def CachePc.Asks (sb : SuperBlock) (h : LogHeader) (b : ℕ) : CachePc → Prop
  | .out | .inOp | .returned => sb.Client b
  | .commit (.second _ tail) => tail < h.numBlocks ∧ b = sb.logBlock tail
  | .commit (.copy _ tail _) => tail < h.numBlocks ∧ b = h.blockNo tail
  | _ => False

namespace LogCache

/-- The contents, the log and the threads as `LogSys` has them, with the owners of the blocks. -/
def abs (s : LogCache) (held : ℕ → Option ℕ) (recorded : ℕ → ℕ) : LogSys where
  log := s.log
  s1 := s.s1
  s2 := s.s2
  s3 := s.s3
  ctxs := s.ctxs
  pc := fun t => (s.pc t).abs (s.blocks.pc t).call.isSome
  held := held
  dirty := s.dirty
  view := s.blocks.cur
  disk := s.disk
  started := s.started
  finished := s.finished
  began := s.began
  commitNo := s.commitNo
  synced := s.synced
  recorded := recorded
  hist := s.hist
  inst := s.inst

/-- The device may differ from the last synced content: the number was changed and not synced,
or it is that of the header. -/
def stale (sb : SuperBlock) (s : LogCache) (b : ℕ) : Bool :=
  s.dirty b || decide (b = sb.logStart ∧ 0 < sb.numLogBlocks)

/-- The thread holds the block `p` under the number `b`. -/
def Has (s : LogCache) (t p b : ℕ) : Prop := ∃ d, s.blocks.hold t p = some (b, d)

theorem Has.inj {s : LogCache} {t p b c : ℕ} (hb : s.Has t p b) (hc : s.Has t p c) : b = c := by
  obtain ⟨d, hd⟩ := hb
  obtain ⟨e, he⟩ := hc
  exact (Prod.mk.inj (Option.some.inj (hd.symm.trans he))).1

/-- It does, and the content is synced. -/
def HasClean (s : LogCache) (t p b : ℕ) : Prop := s.Has t p b ∧ s.dirty b = false

/-- The blocks a committer at this point holds. -/
def Keeps (sb : SuperBlock) (s : LogCache) (t : ℕ) : CachePc → Prop
  | .commit (.second _ tail) => tail < s.log.header.numBlocks ∧
      ((s.blocks.pc t).call = none → s.HasClean t (s.bp t) (sb.logBlock tail))
  | .commit (.copy _ tail lp) => tail < s.log.header.numBlocks ∧
      s.HasClean t lp (sb.logBlock tail) ∧
      ((s.blocks.pc t).call = none → s.HasClean t (s.bp t) (s.log.header.blockNo tail))
  | .commit (.unpin tail lp rp) => s.HasClean t lp (sb.logBlock tail) ∧
      s.HasClean t rp (s.log.header.blockNo tail) ∧ lp ≠ rp
  | .commit (.freeFrom k _ lp rp) => (∃ b, s.HasClean t (k.src lp rp) b) ∧
      (∃ b, s.HasClean t (k.to lp rp) b) ∧ lp ≠ rp
  | .commit (.freeTo k _ lp rp) => s.blocks.hold t (k.src lp rp) = none ∧
      ∃ b, s.HasClean t (k.to lp rp) b
  | _ => True

/-- **How the blocks show the contents and owners of `LogSys`.** -/
structure Shows (sb : SuperBlock) (s : LogCache) (held : ℕ → Option ℕ) : Prop where
  sound : Sound (s.stale sb) s.blocks
  dirty : ∀ b, s.dirty b = true → ∃ t p d, s.blocks.hold t p = some (b, d)
  /-- outside a commit the recorded blocks are pinned -/
  pins : s.log.committing = false → ∀ b ∈ s.log.header.entries, ∃ p ∈ s.blocks.cache.head,
    (s.blocks.cache.mem p).blockNo = b ∧ (s.blocks.cache.mem p).pinned = true
  held : ∀ b t, held b = some t ↔ ∃ p, s.Has t p b ∧ p ∉ (s.pc t).busy
  asks : ∀ t p b, (s.blocks.pc t).call = some (p, b) →
    (s.pc t).Asks sb s.log.header b ∧ p = s.bp t
  keeps : ∀ t, s.Keeps sb t (s.pc t)

end LogCache

/-- `LogSys` takes a timely step, or none. -/
def LogSys.Follows (sb : SuperBlock) (S S' : LogSys) : Prop :=
  S' = S ∨ ∃ i, OsLab.Timely sb S i ∧ S.step sb i = some S'

theorem LogSys.Follows.inv {sb : SuperBlock} {S S' : LogSys} (h : S.Follows sb S') (hP : Proto S)
    (hD : Durable sb S) : Proto S' ∧ Durable sb S' := by
  rcases h with rfl | ⟨i, hok, hs⟩
  · exact ⟨hP, hD⟩
  · exact ⟨hP.step hs, hD.step hP hok hs⟩

namespace CachePc

variable {sb : SuperBlock} {S : LogSys} {h : LogHeader} {q : CachePc} {u b : ℕ}

theorem Asks.busy (hq : q.Asks sb h b) : q.busy = [] := by
  cases q with
  | commit q => cases q <;> first | rfl | cases hq
  | _ => rfl

/-- Nobody asks for the header block. -/
theorem Asks.ne_logStart (hq : q.Asks sb h b) (hclient : ∀ c ∈ h.entries, sb.Client c)
    (h0 : 0 < sb.numLogBlocks) : b ≠ sb.logStart := by
  have hne : sb.Client b → b ≠ sb.logStart := fun hb => Sim.client_ne hb h0
  cases q with
  | commit q =>
      cases q with
      | second k tail =>
          rw [hq.2]
          exact sb.logBlock_ne_logStart tail
      | copy k tail lp => exact hne (hq.2 ▸ hclient _ (LogHeader.blockNo_mem hq.1))
      | _ => cases hq
  | out | inOp | returned => exact hne hq
  | _ => cases hq

/-- **The return of `cache_acquire`** is the step of `LogSys` that takes the block. -/
theorem Asks.take (hq : q.Asks sb S.log.header b) (hpc : S.pc u = q.abs true)
    (hfree : S.held b = none) : S.Follows sb
      (LogSys.goto { S with held := Function.update S.held b (some u) } u (q.abs false)) := by
  right
  have hsame : q.abs false = q.abs true →
      LogSys.goto { S with held := Function.update S.held b (some u) } u (q.abs false) =
        { S with held := Function.update S.held b (some u) } := by
    intro habs
    rw [habs, ← hpc, LogSys.goto, Function.update_eq_self]
  cases q with
  | out | inOp | returned =>
      refine ⟨(u, .acquire b), trivial, ?_⟩
      have hclient : (S.pc u = .out ∨ S.pc u = .inOp ∨ S.pc u = .returned) ∧
          ¬ sb.InLog b ∧ b < 2 ^ 64 := ⟨by simp [hpc, CachePc.abs], hq.1, hq.2⟩
      rw [hsame rfl]
      simp only [LogSys.step, if_pos hclient, LogSys.take, hfree, if_true]
  | commit q =>
      cases q with
      | second k tail =>
          obtain ⟨hlt, rfl⟩ := hq
          refine ⟨(u, .run), fun hw => absurd (hpc.symm.trans hw) (by simp [CachePc.abs]), ?_⟩
          cases k <;> simp [LogSys.step, LogSys.runStep, hpc, CachePc.abs, CommitPc.abs,
            Pass.first, Pass.second, LogSys.commitStep, hlt, LogSys.take, hfree]
      | copy k tail lp =>
          obtain ⟨hlt, rfl⟩ := hq
          refine ⟨(u, .run), fun hw => absurd (hpc.symm.trans hw) (by simp [CachePc.abs]), ?_⟩
          cases k <;> simp [LogSys.step, LogSys.runStep, hpc, CachePc.abs, CommitPc.abs,
            Pass.copy, Pass.second, LogSys.commitStep, LogSys.take, hfree]
      | _ => cases hq
  | _ => cases hq

end CachePc

namespace LogCache

variable {sb : SuperBlock} {s s' : LogCache} {held : ℕ → Option ℕ} {recorded : ℕ → ℕ}
  {t u p b : ℕ} {q : CachePc} {blocks : AcqSys} {bp : ℕ → ℕ}

@[simp] theorem goto_pc_self (s : LogCache) (t : ℕ) (q : CachePc) : (s.goto t q).pc t = q := by
  simp [goto]

theorem goto_pc_of_ne (s : LogCache) (q : CachePc) {t u : ℕ} (h : u ≠ t) :
    (s.goto t q).pc u = s.pc u := by
  simp [goto, h]

theorem abs_goto (s : LogCache) (held : ℕ → Option ℕ) (recorded : ℕ → ℕ) (t : ℕ) (q : CachePc) :
    (s.goto t q).abs held recorded =
      (s.abs held recorded).goto t (q.abs (s.blocks.pc t).call.isSome) := by
  simp only [abs, goto, LogSys.goto, LogSys.mk.injEq, true_and, and_true]
  refine ⟨rfl, ?_, rfl⟩
  funext v
  by_cases hv : v = t
  · simp [hv]
  · simp [hv]

/-- A state of `LogSys`, field by field. -/
theorem eq_abs {S : LogSys} (hlog : S.log = s.log)
    (hsem : S.s1 = s.s1 ∧ S.s2 = s.s2 ∧ S.s3 = s.s3) (hctxs : S.ctxs = s.ctxs)
    (hpc : S.pc = fun t => (s.pc t).abs (s.blocks.pc t).call.isSome) (hheld : S.held = held)
    (hdirty : S.dirty = s.dirty) (hview : S.view = s.blocks.cur) (hdisk : S.disk = s.disk)
    (hcount : S.started = s.started ∧ S.finished = s.finished ∧ S.began = s.began ∧
      S.commitNo = s.commitNo)
    (hghost : S.synced = s.synced ∧ S.recorded = recorded ∧ S.hist = s.hist ∧ S.inst = s.inst) :
    S = s.abs held recorded := by
  obtain ⟨_, _, _, _, _, _, _, _, _, _, _, _, _, _, _, _, _, _⟩ := S
  simp only at hlog hsem hctxs hpc hheld hdirty hview hdisk hcount hghost
  obtain ⟨rfl, rfl, rfl⟩ := hsem
  obtain ⟨rfl, rfl, rfl, rfl⟩ := hcount
  obtain ⟨rfl, rfl, rfl, rfl⟩ := hghost
  subst hlog hctxs hpc hheld hdirty hview hdisk
  rfl

namespace Shows

/-- A number that a thread may ask for is not stale, or somebody holds its block. -/
theorem loadable (h : s.Shows sb held) (hclient : ∀ c ∈ s.log.header.entries, sb.Client c)
    (hq : q.Asks sb s.log.header b) : s.blocks.Loadable (s.stale sb) b := by
  intro hstale
  apply h.dirty
  simp only [stale, Bool.or_eq_true, decide_eq_true_eq] at hstale
  rcases hstale with hd | ⟨hb, h0⟩
  · exact hd
  · exact absurd hb (hq.ne_logStart hclient h0)

/-- What a committer keeps depends on the header and on its own part of the cache. -/
theorem keeps_congr (s s' : LogCache) (hheader : s'.log.header = s.log.header)
    (hhold : s'.blocks.hold t = s.blocks.hold t)
    (hcall : (s'.blocks.pc t).call = (s.blocks.pc t).call) (hbp : s'.bp t = s.bp t)
    (hdirty : s'.dirty = s.dirty) : s'.Keeps sb t q ↔ s.Keeps sb t q := by
  cases q with
  | commit q => cases q <;> simp only [Keeps, HasClean, Has, hheader, hhold, hcall, hbp, hdirty]
  | _ => rfl

/-- The recorded blocks stay pinned in a step of a call. -/
theorem pins_of_frame (h : s.Shows sb held) (hf : AcqSys.Frame s.blocks s'.blocks)
    (hidle : s'.log.committing = false) : ∀ b ∈ s'.log.header.entries,
      ∃ p ∈ s'.blocks.cache.head, (s'.blocks.cache.mem p).blockNo = b ∧
        (s'.blocks.cache.mem p).pinned = true := by
  have hlog : s'.log = s.log := hf.log
  rw [hlog] at hidle ⊢
  intro b hb
  obtain ⟨p, hp, hno, hpin⟩ := h.pins hidle b hb
  obtain ⟨hp', hno', hpin'⟩ := hf.pinned p hp hpin
  exact ⟨p, hp', hno'.trans hno, hpin'⟩

/-- **A step in which no call returns.**  One thread may enter a call. -/
theorem of_silent (h : s.Shows sb held) (s' : LogCache) (hf : AcqSys.Frame s.blocks s'.blocks)
    (hsound : Sound (s'.stale sb) s'.blocks) (hdirty : s'.dirty = s.dirty)
    (hhold : s'.blocks.hold = s.blocks.hold)
    (hothers : ∀ v, v ≠ t → (s'.blocks.pc v).call = (s.blocks.pc v).call ∧
      s'.pc v = s.pc v ∧ s'.bp v = s.bp v)
    (hbusy : (s'.pc t).busy = (s.pc t).busy)
    (hasks : ∀ p b, (s'.blocks.pc t).call = some (p, b) →
      (s'.pc t).Asks sb s.log.header b ∧ p = s'.bp t)
    (hkeeps : s'.Keeps sb t (s'.pc t)) : s'.Shows sb held := by
  have hlog : s'.log = s.log := hf.log
  constructor
  case sound => exact hsound
  case dirty =>
    rw [hdirty, hhold]
    exact h.dirty
  case pins => exact h.pins_of_frame hf
  case held =>
    intro c v
    have hv : (s'.pc v).busy = (s.pc v).busy := by
      by_cases hv : v = t
      · rw [hv]
        exact hbusy
      · rw [(hothers v hv).2.1]
    simp only [Has, hhold, hv]
    exact h.held c v
  case asks =>
    intro v p c hc
    rw [hlog]
    by_cases hv : v = t
    · subst hv
      exact hasks p c hc
    · rw [(hothers v hv).1] at hc
      rw [(hothers v hv).2.1, (hothers v hv).2.2]
      exact h.asks v p c hc
  case keeps =>
    intro v
    by_cases hv : v = t
    · rw [hv]
      exact hkeeps
    · rw [(hothers v hv).2.1, keeps_congr s s' (by rw [hlog]) (by rw [hhold]) (hothers v hv).1
        (hothers v hv).2.2 hdirty]
      exact h.keeps v

/-- What a return of `cache_acquire` adds to the blocks of the thread. -/
theorem has_returned (hret : AcqSys.Returned s.blocks s'.blocks u p b) {v r c : ℕ} :
    s'.Has v r c ↔ (v = u ∧ r = p ∧ c = b) ∨ s.Has v r c := by
  have hold := hret.hold
  have hfree := hret.free u
  simp only [Has, hold, AcqSys.setHold]
  by_cases hv : v = u
  · subst hv
    by_cases hr : r = p
    · subst hr
      simp [hfree, eq_comm]
    · simp [hr]
  · simp [hv]

/-- **A step in which `cache_acquire` returns** to the thread `u`. -/
theorem of_returned (h : s.Shows sb held) (s' : LogCache) (hf : AcqSys.Frame s.blocks s'.blocks)
    (hret : AcqSys.Returned s.blocks s'.blocks u p b)
    (hsound : Sound (s'.stale sb) s'.blocks) (hdirty : s'.dirty = s.dirty)
    (hothers : ∀ v, v ≠ u → s'.pc v = s.pc v ∧ s'.bp v = s.bp v)
    (hbusy : (s.pc u).busy = []) (hasks : (s'.pc u).Asks sb s.log.header b) (hbp : s'.bp u = p)
    (hlog : ∀ k i lp, s'.pc u = .commit (.copy k i lp) → s.HasClean u lp (sb.logBlock i)) :
    s'.Shows sb (Function.update held b (some u)) := by
  have hl : s'.log = s.log := hf.log
  -- a number that nobody holds is not dirty
  have hb : s'.dirty b = false := by
    rw [hdirty]
    by_contra hd
    obtain ⟨v, r, d, hv⟩ := h.dirty b (by simpa using hd)
    exact hret.unheld v r d hv
  constructor
  case sound => exact hsound
  case dirty =>
    rw [hdirty]
    intro c hc
    obtain ⟨v, r, d, hv⟩ := h.dirty c hc
    obtain ⟨d', hd'⟩ := (has_returned hret).mpr (Or.inr ⟨d, hv⟩)
    exact ⟨v, r, d', hd'⟩
  case pins => exact h.pins_of_frame hf
  case held =>
    intro c v
    have hbusy' : ∀ w, (s'.pc w).busy = (s.pc w).busy := by
      intro w
      by_cases hw : w = u
      · rw [hw, hasks.busy, hbusy]
      · rw [(hothers w hw).1]
    simp only [has_returned hret, hbusy']
    by_cases hc : c = b
    · subst hc
      rw [Function.update_self, Option.some.injEq]
      constructor
      · rintro rfl
        exact ⟨p, Or.inl ⟨rfl, rfl, rfl⟩, by rw [hbusy]; exact List.not_mem_nil⟩
      · rintro ⟨r, ⟨hv, -, -⟩ | ⟨d, hd⟩, -⟩
        · exact hv.symm
        · exact absurd hd (hret.unheld v r d)
    · rw [Function.update_of_ne hc, h.held c v]
      simp [hc]
  case asks =>
    intro v r c hcall
    have hv : v ≠ u := by
      rintro rfl
      rw [hret.call] at hcall
      cases hcall
    rw [hret.others v hv] at hcall
    rw [hl, (hothers v hv).1, (hothers v hv).2]
    exact h.asks v r c hcall
  case keeps =>
    intro v
    by_cases hv : v = u
    · subst hv
      have hhas : s'.HasClean v (s'.bp v) b :=
        ⟨(has_returned hret).mpr (Or.inl ⟨rfl, hbp, rfl⟩), hb⟩
      generalize hq : s'.pc v = q at hasks
      cases q with
      | commit q =>
          cases q with
          | second k i =>
              rw [← hl] at hasks
              exact ⟨hasks.1, fun _ => hasks.2 ▸ hhas⟩
          | copy k i lp =>
              rw [← hl] at hasks
              obtain ⟨hlp, hclean⟩ := hlog k i lp hq
              exact ⟨hasks.1, ⟨(has_returned hret).mpr (Or.inr hlp), hdirty ▸ hclean⟩,
                fun _ => hasks.2 ▸ hhas⟩
          | _ => cases hasks
      | out | inOp | returned => trivial
      | _ => cases hasks
    · rw [(hothers v hv).1, keeps_congr s s' (by rw [hl]) _ (hret.others v hv) (hothers v hv).2 hdirty]
      · exact h.keeps v
      · simp only [hret.hold, AcqSys.setHold, Function.update_of_ne hv]

end Shows

/-! ## Steps inside the calls of the cache -/

/-- The state after a step is what `LogSys` has after its own, or after none. -/
def Matched (sb : SuperBlock) (s : LogCache) (held : ℕ → Option ℕ) (recorded : ℕ → ℕ)
    (s' : LogCache) : Prop :=
  ∃ held' recorded', s'.Shows sb held' ∧
    (s.abs held recorded).Follows sb (s'.abs held' recorded')

/-- The thread `t` goes on at `q`, and the cache and its pointers have changed. -/
def moved (s : LogCache) (t : ℕ) (q : CachePc) (blocks : AcqSys) (bp : ℕ → ℕ) : LogCache :=
  { s.goto t q with blocks := blocks, bp := bp }

theorem moved_pc (s : LogCache) (t : ℕ) (q : CachePc) (blocks : AcqSys) (bp : ℕ → ℕ) (v : ℕ) :
    (s.moved t q blocks bp).pc v = if v = t then q else s.pc v :=
  Function.update_apply _ _ _ _

/-- Where no call returns, `LogSys` stays where it is. -/
theorem abs_silent (hf : AcqSys.Frame s.blocks blocks)
    (hothers : ∀ v, v ≠ t → (blocks.pc v).call = (s.blocks.pc v).call)
    (hq : q.abs (blocks.pc t).call.isSome = (s.pc t).abs (s.blocks.pc t).call.isSome) :
    (s.moved t q blocks bp).abs held recorded = s.abs held recorded := by
  have hpc : (fun v => ((s.moved t q blocks bp).pc v).abs (blocks.pc v).call.isSome) =
      fun v => (s.pc v).abs (s.blocks.pc v).call.isSome := by
    funext v
    rw [moved_pc]
    split
    · rename_i hv
      rw [hv]
      exact hq
    · rename_i hv
      rw [hothers v hv]
  exact (eq_abs (s := s.moved t q blocks bp) (S := s.abs held recorded) hf.log.symm ⟨rfl, rfl, rfl⟩
    rfl hpc.symm rfl rfl hf.cur.symm hf.disk.symm ⟨rfl, rfl, rfl, rfl⟩ ⟨rfl, rfl, rfl, rfl⟩).symm

/-- Where a call returns, `LogSys` has taken the block. -/
theorem abs_returned (hf : AcqSys.Frame s.blocks blocks)
    (hret : AcqSys.Returned s.blocks blocks u p b) :
    (s.moved u q blocks bp).abs (Function.update held b (some u)) recorded =
      LogSys.goto { s.abs held recorded with held := Function.update held b (some u) } u
        (q.abs false) := by
  have hpc : (fun v => ((s.moved u q blocks bp).pc v).abs (blocks.pc v).call.isSome) =
      Function.update (fun v => (s.pc v).abs (s.blocks.pc v).call.isSome) u (q.abs false) := by
    funext v
    rw [moved_pc, Function.update_apply]
    split
    · rename_i hv
      rw [hv, hret.call]
      rfl
    · rename_i hv
      rw [hret.others v hv]
  exact (eq_abs (s := s.moved u q blocks bp) (S := LogSys.goto { s.abs held recorded with
    held := Function.update held b (some u) } u (q.abs false)) hf.log.symm ⟨rfl, rfl, rfl⟩
    rfl hpc.symm rfl rfl hf.cur.symm hf.disk.symm ⟨rfl, rfl, rfl, rfl⟩ ⟨rfl, rfl, rfl, rfl⟩).symm

namespace Shows

/-- A block that `cache_acquire` returns has no owner. -/
theorem held_eq_none (h : s.Shows sb held) (hret : AcqSys.Returned s.blocks blocks u p b) :
    held b = none := by
  cases ho : held b with
  | none => rfl
  | some v =>
      obtain ⟨r, ⟨d, hd⟩, -⟩ := (h.held b v).mp ho
      exact absurd hd (hret.unheld v r d)

/-- A call of `cache_acquire` that returns is matched. -/
theorem matched_returned (h : s.Shows sb held) (hf : AcqSys.Frame s.blocks blocks)
    (hret : AcqSys.Returned s.blocks blocks u p b) (hsound : Sound (s.stale sb) blocks)
    (hbp : bp u = p ∧ ∀ v, v ≠ u → bp v = s.bp v)
    (hq : q.Asks sb s.log.header b) (hbusy : (s.pc u).busy = [])
    (habs : (s.pc u).abs (s.blocks.pc u).call.isSome = q.abs true)
    (hlog : ∀ k i lp, q = .commit (.copy k i lp) → s.HasClean u lp (sb.logBlock i)) :
    s.Matched sb held recorded (s.moved u q blocks bp) := by
  have hpc : (s.moved u q blocks bp).pc u = q := by
    rw [moved_pc, if_pos rfl]
  refine ⟨_, recorded, h.of_returned (s.moved u q blocks bp) hf hret hsound rfl ?_ hbusy ?_
    hbp.1 ?_, ?_⟩
  · intro v hv
    exact ⟨by rw [moved_pc, if_neg hv], hbp.2 v hv⟩
  · rw [hpc]
    exact hq
  · rw [hpc]
    exact hlog
  · rw [abs_returned hf hret]
    exact CachePc.Asks.take hq habs (h.held_eq_none hret)

/-- **A step inside a call** is matched. -/
theorem inCall (h : s.Shows sb held) (hclient : ∀ c ∈ s.log.header.entries, sb.Client c)
    (ho : Orderly s.blocks (t, .run)) (hs : s.blocks.step (t, .run) = some blocks) :
    s.Matched sb held recorded { s with blocks := blocks } := by
  have hsound : Sound (s.stale sb) blocks := by
    refine h.sound.step ?_ ho hs
    rintro c ⟨p, hp⟩
    exact h.loadable hclient (h.asks t p c (by rw [hp]; rfl)).1
  have hmoved : ∀ v, { s with blocks := blocks } = s.moved v (s.pc v) blocks s.bp := by
    intro v
    simp [moved, goto]
  obtain ⟨hf, hsilent | ⟨u, p, b, hcall, hret⟩⟩ := h.sound.run_cases hs
  · refine ⟨held, recorded, h.of_silent (t := t) { s with blocks := blocks } hf hsound rfl hsilent.hold
      (fun v _ => ⟨hsilent.call v, rfl, rfl⟩) rfl ?_ ?_, Or.inl ?_⟩
    · intro p b hc
      exact h.asks t p b ((hsilent.call t).symm.trans hc)
    · refine (keeps_congr s { s with blocks := blocks } ?_ ?_ (hsilent.call t) rfl rfl).mpr
        (h.keeps t)
      · exact congrArg Log.header hf.log
      · exact congrFun hsilent.hold t
    · rw [hmoved t]
      exact abs_silent hf (fun v _ => hsilent.call v) (by rw [hsilent.call t])
  · obtain ⟨hq, hp⟩ := h.asks u p b hcall
    rw [hmoved u]
    refine h.matched_returned hf hret hsound ⟨hp.symm, fun _ _ => rfl⟩ hq hq.busy
      (by rw [hcall]; rfl) ?_
    intro k i lp hpc
    have hkeeps := h.keeps u
    rw [hpc] at hkeeps
    exact hkeeps.2.1

/-- **A call of `cache_acquire`** is matched. -/
theorem acquire (h : s.Shows sb held) (hclient : ∀ c ∈ s.log.header.entries, sb.Client c)
    (ho : Orderly s.blocks (t, .acquire b)) (hq : q.Asks sb s.log.header b)
    (hbusy : (s.pc t).busy = []) (habs : (s.pc t).abs false = q.abs true)
    (hlog : ∀ k i lp, q = .commit (.copy k i lp) → s.HasClean t lp (sb.logBlock i))
    (hs : s.acquire t b q = some s') : s.Matched sb held recorded s' := by
  obtain ⟨blocks, hstep, rfl⟩ := Option.map_eq_some_iff.mp hs
  have hsound : Sound (s.stale sb) blocks := by
    refine h.sound.step ?_ ho hstep
    rintro c rfl
    exact h.loadable hclient hq
  obtain ⟨hcall, hf, hcase⟩ := h.sound.acquire_cases hstep
  obtain ⟨bp, hbp⟩ : ∃ bp, bp = Function.update s.bp t (s.blocks.cache.acquireLocked b).1.ptr :=
    ⟨_, rfl⟩
  have hbpt : bp t = (s.blocks.cache.acquireLocked b).1.ptr := by
    rw [hbp, Function.update_self]
  have hbpv : ∀ v, v ≠ t → bp v = s.bp v := by
    intro v hv
    rw [hbp, Function.update_of_ne hv]
  have hpc : (s.moved t q blocks bp).pc t = q := by
    rw [moved_pc, if_pos rfl]
  have habs' : (s.pc t).abs (s.blocks.pc t).call.isSome = q.abs true := by
    rw [hcall]
    exact habs
  rw [← hbp]
  rcases hcase with ⟨hhold, hin, hothers⟩ | hret
  · refine ⟨held, recorded, h.of_silent (t := t) (s.moved t q blocks bp) hf hsound rfl hhold
      (fun v hv => ⟨hothers v hv, by rw [moved_pc, if_neg hv], hbpv v hv⟩) ?_ ?_ ?_, Or.inl ?_⟩
    · rw [hpc, hbusy, hq.busy]
    · intro p c hc
      have hc' : (blocks.pc t).call = some (p, c) := hc
      rw [hin] at hc'
      cases hc'
      rw [hpc]
      exact ⟨hq, hbpt.symm⟩
    · -- the thread is in the call, so it has nothing new yet
      have hlog' : (s.moved t q blocks bp).log = s.log := hf.log
      have hnot : (blocks.pc t).call ≠ none := by
        rw [hin]
        simp
      rw [hpc]
      cases q with
      | commit q =>
          cases q with
          | second k i =>
              refine ⟨?_, fun hn => absurd hn hnot⟩
              rw [hlog']
              exact hq.1
          | copy k i lp =>
              refine ⟨?_, ?_, fun hn => absurd hn hnot⟩
              · rw [hlog']
                exact hq.1
              · obtain ⟨⟨d, hd⟩, hclean⟩ := hlog k i lp rfl
                exact ⟨⟨d, (congrFun (congrFun hhold t) lp).trans hd⟩, hclean⟩
          | _ => cases hq
      | out | inOp | returned => trivial
      | _ => cases hq
    · exact abs_silent hf hothers (by rw [hin, habs']; rfl)
  · exact h.matched_returned hf hret hsound ⟨hbpt, hbpv⟩ hq hbusy habs' hlog

/-- A held block is released. -/
theorem of_released {held' : ℕ → Option ℕ} (h : s.Shows sb held) (hh : s.HasClean t p b)
    (hs : s.blocks.step (t, .release p) = some blocks)
    (hheld : ∀ c v, held' c = some v ↔
      ∃ r, (s.Has v r c ∧ ¬ (v = t ∧ r = p)) ∧ r ∉ ((s.moved t q blocks s.bp).pc v).busy)
    (hkeeps : (s.moved t q blocks s.bp).Keeps sb t q) :
    (s.moved t q blocks s.bp).Shows sb held' := by
  obtain ⟨hcall, -, hf, hhold, hcalls⟩ := h.sound.release_cases hs
  have hlog : (s.moved t q blocks s.bp).log = s.log := hf.log
  have hhas : ∀ v r c, (s.moved t q blocks s.bp).Has v r c ↔ s.Has v r c ∧ ¬ (v = t ∧ r = p) := by
    intro v r c
    simp only [Has, moved, hhold, AcqSys.setHold]
    by_cases hv : v = t
    · subst hv
      by_cases hr : r = p
      · simp [hr]
      · simp [hr]
    · simp [hv]
  constructor
  case sound =>
    have hload : ∀ c, ¬ s.blocks.Loads (t, .release p) c := fun _ hc => hc
    exact h.sound.step (fun c hc => absurd hc (hload c)) trivial hs
  case dirty =>
    intro c hc
    obtain ⟨v, r, d, hv⟩ := h.dirty c hc
    have hne : ¬ (v = t ∧ r = p) := by
      rintro ⟨rfl, rfl⟩
      obtain ⟨⟨d', hd'⟩, hclean⟩ := hh
      have hcb : c = b := (Prod.mk.inj (Option.some.inj (hv.symm.trans hd'))).1
      have hc' : s.dirty c = true := hc
      rw [hcb, hclean] at hc'
      cases hc'
    obtain ⟨d', hd'⟩ := (hhas v r c).mpr ⟨⟨d, hv⟩, hne⟩
    exact ⟨v, r, d', hd'⟩
  case pins => exact h.pins_of_frame hf
  case held =>
    intro c v
    simp only [hhas]
    exact hheld c v
  case asks =>
    intro v r c hv
    have hv' : (s.blocks.pc v).call = some (r, c) := (hcalls v).symm.trans hv
    have hvt : v ≠ t := by
      rintro rfl
      rw [hcall] at hv'
      cases hv'
    rw [hlog, moved_pc, if_neg hvt]
    exact h.asks v r c hv'
  case keeps =>
    intro v
    rw [moved_pc]
    split
    · rename_i hv
      rw [hv]
      exact hkeeps
    · rename_i hv
      refine (keeps_congr s (s.moved t q blocks s.bp) (by rw [hlog]) ?_ (hcalls v) rfl
        rfl).mpr (h.keeps v)
      simp only [moved, hhold, AcqSys.setHold, Function.update_of_ne hv]

/-- **A client's release** gives up the block in `LogSys`. -/
theorem release_client (h : s.Shows sb held)
    (hpc : s.pc t = .out ∨ s.pc t = .inOp ∨ s.pc t = .returned) (hh : s.HasClean t p b)
    (hs : s.blocks.step (t, .release p) = some blocks) :
    s.Matched sb held recorded (s.moved t (s.pc t) blocks s.bp) := by
  obtain ⟨hcall, -, hf, -, hcalls⟩ := h.sound.release_cases hs
  obtain ⟨⟨d, hd⟩, hclean⟩ := hh
  have hbusy : (s.pc t).busy = [] := by
    rcases hpc with hpc | hpc | hpc <;> rw [hpc] <;> rfl
  have hbusy' : ∀ v, ((s.moved t (s.pc t) blocks s.bp).pc v).busy = (s.pc v).busy := by
    intro v
    rw [moved_pc]
    split <;> simp [*]
  refine ⟨Function.update held b none, recorded,
    h.of_released ⟨⟨d, hd⟩, hclean⟩ hs ?_ ?_, Or.inr ⟨(t, .release b), trivial, ?_⟩⟩
  · intro c v
    rw [hbusy']
    by_cases hc : c = b
    · subst hc
      simp only [Function.update_self, reduceCtorEq, false_iff]
      rintro ⟨r, ⟨⟨e, he⟩, hne⟩, -⟩
      exact hne (h.sound.hold_unique hd he)
    · rw [Function.update_of_ne hc, h.held c v]
      refine exists_congr fun r => and_congr_left fun _ => (and_iff_left_of_imp ?_).symm
      rintro ⟨e, he⟩ ⟨rfl, rfl⟩
      rw [hd] at he
      cases he
      exact hc rfl
  · rcases hpc with hpc | hpc | hpc <;> rw [hpc] <;> trivial
  · have howner : held b = some t := (h.held b t).mpr ⟨p, ⟨d, hd⟩, by rw [hbusy]; simp⟩
    have hpc' : (s.abs held recorded).pc t = .out ∨ (s.abs held recorded).pc t = .inOp ∨
        (s.abs held recorded).pc t = .returned := by
      rcases hpc with hpc | hpc | hpc <;> simp [abs, hpc, CachePc.abs]
    have habs : (s.moved t (s.pc t) blocks s.bp).abs (Function.update held b none) recorded =
        s.abs (Function.update held b none) recorded :=
      abs_silent hf (fun v _ => hcalls v) (by rw [hcalls t])
    rw [habs]
    simp only [LogSys.step]
    rw [if_pos ⟨hpc', howner, hclean⟩]
    rfl

/-- **A committer's release** is no step of `LogSys`, which has freed the block before. -/
theorem release_commit (h : s.Shows sb held) (hh : s.HasClean t p b)
    (hs : s.blocks.step (t, .release p) = some blocks) (habs : ∀ c, q.abs c = (s.pc t).abs c)
    (hbusy : ∀ r, s.blocks.hold t r ≠ none → (r ∉ (s.pc t).busy ↔ r ≠ p ∧ r ∉ q.busy))
    (hkeeps : (s.moved t q blocks s.bp).Keeps sb t q) :
    s.Matched sb held recorded (s.moved t q blocks s.bp) := by
  obtain ⟨-, -, hf, -, hcalls⟩ := h.sound.release_cases hs
  refine ⟨held, recorded, h.of_released hh hs ?_ hkeeps, Or.inl ?_⟩
  · intro c v
    rw [h.held c v, moved_pc]
    refine exists_congr fun r => ?_
    by_cases hv : v = t
    · subst hv
      simp only [if_pos, true_and]
      constructor
      · rintro ⟨⟨d, hd⟩, hr⟩
        have := (hbusy r (by rw [hd]; simp)).mp hr
        exact ⟨⟨⟨d, hd⟩, this.1⟩, this.2⟩
      · rintro ⟨⟨⟨d, hd⟩, hne⟩, hr⟩
        exact ⟨⟨d, hd⟩, (hbusy r (by rw [hd]; simp)).mpr ⟨hne, hr⟩⟩
    · simp [hv]
  · exact abs_silent hf (fun v _ => hcalls v) (by rw [habs, hcalls t])

end Shows

end LogCache

end OsLab
