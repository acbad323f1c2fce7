import OsLab.Fs.LogCacheSim

/-!
# The steps of the log over the shared cache

The rest of the simulation of `LogCache` in `LogSys`: the steps of an operation, of a
commit, and the waits and posts around them.  In a commit, the device write of a
round is the step of `LogSys` that copies and frees both blocks; what the code still
does with them (unpinning, and two releases) is no step there.

## Main definitions

* `LogCache.commit_matched` — the steps of a commit.
* `LogCache.step_matched` — every step of `LogCache` is matched.
-/

namespace OsLab

namespace LogCache

variable {sb : SuperBlock} {s s' : LogCache} {held : ℕ → Option ℕ} {recorded : ℕ → ℕ}
  {t u p b : ℕ} {q : CachePc} {blocks : AcqSys} {bp : ℕ → ℕ}

/-! ## Steps of an operation -/

namespace Shows

/-- The blocks are the same, and threads have moved. -/
theorem of_pc {l : Log} (h : s.Shows sb held) (hblocks : s'.blocks = s.blocks.setLog l)
    (hbp : s'.bp = s.bp) (hdirty : s'.dirty = s.dirty)
    (hpins : l.committing = false → ∀ b ∈ l.header.entries, ∃ p ∈ s.blocks.cache.head,
      (s.blocks.cache.mem p).blockNo = b ∧ (s.blocks.cache.mem p).pinned = true)
    (hpc : ∀ v, (s'.pc v = s.pc v ∧ (l.header = s.log.header ∨ ∀ q, s.pc v ≠ .commit q)) ∨
      ((s.blocks.pc v).call = none ∧ (s'.pc v).busy = (s.pc v).busy ∧
        s'.Keeps sb v (s'.pc v))) : s'.Shows sb held := by
  have hlog : s'.log = l := by
    rw [log, hblocks]
    rfl
  have hhold : s'.blocks.hold = s.blocks.hold := by
    rw [hblocks]
    rfl
  have hcalls : s'.blocks.pc = s.blocks.pc := by
    rw [hblocks]
    rfl
  constructor
  case sound =>
    have hstale : s'.stale sb = s.stale sb := by
      funext c
      simp only [stale, hdirty]
    rw [hstale, hblocks]
    exact h.sound.setLog l
  case dirty =>
    rw [hdirty, hhold]
    exact h.dirty
  case pins =>
    rw [hlog, hblocks]
    exact hpins
  case held =>
    intro c v
    have hbusy : (s'.pc v).busy = (s.pc v).busy := by
      rcases hpc v with ⟨hv, -⟩ | ⟨-, hv, -⟩
      · rw [hv]
      · exact hv
    simp only [Has, hhold, hbusy]
    exact h.held c v
  case asks =>
    intro v p c hc
    rw [hcalls] at hc
    rw [hlog, hbp]
    rcases hpc v with ⟨hv, hsame⟩ | ⟨hv, -⟩
    · obtain ⟨hasks, hp⟩ := h.asks v p c hc
      rw [hv]
      refine ⟨?_, hp⟩
      rcases hsame with hsame | hsame
      · rw [hsame]
        exact hasks
      · cases hq : s.pc v <;> rw [hq] at hasks <;>
          first
            | exact hasks
            | exact absurd hq (hsame _)
    · rw [hv] at hc
      cases hc
  case keeps =>
    intro v
    rcases hpc v with ⟨hv, hsame⟩ | ⟨-, -, hv⟩
    · rw [hv]
      rcases hsame with hsame | hsame
      · refine (keeps_congr s s' ?_ (by rw [hhold]) (by rw [hcalls]) (by rw [hbp]) hdirty).mpr (h.keeps v)
        rw [hlog, hsame]
      · cases hq : s.pc v <;>
          first
            | trivial
            | exact absurd hq (hsame _)
    · exact hv

/-- **One thread moves** to a point where it keeps nothing more. -/
theorem goto (h : s.Shows sb held) (hcall : (s.blocks.pc t).call = none)
    (hbusy : q.busy = (s.pc t).busy) (hkeeps : s.Keeps sb t q) : (s.goto t q).Shows sb held := by
  refine h.of_pc (l := s.log) rfl rfl rfl h.pins fun v => ?_
  by_cases hv : v = t
  · subst hv
    refine Or.inr ⟨hcall, ?_, ?_⟩ <;> rw [goto_pc_self]
    · exact hbusy
    · exact hkeeps
  · exact Or.inl ⟨goto_pc_of_ne _ _ hv, Or.inl rfl⟩

/-- **A holder changes its block in place.** -/
theorem modify {d e : Sector} (h : s.Shows sb held) (hno : ∀ v q, s.pc v ≠ .commit q)
    (hh : s.blocks.hold t p = some (b, e)) : (s.modify t p b d).Shows sb held := by
  have hhas : ∀ v r c, (s.modify t p b d).Has v r c ↔ s.Has v r c := by
    intro v r c
    simp only [Has, LogCache.modify, AcqSys.change, AcqSys.setHold]
    by_cases hv : v = t
    · subst hv
      by_cases hr : r = p
      · subst hr
        simp [hh]
      · simp [hr]
    · simp [hv]
  constructor
  case sound =>
    refine h.sound.change hh d ?_
    intro c hc
    simp only [stale, LogCache.modify, Bool.or_eq_false_iff] at hc ⊢
    have hcb : c ≠ b := by
      rintro rfl
      simp at hc
    rw [Function.update_of_ne hcb] at hc
    exact ⟨hcb, hc⟩
  case dirty =>
    intro c hc
    by_cases hcb : c = b
    · obtain ⟨d', hd'⟩ := (hhas t p b).mpr ⟨e, hh⟩
      exact ⟨t, p, d', hcb ▸ hd'⟩
    · have hc' : s.dirty c = true := by
        simpa [LogCache.modify, hcb] using hc
      obtain ⟨v, r, d', hv⟩ := h.dirty c hc'
      obtain ⟨d'', hd''⟩ := (hhas v r c).mpr ⟨d', hv⟩
      exact ⟨v, r, d'', hd''⟩
  case pins =>
    intro hidle c hc
    obtain ⟨r, hr, hno, hpin⟩ := h.pins hidle c hc
    refine ⟨r, hr, ?_⟩
    by_cases hrp : r = p
    · subst hrp
      have hself : (s.modify t r b d).blocks.cache.mem r =
          { s.blocks.cache.mem r with data := d } := Bcache.set_mem_self _ _ _
      rw [hself]
      exact ⟨hno, hpin⟩
    · have hother : (s.modify t p b d).blocks.cache.mem r = s.blocks.cache.mem r :=
        Bcache.set_mem_of_ne _ _ hrp
      rw [hother]
      exact ⟨hno, hpin⟩
  case held =>
    intro c v
    simp only [hhas]
    exact h.held c v
  case asks => exact h.asks
  case keeps =>
    intro v
    have hv : (s.modify t p b d).pc v = s.pc v := rfl
    rw [hv]
    cases hq : s.pc v <;>
      first
        | trivial
        | exact absurd hq (hno v _)

/-- A number other than the one synced is as stale as before. -/
theorem stale_of_sync {c : ℕ} (hdirty : s'.dirty = Function.update s.dirty b false) (hc : c ≠ b) :
    s'.stale sb c = s.stale sb c := by
  simp only [stale, hdirty, Function.update_of_ne hc]

/-- The number just synced is recorded: its block is pinned, now or since it was recorded. -/
theorem sound_sync {e : Sector} (h : s.Shows sb held) (hh : s.blocks.hold t p = some (b, e))
    {new : Bool} {l : Log} (hidle : s.log.committing = false)
    (hnew : new = true ↔ b ∉ s.log.header.entries)
    (hblocks : s'.blocks = if new then (s.blocks.setLog l).pin p true else s.blocks.setLog l)
    (hdirty : s'.dirty = Function.update s.dirty b false) : Sound (s'.stale sb) s'.blocks := by
  have hp : p ∈ s.blocks.cache.head := h.sound.mem_of_hold (t := t) (by rw [hh]; simp)
  have hno := (h.sound.data_eq hh).1
  cases new with
  | true =>
      rw [if_pos rfl] at hblocks
      rw [hblocks]
      refine (h.sound.setLog l).pin (t := t) (by rw [AcqSys.setLog, hh]; simp) true ?_
      intro c hc hpin
      have hself : (((s.blocks.setLog l).pin p true).cache.mem p).pinned = true := by
        simp [AcqSys.pin, Bcache.setPinned]
      have hcb : c ≠ b := by
        rintro rfl
        have := hpin p hp hno
        rw [hself] at this
        cases this
      rw [stale_of_sync hdirty hcb] at hc
      apply h.sound.clean c hc
      intro q hq hqc
      have hqp : q ≠ p := by
        rintro rfl
        exact hcb (hqc.symm.trans hno)
      have hother : ((s.blocks.setLog l).pin p true).cache.mem q = s.blocks.cache.mem q :=
        Bcache.set_mem_of_ne _ _ hqp
      have := hpin q hq hqc
      rwa [hother] at this
  | false =>
      rw [if_neg Bool.false_ne_true] at hblocks
      rw [hblocks]
      have hmem : b ∈ s.log.header.entries := by
        by_contra hb
        exact Bool.false_ne_true (hnew.mpr hb)
      refine { h.sound.setLog l with clean := ?_ }
      intro c hc hpin
      by_cases hcb : c = b
      · obtain ⟨q, hq, hqb, hqpin⟩ := h.pins hidle b hmem
        have := hpin q hq (hqb.trans hcb.symm)
        have hpinned : (s.blocks.cache.mem q).pinned = false := this
        rw [hqpin] at hpinned
        cases hpinned
      · rw [stale_of_sync hdirty hcb] at hc
        exact h.sound.clean c hc hpin

/-- **`cache_sync`** pins a block that it records. -/
theorem sync {e : Sector} (h : s.Shows sb held) (hno : ∀ v q, s.pc v ≠ .commit q)
    (hh : s.blocks.hold t p = some (b, e)) {new : Bool} {l : Log}
    (hidle : s.log.committing = false)
    (hent : ∀ c, c ∈ l.header.entries → c ∈ s.log.header.entries ∨ c = b)
    (hnew : new = true ↔ b ∉ s.log.header.entries)
    (hblocks : s'.blocks = if new then (s.blocks.setLog l).pin p true else s.blocks.setLog l)
    (hbp : s'.bp = s.bp) (hpc : s'.pc = s.pc)
    (hdirty : s'.dirty = Function.update s.dirty b false) : s'.Shows sb held := by
  have hp : p ∈ s.blocks.cache.head := h.sound.mem_of_hold (t := t) (by rw [hh]; simp)
  have hsame : s'.blocks.hold = s.blocks.hold ∧ s'.blocks.pc = s.blocks.pc ∧
      s'.blocks.cache.head = s.blocks.cache.head ∧
      (∀ q, (s'.blocks.cache.mem q).blockNo = (s.blocks.cache.mem q).blockNo) ∧
      (∀ q, (s'.blocks.cache.mem q).pinned = (new && decide (q = p) || (s.blocks.cache.mem q).pinned)) ∧
      s'.log = l := by
    rw [log, hblocks]
    cases new with
    | false => exact ⟨rfl, rfl, rfl, fun _ => rfl, fun _ => rfl, rfl⟩
    | true =>
        refine ⟨rfl, rfl, rfl, ?_, ?_, rfl⟩
        all_goals
          intro q
          by_cases hq : q = p
          · simp [AcqSys.pin, Bcache.setPinned, hq, AcqSys.setLog]
          · simp [AcqSys.pin, Bcache.setPinned, hq, AcqSys.setLog, Bcache.set_mem_of_ne]
  obtain ⟨hhold, hcalls, hhead, hnos, hpinned, hlog⟩ := hsame
  constructor
  case sound => exact h.sound_sync hh hidle hnew hblocks hdirty
  case dirty =>
    intro c hc
    have hcb : c ≠ b := by
      rintro rfl
      rw [hdirty, Function.update_self] at hc
      cases hc
    rw [hdirty, Function.update_of_ne hcb] at hc
    rw [hhold]
    exact h.dirty c hc
  case pins =>
    intro _ c hc
    rw [hlog] at hc
    simp only [hhead, hnos, hpinned]
    by_cases hcs : c ∈ s.log.header.entries
    · obtain ⟨q, hq, hqc, hqpin⟩ := h.pins hidle c hcs
      exact ⟨q, hq, hqc, by rw [hqpin, Bool.or_true]⟩
    · -- the number has just been recorded
      have hcb : c = b := (hent c hc).resolve_left hcs
      have hn : new = true := hnew.mpr (hcb ▸ hcs)
      exact ⟨p, hp, (h.sound.data_eq hh).1.trans hcb.symm, by simp [hn]⟩
  case held =>
    intro c v
    simp only [Has, hhold, hpc]
    exact h.held c v
  case asks =>
    intro v q c hc
    rw [hcalls] at hc
    rw [hbp, hpc]
    obtain ⟨hasks, hq⟩ := h.asks v q c hc
    refine ⟨?_, hq⟩
    cases hv : s.pc v <;> rw [hv] at hasks <;>
      first
        | exact hasks
        | exact absurd hv (hno v _)
  case keeps =>
    intro v
    rw [hpc]
    cases hv : s.pc v <;>
      first
        | trivial
        | exact absurd hv (hno v _)

end Shows

/-! ## Steps of a commit -/

namespace Shows

variable {k : Pass} {i lp rp : ℕ}

/-- A round writes into a block that the committer holds. -/
theorem target (k : Pass) {P : ℕ → ℕ → Prop} (hl : P lp (sb.logBlock i))
    (hr : P rp (s.log.header.blockNo i)) : P (k.to lp rp) (k.target sb s.log.header i) := by
  cases k with
  | writeLog => exact hl
  | installTrans => exact hr

/-- **The device write of a round.** -/
theorem write (h : s.Shows sb held) (hcall : (s.blocks.pc t).call = none)
    (hbusy : (s.pc t).busy = []) (hcom : s.log.committing = true)
    (hne : sb.logBlock i ≠ s.log.header.blockNo i) (hl : s.HasClean t lp (sb.logBlock i))
    (hr : s.HasClean t rp (s.log.header.blockNo i)) :
    (s.write sb t i lp rp k).Shows sb (Function.update (Function.update held (sb.logBlock i) none)
      (s.log.header.blockNo i) none) := by
  have hlr : lp ≠ rp := by
    rintro rfl
    exact hne (hl.1.inj hr.1)
  obtain ⟨⟨e, he⟩, -⟩ := target k (P := s.HasClean t) hl hr
  have hhas : ∀ v r c, (s.write sb t i lp rp k).Has v r c ↔ s.Has v r c := by
    intro v r c
    simp only [Has, LogCache.write, AcqSys.put, AcqSys.setHold]
    by_cases hv : v = t
    · subst hv
      by_cases hr : r = k.to lp rp
      · rw [hr, he]
        simp
      · simp [hr]
    · simp [hv]
  have hhold : ∀ v, v ≠ t → (s.write sb t i lp rp k).blocks.hold v = s.blocks.hold v :=
    fun v hv => Function.update_of_ne hv _ _
  have hpc : ∀ v, (s.write sb t i lp rp k).pc v =
      if v = t then .commit (k.written i lp rp) else s.pc v := fun v => Function.update_apply _ _ _ _
  constructor
  case sound => exact h.sound.put he _ .null
  case dirty =>
    intro c hc
    obtain ⟨v, r, d, hv⟩ := h.dirty c hc
    obtain ⟨d', hd'⟩ := (hhas v r c).mpr ⟨d, hv⟩
    exact ⟨v, r, d', hd'⟩
  case pins =>
    intro hidle
    have hidle' : s.log.committing = false := hidle
    rw [hcom] at hidle'
    cases hidle'
  case held =>
    intro c v
    have hmine : c = sb.logBlock i ∨ c = s.log.header.blockNo i →
        ∀ v r, s.Has v r c → v = t ∧ (r = lp ∨ r = rp) := by
      rintro (rfl | rfl) v r ⟨d, hd⟩
      · obtain ⟨⟨d', hd'⟩, -⟩ := hl
        obtain ⟨hv, hr⟩ := h.sound.hold_unique hd' hd
        exact ⟨hv, Or.inl hr⟩
      · obtain ⟨⟨d', hd'⟩, -⟩ := hr
        obtain ⟨hv, hr⟩ := h.sound.hold_unique hd' hd
        exact ⟨hv, Or.inr hr⟩
    have hwritten : (CachePc.commit (k.written i lp rp)).busy = [lp, rp] := by
      cases k <;> rfl
    simp only [hhas, hpc]
    by_cases hc : c = sb.logBlock i ∨ c = s.log.header.blockNo i
    · have hnone : Function.update (Function.update held (sb.logBlock i) none)
          (s.log.header.blockNo i) none c = none := by
        rcases hc with rfl | rfl
        · rw [Function.update_of_ne hne, Function.update_self]
        · rw [Function.update_self]
      rw [hnone]
      simp only [reduceCtorEq, false_iff]
      rintro ⟨r, hv, hr⟩
      obtain ⟨rfl, hr'⟩ := hmine hc v r hv
      rw [if_pos rfl, hwritten] at hr
      exact hr (by simpa using hr')
    · obtain ⟨hc₁, hc₂⟩ := not_or.mp hc
      rw [Function.update_of_ne hc₂, Function.update_of_ne hc₁, h.held c v]
      refine exists_congr fun r => and_congr_right fun hv => ?_
      split
      · rename_i hvt
        subst hvt
        rw [hbusy, hwritten]
        simp only [List.not_mem_nil, not_false_eq_true, true_iff, List.mem_cons, or_false]
        rintro (rfl | rfl)
        · exact hc₁ (hv.inj hl.1)
        · exact hc₂ (hv.inj hr.1)
      · rfl
  case asks =>
    intro v r c hc
    have hv : v ≠ t := by
      rintro rfl
      have hc' : (s.blocks.pc v).call = some (r, c) := hc
      rw [hcall] at hc'
      cases hc'
    rw [hpc, if_neg hv]
    exact h.asks v r c hc
  case keeps =>
    intro v
    rw [hpc]
    split
    · rename_i hv
      subst hv
      have hl' : (s.write sb v i lp rp k).HasClean v lp (sb.logBlock i) :=
        ⟨(hhas v lp _).mpr hl.1, hl.2⟩
      have hr' : (s.write sb v i lp rp k).HasClean v rp (s.log.header.blockNo i) :=
        ⟨(hhas v rp _).mpr hr.1, hr.2⟩
      cases k with
      | writeLog => exact ⟨⟨_, hr'⟩, ⟨_, hl'⟩, hlr⟩
      | installTrans => exact ⟨hl', hr', hlr⟩
    · rename_i hv
      exact (keeps_congr s (s.write sb t i lp rp k) rfl (hhold v hv) rfl rfl rfl).mpr
        (h.keeps v)

/-- A recorded block that has been installed may leave the cache. -/
theorem unpin (h : s.Shows sb held) (hcall : (s.blocks.pc t).call = none)
    (hpc : s.pc t = .commit (.unpin i lp rp)) (hcom : s.log.committing = true)
    (hdisk : s.blocks.cur (s.log.header.blockNo i) = s.disk (s.log.header.blockNo i)) :
    (s.moved t (.commit (.freeFrom .installTrans i lp rp)) (s.blocks.pin rp false) s.bp).Shows sb
      held := by
  have hkeeps := h.keeps t
  rw [hpc] at hkeeps
  obtain ⟨hl, hr, hlr⟩ := hkeeps
  obtain ⟨⟨e, he⟩, -⟩ := id hr
  have hno := (h.sound.data_eq he).1
  have hbusy : ∀ v, ((s.moved t (.commit (.freeFrom .installTrans i lp rp))
      (s.blocks.pin rp false) s.bp).pc v).busy = (s.pc v).busy := by
    intro v
    rw [moved_pc]
    split
    · rename_i hv
      rw [hv, hpc]
      rfl
    · rfl
  constructor
  case sound =>
    refine h.sound.pin (t := t) (by rw [he]; simp) false ?_
    intro c hc hpin
    by_cases hcb : c = s.log.header.blockNo i
    · rw [hcb]
      exact hdisk
    · apply h.sound.clean c hc
      intro q hq hqc
      have hqp : q ≠ rp := by
        rintro rfl
        exact hcb (hqc.symm.trans hno)
      have hother : (s.blocks.pin rp false).cache.mem q = s.blocks.cache.mem q :=
        Bcache.set_mem_of_ne _ _ hqp
      have := hpin q hq hqc
      rwa [hother] at this
  case dirty => exact h.dirty
  case pins =>
    intro hidle
    have hidle' : s.log.committing = false := hidle
    rw [hcom] at hidle'
    cases hidle'
  case held =>
    intro c v
    rw [hbusy]
    exact h.held c v
  case asks =>
    intro v r c hc
    have hv : v ≠ t := by
      rintro rfl
      have hc' : (s.blocks.pc v).call = some (r, c) := hc
      rw [hcall] at hc'
      cases hc'
    rw [moved_pc, if_neg hv]
    exact h.asks v r c hc
  case keeps =>
    intro v
    rw [moved_pc]
    split
    · rename_i hv
      rw [hv]
      exact ⟨⟨_, hl⟩, ⟨_, hr⟩, hlr⟩
    · exact h.keeps v

/-- The header is written. -/
theorem writeHeader (h : s.Shows sb held) (hcall : (s.blocks.pc t).call = none)
    (h0 : 0 < sb.numLogBlocks) (hbusy : q.busy = (s.pc t).busy)
    (hkeeps : s.Keeps sb t q) :
    (s.moved t q (s.blocks.writeHeader sb) s.bp).Shows sb held := by
  have hgoto := h.goto hcall hbusy hkeeps
  refine { hgoto with sound := h.sound.writeHeader ?_ }
  simp [stale, h0]

end Shows

section Commit

variable {c : CommitPc}

/-- A step of `LogSys` in the same commit. -/
theorem matched_commit {held' : ℕ → Option ℕ} (recorded' : ℕ → ℕ)
    (hcall : (s.blocks.pc t).call = none) (hpc : s.pc t = .commit c) (hS : s'.Shows sb held')
    (hstep : (s.abs held recorded).commitStep sb t (c.abs false) =
      some (s'.abs held' recorded')) : s.Matched sb held recorded s' := by
  have hpc' : (s.abs held recorded).pc t = .commit (c.abs false) := by
    simp only [abs, hpc, hcall]
    rfl
  refine ⟨held', recorded', hS, Or.inr ⟨(t, .run), ?_, ?_⟩⟩
  · intro hw
    rw [hpc'] at hw
    cases hw
  · simp only [LogSys.step, LogSys.runStep, hpc']
    exact hstep

/-- The program counters after one thread has moved. -/
theorem abs_update (s : LogCache) (t : ℕ) (q : CachePc) :
    (fun v => (Function.update s.pc t q v).abs (s.blocks.pc v).call.isSome) =
      Function.update (fun v => (s.pc v).abs (s.blocks.pc v).call.isSome) t
        (q.abs (s.blocks.pc t).call.isSome) := by
  funext v
  by_cases hv : v = t
  · simp [hv]
  · simp [hv]

/-- The write of a round is the copy of `LogSys`, which frees both blocks. -/
theorem write_matched {k : Pass} {i lp : ℕ} (h : s.Shows sb held)
    (hD : Durable sb (s.abs held recorded)) (hcall : (s.blocks.pc t).call = none)
    (hpc : s.pc t = .commit (.copy k i lp)) (hcom : s.log.committing = true)
    (hroom : s.log.header.numBlocks < sb.numLogBlocks) :
    s.Matched sb held recorded (s.write sb t i lp (s.bp t) k) := by
  have hkeeps := h.keeps t
  rw [hpc] at hkeeps
  obtain ⟨hi, hl, hr⟩ := hkeeps
  replace hr := hr hcall
  have hne : sb.logBlock i ≠ s.log.header.blockNo i :=
    (Durable.client_ne_logBlock (s := s.abs held recorded) hroom hi
      (hD.client _ (LogHeader.blockNo_mem hi))).symm
  have hS := h.write (k := k) hcall (by rw [hpc]; rfl) hcom hne hl hr
  obtain ⟨⟨dl, hdl⟩, -⟩ := hl
  obtain ⟨⟨dr, hdr⟩, -⟩ := hr
  obtain ⟨hnol, hdatal⟩ := h.sound.data_eq hdl
  obtain ⟨hnor, hdatar⟩ := h.sound.data_eq hdr
  -- what is written is the content of the other block
  have hput : ∀ p b d, (s.blocks.cache.mem p).blockNo = b →
      ((s.blocks.put t p b d .null).cache.disk) = Function.update s.disk b d := by
    intro p b d hno
    simp [AcqSys.put, Bcache.setData, Bcache.deviceWrite, Bcache.devWrite, disk, hno]
  have hdisk : (s.write sb t i lp (s.bp t) k).disk = Function.update s.disk
      (k.target sb s.log.header i) (s.blocks.cache.mem (k.src lp (s.bp t))).data := by
    refine hput _ _ _ ?_
    cases k with
    | writeLog => exact hnol
    | installTrans => exact hnor
  refine matched_commit recorded hcall hpc hS ?_
  have hpcs := abs_update s t (.commit (k.written i lp (s.bp t)))
  cases k with
  | writeLog =>
      refine congrArg some ?_
      rw [Pass.src, hdatar] at hdisk
      refine eq_abs rfl ⟨rfl, rfl, rfl⟩ rfl hpcs.symm rfl rfl ?_ hdisk.symm ⟨rfl, rfl, rfl, rfl⟩
        ⟨rfl, rfl, rfl, rfl⟩
      simp only [LogCache.write, AcqSys.put, Pass.src, hdatar]
      rfl
  | installTrans =>
      refine congrArg some ?_
      rw [Pass.src, hdatal] at hdisk
      refine eq_abs rfl ⟨rfl, rfl, rfl⟩ rfl hpcs.symm ?_ rfl ?_ hdisk.symm ⟨rfl, rfl, rfl, rfl⟩
        ⟨rfl, rfl, rfl, ?_⟩
      · exact Function.update_comm hne.symm none none held
      · simp only [LogCache.write, AcqSys.put, Pass.src, hdatal]
        rfl
      · simp only [LogCache.write, hnor]
        rfl

/-- A step of a commit that only moves the committer. -/
theorem goto_matched {c' : CommitPc} (h : s.Shows sb held) (hcall : (s.blocks.pc t).call = none)
    (hpc : s.pc t = .commit c) (hbusy : (CachePc.commit c').busy = (s.pc t).busy)
    (hkeeps : s.Keeps sb t (.commit c'))
    (hstep : (s.abs held recorded).commitStep sb t (c.abs false) =
      some ((s.abs held recorded).goto t (.commit (c'.abs false)))) :
    s.Matched sb held recorded (s.goto t (.commit c')) := by
  refine matched_commit recorded hcall hpc (h.goto hcall hbusy hkeeps) ?_
  rw [hstep, abs_goto, hcall]
  rfl

/-- A release in a commit leaves the other block held. -/
theorem release_matched {r : ℕ} {c' : CommitPc} (h : s.Shows sb held)
    (hpc : s.pc t = .commit c) (hh : s.HasClean t r b) (hs : s.release t r (.commit c') = some s')
    (habs : ∀ x, c'.abs x = c.abs x)
    (hbusy : ∀ p, s.blocks.hold t p ≠ none →
      (p ∉ (CachePc.commit c).busy ↔ p ≠ r ∧ p ∉ (CachePc.commit c').busy))
    (hkeeps : ∀ blocks : AcqSys, blocks.hold = (s.blocks.setHold t r none).hold →
      (s.moved t (.commit c') blocks s.bp).Keeps sb t (.commit c')) :
    s.Matched sb held recorded s' := by
  obtain ⟨blocks, hstep, rfl⟩ := Option.map_eq_some_iff.mp hs
  obtain ⟨-, -, -, hhold, -⟩ := h.sound.release_cases hstep
  refine h.release_commit hh hstep ?_ ?_ (hkeeps blocks hhold)
  · intro x
    rw [hpc]
    exact congrArg Pc.commit (habs x)
  · rw [hpc]
    exact hbusy

/-- The unpin of a round is no step of `LogSys`. -/
theorem unpin_matched {i lp rp : ℕ} (h : s.Shows sb held) (hcall : (s.blocks.pc t).call = none)
    (hpc : s.pc t = .commit (.unpin i lp rp)) (hcom : s.log.committing = true)
    (hdisk : s.blocks.cur (s.log.header.blockNo i) = s.disk (s.log.header.blockNo i)) :
    s.Matched sb held recorded (s.moved t (.commit (.freeFrom .installTrans i lp rp))
      (s.blocks.pin rp false) s.bp) := by
  refine ⟨held, recorded, h.unpin hcall hpc hcom hdisk, Or.inl ?_⟩
  have hpcs := abs_update s t (.commit (.freeFrom .installTrans i lp rp))
  have hsame : ((CachePc.commit (.freeFrom .installTrans i lp rp)).abs
      (s.blocks.pc t).call.isSome) = (s.pc t).abs (s.blocks.pc t).call.isSome := by
    rw [hpc]
    rfl
  rw [hsame, Function.update_eq_self] at hpcs
  exact (eq_abs (s := s.moved t (.commit (.freeFrom .installTrans i lp rp))
    (s.blocks.pin rp false) s.bp) (S := s.abs held recorded) rfl ⟨rfl, rfl, rfl⟩ rfl hpcs.symm
    rfl rfl rfl rfl ⟨rfl, rfl, rfl, rfl⟩ ⟨rfl, rfl, rfl, rfl⟩).symm

/-- The first release of a round: the other block is still held. -/
theorem freeFrom_matched {k : Pass} {i lp rp : ℕ} (h : s.Shows sb held)
    (hpc : s.pc t = .commit (.freeFrom k i lp rp))
    (hs : s.release t (k.src lp rp) (.commit (.freeTo k i lp rp)) = some s') :
    s.Matched sb held recorded s' := by
  have hkeeps := h.keeps t
  rw [hpc] at hkeeps
  obtain ⟨⟨b, hsrc⟩, ⟨c, hto⟩, hne⟩ := hkeeps
  refine release_matched h hpc hsrc hs (fun _ => rfl) ?_ ?_
  · intro p _
    cases k <;> simp [CachePc.busy, Pass.src]
  · intro blocks hhold
    have hother : k.to lp rp ≠ k.src lp rp := by
      cases k
      · exact hne
      · exact hne.symm
    obtain ⟨⟨d, hd⟩, hclean⟩ := hto
    refine ⟨?_, c, ⟨d, ?_⟩, hclean⟩
    · simp [moved, hhold, AcqSys.setHold]
    · simp [moved, hhold, AcqSys.setHold, hother, hd]

/-- The second release. -/
theorem freeTo_matched {k : Pass} {i lp rp : ℕ} {c' : CommitPc} (h : s.Shows sb held)
    (hpc : s.pc t = .commit (.freeTo k i lp rp))
    (hs : s.release t (k.to lp rp) (.commit c') = some s')
    (habs : ∀ x, c'.abs x = (CommitPc.freeTo k i lp rp).abs x)
    (hbusy : (CachePc.commit c').busy = [])
    (hkeeps : ∀ blocks : AcqSys, (s.moved t (.commit c') blocks s.bp).Keeps sb t (.commit c')) :
    s.Matched sb held recorded s' := by
  have hk := h.keeps t
  rw [hpc] at hk
  obtain ⟨hsrc, b, hto⟩ := hk
  refine release_matched h hpc hto hs habs ?_ fun blocks _ => hkeeps blocks
  intro p hp
  have hne : p ≠ k.src lp rp := by
    rintro rfl
    exact hp hsrc
  rw [hbusy]
  cases k <;> simp_all [CachePc.busy, Pass.src, Pass.to]

/-- The two writes of the header. -/
theorem writeHeader_matched {c' : CommitPc} (h : s.Shows sb held)
    (hcall : (s.blocks.pc t).call = none) (hpc : s.pc t = .commit c)
    (hroom : s.log.header.numBlocks < sb.numLogBlocks)
    (hbusy : (CachePc.commit c').busy = (s.pc t).busy) (hkeeps : s.Keeps sb t (.commit c'))
    (hstep : (s.abs held recorded).commitStep sb t (c.abs false) =
      some { (s.abs held recorded).goto t (.commit (c'.abs false)) with
        disk := Function.update s.disk sb.logStart s.log.header.encode }) :
    s.Matched sb held recorded (s.moved t (.commit c') (s.blocks.writeHeader sb) s.bp) := by
  refine matched_commit recorded hcall hpc (h.writeHeader hcall (by omega) hbusy hkeeps) ?_
  have hpcs := abs_update s t (.commit c')
  have hq : (CachePc.commit c').abs (s.blocks.pc t).call.isSome = .commit (c'.abs false) := by
    rw [hcall]
    rfl
  rw [hq] at hpcs
  refine hstep.trans (congrArg some ?_)
  exact eq_abs rfl ⟨rfl, rfl, rfl⟩ rfl hpcs.symm rfl rfl rfl rfl ⟨rfl, rfl, rfl, rfl⟩
    ⟨rfl, rfl, rfl, rfl⟩

/-- `log.num_blocks = 0` -/
theorem clear_matched (h : s.Shows sb held) (hP : Proto (s.abs held recorded))
    (hcall : (s.blocks.pc t).call = none) (hpc : s.pc t = .commit .clear) :
    s.Matched sb held recorded { s.goto t (.commit .clearHeader) with
      blocks := s.blocks.setLog { s.log with header := s.log.header.clear } } := by
  have hpc' : (s.abs held recorded).pc t = .commit .clear := by
    simp only [abs, hpc, hcall]
    rfl
  have hS : LogCache.Shows sb { s.goto t (.commit .clearHeader) with
      blocks := s.blocks.setLog { s.log with header := s.log.header.clear } } held := by
    refine h.of_pc rfl rfl rfl ?_ fun v => ?_
    · intro _ b hb
      simp [LogHeader.entries, LogHeader.clear] at hb
    · by_cases hv : v = t
      · subst hv
        refine Or.inr ⟨hcall, ?_, ?_⟩ <;> rw [goto_pc_self]
        · rw [hpc]
          rfl
        · trivial
      · refine Or.inl ⟨goto_pc_of_ne s _ hv, Or.inr fun q hq => hv ?_⟩
        exact hP.unique v t _ _ (congrArg (CachePc.abs _) hq) hpc'
  refine matched_commit recorded hcall hpc hS (congrArg some ?_)
  have hpcs := abs_update s t (.commit .clearHeader)
  exact eq_abs rfl ⟨rfl, rfl, rfl⟩ rfl hpcs.symm rfl rfl rfl rfl ⟨rfl, rfl, rfl, rfl⟩
    ⟨rfl, rfl, rfl, rfl⟩

/-- The end of a commit. -/
theorem finish_matched (h : s.Shows sb held) (hn : s.log.header.numBlocks = 0)
    (hcall : (s.blocks.pc t).call = none) (hpc : s.pc t = .commit .finish) :
    s.Matched sb held recorded { s.goto t .postS1 with
      blocks := s.blocks.setLog { s.log with committing := false }
      finished := s.finished + 1 } := by
  have hS : LogCache.Shows sb { s.goto t .postS1 with
      blocks := s.blocks.setLog { s.log with committing := false }
      finished := s.finished + 1 } held := by
    refine h.of_pc rfl rfl rfl ?_ fun v => ?_
    · intro _ b hb
      simp [LogHeader.entries, hn] at hb
    · by_cases hv : v = t
      · subst hv
        refine Or.inr ⟨hcall, ?_, ?_⟩ <;> rw [goto_pc_self]
        · rw [hpc]
          rfl
        · trivial
      · exact Or.inl ⟨goto_pc_of_ne s _ hv, Or.inl rfl⟩
  refine matched_commit recorded hcall hpc hS (congrArg some ?_)
  have hpcs := abs_update s t .postS1
  exact eq_abs rfl ⟨rfl, rfl, rfl⟩ rfl hpcs.symm rfl rfl rfl rfl ⟨rfl, rfl, rfl, rfl⟩
    ⟨rfl, rfl, rfl, rfl⟩

/-- **Every step of a commit is matched.** -/
theorem commit_matched (h : s.Shows sb held) (hP : Proto (s.abs held recorded))
    (hD : Durable sb (s.abs held recorded)) (hok : s.InOrder sb (t, .run))
    (hidle : s.blocks.pc t = .idle) (hpc : s.pc t = .commit c)
    (hs : s.commitStep sb t c = some s') : s.Matched sb held recorded s' := by
  have hcall : (s.blocks.pc t).call = none := by
    rw [hidle]
    rfl
  have hpc' : (s.abs held recorded).pc t = .commit (c.abs false) := by
    simp only [abs, hpc, hcall]
    rfl
  have hcom : s.log.committing = true := (hP.alone t _ hpc').2
  have hhere := hD.here t
  rw [hpc'] at hhere
  obtain ⟨-, hroom, hprog⟩ := hhere
  have hroom' : s.log.header.numBlocks < sb.numLogBlocks := hroom
  have hclient : ∀ c ∈ s.log.header.entries, sb.Client c := hD.client
  have hkeeps := h.keeps t
  rw [hpc] at hkeeps
  cases c with
  | check =>
      simp only [commitStep] at hs
      split at hs
      · rename_i hn
        cases hs
        refine goto_matched h hcall hpc (by rw [hpc]; rfl) trivial ?_
        exact if_pos hn
      · rename_i hn
        cases hs
        refine goto_matched h hcall hpc (by rw [hpc]; rfl) trivial ?_
        exact if_neg hn
  | first k i =>
      simp only [commitStep] at hs
      split at hs
      · rename_i hi
        have hasks : (CachePc.commit (.second k i)).Asks sb s.log.header (sb.logBlock i) := ⟨hi, rfl⟩
        refine h.acquire hclient ?_ hasks (by rw [hpc]; rfl) (by rw [hpc]; rfl) ?_ hs
        · exact hok _ (by simp [cacheAct, hidle, hpc, hi])
        · intro k' i' lp heq
          cases heq
      · rename_i hi
        cases hs
        refine goto_matched h hcall hpc (by rw [hpc]; cases k <;> rfl) (by cases k <;> trivial) ?_
        cases k <;> exact if_neg hi
  | second k i =>
      obtain ⟨hi, hl⟩ := hkeeps
      have hasks : (CachePc.commit (.copy k i (s.bp t))).Asks sb s.log.header
          (s.log.header.blockNo i) := ⟨hi, rfl⟩
      refine h.acquire hclient ?_ hasks (by rw [hpc]; rfl) (by rw [hpc]; rfl) ?_ hs
      · exact hok _ (by simp [cacheAct, hidle, hpc])
      · intro k' i' lp heq
        cases heq
        exact hl hcall
  | copy k i lp =>
      cases hs
      exact write_matched h hD hcall hpc hcom hroom'
  | unpin i lp rp =>
      cases hs
      have hdisk := hprog.2 i (Nat.lt_succ_self i)
      exact unpin_matched h hcall hpc hcom hdisk.1.symm
  | freeFrom k i lp rp => exact freeFrom_matched h hpc hs
  | freeTo k i lp rp =>
      exact freeTo_matched h hpc hs (fun _ => rfl) (by cases k <;> rfl) fun _ => trivial
  | writeHeader =>
      cases hs
      exact writeHeader_matched h hcall hpc hroom' (by rw [hpc]; rfl) trivial rfl
  | clear =>
      cases hs
      exact clear_matched h hP hcall hpc
  | clearHeader =>
      cases hs
      exact writeHeader_matched h hcall hpc hroom' (by rw [hpc]; rfl) trivial rfl
  | finish =>
      cases hs
      exact finish_matched h (hP.within t .finish hpc') hcall hpc

end Commit

/-! ## Waits, posts and operations -/

section Log

theorem abs_pc_of_call (hcall : (s.blocks.pc t).call = none) (hpc : s.pc t = q) :
    (s.abs held recorded).pc t = q.abs false := by
  simp only [abs, hpc, hcall]
  rfl

/-- The condition on the step of the log. -/
theorem timely_abs (hok : s.Timely sb (t, .run)) :
    OsLab.Timely sb (s.abs held recorded) (t, .run) := by
  intro hw u hu
  have hw' : s.pc t = .waitS2 := by
    simp only [abs] at hw
    cases hpc : s.pc t <;> rw [hpc] at hw <;> first | rfl | cases hw
  refine hok hw' u ?_
  simp only [abs, Pc.posting] at hu
  cases hpc : s.pc u <;> rw [hpc] at hu <;>
    simp only [CachePc.abs, reduceCtorEq, or_self] at hu
  · exact Or.inl hpc
  · exact Or.inr hpc

/-- A step of the log that is a step of `LogSys`. -/
theorem matched_run {held' : ℕ → Option ℕ} (recorded' : ℕ → ℕ) (hok : s.Timely sb (t, .run))
    (hS : s'.Shows sb held')
    (hstep : (s.abs held recorded).runStep sb t = some (s'.abs held' recorded')) :
    s.Matched sb held recorded s' :=
  ⟨held', recorded', hS, Or.inr ⟨(t, .run), timely_abs hok, hstep⟩⟩

/-- A thread asleep is in no call. -/
theorem Shows.call_eq_none (h : s.Shows sb held) (hq : ∀ b, ¬ (s.pc t).Asks sb s.log.header b) :
    (s.blocks.pc t).call = none := by
  by_contra hc
  obtain ⟨⟨p, b⟩, hpb⟩ := Option.ne_none_iff_exists'.mp hc
  exact hq b (h.asks t p b hpb).1

theorem busy_of_plain (hq : q.plain = true) : q.busy = [] := by
  cases q with
  | commit c => cases hq
  | _ => rfl

theorem keeps_of_plain (hq : q.plain = true) : s.Keeps sb t q := by
  cases q with
  | commit c => cases hq
  | _ => trivial

/-- A wait on one of the three semaphores. -/
theorem Shows.wait (h : s.Shows sb held) (recorded : ℕ → ℕ) (sem : Semaphore)
    (put : LogCache → Semaphore → LogCache) (put' : LogSys → Semaphore → LogSys)
    (asleep awake : CachePc) (hcall : (s.blocks.pc t).call = none) (hbusy : (s.pc t).busy = [])
    (hasleep : asleep.plain = true) (hawake : awake.plain = true)
    (hput : ∀ l, (put s l).blocks = s.blocks ∧ (put s l).bp = s.bp ∧ (put s l).dirty = s.dirty ∧
      (put s l).pc = s.pc ∧ (put s l).abs held recorded = put' (s.abs held recorded) l) :
    (s.wait t sem put asleep awake).Shows sb held ∧
      (s.wait t sem put asleep awake).abs held recorded =
        (s.abs held recorded).wait t sem put' (asleep.abs false) (awake.abs false) := by
  have hgo : ∀ l q, q.plain = true → ((put s l).goto t q).Shows sb held ∧
      ((put s l).goto t q).abs held recorded =
        (put' (s.abs held recorded) l).goto t (q.abs false) := by
    intro l q hq
    obtain ⟨hblocks, hbp, hdirty, hpc, habs⟩ := hput l
    refine ⟨h.of_pc (l := s.log) hblocks hbp hdirty h.pins fun v => ?_, ?_⟩
    · by_cases hv : v = t
      · subst hv
        refine Or.inr ⟨hcall, ?_, ?_⟩ <;> rw [goto_pc_self]
        · rw [hbusy]
          exact busy_of_plain hq
        · exact keeps_of_plain hq
      · refine Or.inl ⟨?_, Or.inl rfl⟩
        rw [goto_pc_of_ne _ _ hv, hpc]
    · rw [abs_goto, habs, hblocks, hcall]
      rfl
  rw [LogCache.wait, LogSys.wait]
  cases sem.waitSem t with
  | mk r l =>
      cases r with
      | true => exact hgo l awake hawake
      | false => exact hgo l asleep hasleep

/-- A post on one of the three semaphores. -/
theorem Shows.post {sem : Semaphore} {put : LogCache → Semaphore → LogCache}
    {awake next : CachePc} {a n : Pc} (h : s.Shows sb held) (recorded : ℕ → ℕ)
    (put' : LogSys → Semaphore → LogSys) (hcall : (s.blocks.pc t).call = none) (hbusy : (s.pc t).busy = [])
    (hbal : sem.Balanced) (hasleep : ∀ u ∈ sem.sleeplist, (s.pc u).busy = [] ∧
      ∀ b, ¬ (s.pc u).Asks sb s.log.header b)
    (hplain : awake.plain = true ∧ next.plain = true)
    (hawake : ∀ x, awake.abs x = a) (hnext : ∀ x, next.abs x = n)
    (hput : ∀ l, (put s l).blocks = s.blocks ∧ (put s l).bp = s.bp ∧ (put s l).dirty = s.dirty ∧
      (put s l).pc = s.pc ∧ (put s l).abs held recorded = put' (s.abs held recorded) l)
    (hs : s.post t sem put awake next = some s') : s'.Shows sb held ∧
      (s.abs held recorded).post t sem put' a n = some (s'.abs held recorded) := by
  rw [LogCache.post, Semaphore.postAllSem_of_balanced hbal] at hs
  rw [LogSys.post, Semaphore.postAllSem_of_balanced hbal]
  cases hs
  obtain ⟨hblocks, hbp, hdirty, hpc, habs⟩ := hput (Semaphore.initSem 0)
  constructor
  · refine h.of_pc (l := s.log) hblocks hbp hdirty h.pins fun v => ?_
    by_cases hv : v = t
    · subst hv
      refine Or.inr ⟨hcall, ?_, ?_⟩ <;> rw [goto_pc_self]
      · rw [hbusy]
        exact busy_of_plain hplain.2
      · exact keeps_of_plain hplain.2
    · rw [goto_pc_of_ne _ _ hv]
      simp only [wake, hpc]
      split
      · rename_i hmem
        obtain ⟨hb, hq⟩ := hasleep v (List.mem_reverse.mp hmem)
        refine Or.inr ⟨h.call_eq_none hq, ?_, keeps_of_plain hplain.1⟩
        rw [hb]
        exact busy_of_plain hplain.1
      · simp
  · rw [Option.map_some, abs_goto, hnext, ← habs]
    congr 2
    simp only [abs, wake, LogSys.wake, LogSys.mk.injEq, true_and, and_true]
    refine ⟨rfl, ?_, rfl⟩
    funext v
    split
    · exact (hawake _).symm
    · rfl

/-- One pass of the loop of `cache_begin_op`. -/
theorem enter_matched (h : s.Shows sb held) (hok : s.Timely sb (t, .run))
    (hP : Proto (s.abs held recorded)) (hcall : (s.blocks.pc t).call = none)
    (hpc : s.pc t = .entering) : s.Matched sb held recorded (s.enter t) := by
  have hrun : (s.abs held recorded).runStep sb t = some ((s.abs held recorded).enter t) := by
    rw [LogSys.runStep, abs_pc_of_call hcall hpc]
    rfl
  have hpc' : (s.abs held recorded).pc t = .entering := abs_pc_of_call hcall hpc
  cases hl : s.log.beginOp with
  | committing =>
      have hgo : s.enter t = s.goto t .waitS3 := by
        rw [enter, hl]
      rw [hgo]
      refine matched_run recorded hok (h.goto hcall (by rw [hpc]; rfl) trivial) ?_
      rw [hrun, LogSys.enter, show (s.abs held recorded).log.beginOp = .committing from hl, abs_goto]
      rfl
  | full =>
      have hgo : s.enter t = s.goto t .waitS1 := by
        rw [enter, hl]
      rw [hgo]
      refine matched_run recorded hok (h.goto hcall (by rw [hpc]; rfl) trivial) ?_
      rw [hrun, LogSys.enter, show (s.abs held recorded).log.beginOp = .full from hl, abs_goto]
      rfl
  | admitted rm l =>
      have hnot : t ∉ s.ctxs.map Prod.fst := by
        intro ht
        rw [hP.keys t ht] at hpc'
        cases hpc'
      obtain ⟨-, -, hidle, -, hhdr⟩ := hP.reserved.beginOp hnot hl
      have hS : (s.enter t).Shows sb held := by
        rw [enter, hl]
        refine h.of_pc (l := l) rfl rfl rfl ?_ fun v => ?_
        · intro _
          rw [hhdr]
          exact h.pins hidle
        · by_cases hv : v = t
          · subst hv
            refine Or.inr ⟨hcall, ?_, ?_⟩ <;> rw [goto_pc_self]
            · rw [hpc]
              rfl
            · trivial
          · exact Or.inl ⟨goto_pc_of_ne s _ hv, Or.inl hhdr⟩
      refine matched_run (Function.update recorded t 0) hok hS ?_
      rw [hrun, LogSys.enter, show (s.abs held recorded).log.beginOp = .admitted rm l from hl, enter,
        hl]
      have hpcs := abs_update s t .inOp
      exact congrArg some (eq_abs rfl ⟨rfl, rfl, rfl⟩ rfl hpcs.symm rfl rfl rfl rfl
        ⟨rfl, rfl, rfl, rfl⟩ ⟨rfl, rfl, rfl, rfl⟩)

/-- The critical section of `cache_end_op`. -/
theorem leave_matched (h : s.Shows sb held) (hok : s.Timely sb (t, .endOp))
    (hP : Proto (s.abs held recorded)) (hD : Durable sb (s.abs held recorded))
    (hcall : (s.blocks.pc t).call = none) (hpc : s.pc t = .inOp) (hs : s.leave t = some s') :
    s.Matched sb held recorded s' := by
  have hpc' : (s.abs held recorded).pc t = .inOp := abs_pc_of_call hcall hpc
  simp only [leave, Option.bind_eq_bind, Option.bind_eq_some_iff] at hs
  obtain ⟨rm, hrm, hs⟩ := hs
  have hmem : (t, rm) ∈ s.ctxs := Proto.rm_mem (s := s.abs held recorded) hrm
  have hidle : s.log.committing = false := hD.idle_of_mem hmem
  have hmoved : ∀ (q : CachePc), q.busy = [] → (∀ s : LogCache, s.Keeps sb t q) → ∀ v,
      ((s.goto t q).pc v = s.pc v ∧ (s.log.header = s.log.header ∨ ∀ q, s.pc v ≠ .commit q)) ∨
        ((s.blocks.pc v).call = none ∧ ((s.goto t q).pc v).busy = (s.pc v).busy ∧
          ∀ s' : LogCache, s'.Keeps sb v ((s.goto t q).pc v)) := by
    intro q hq hk v
    by_cases hv : v = t
    · subst hv
      refine Or.inr ⟨hcall, ?_, ?_⟩ <;> rw [goto_pc_self]
      · rw [hpc, hq]
        rfl
      · exact hk
    · exact Or.inl ⟨goto_pc_of_ne s _ hv, Or.inl rfl⟩
  have hstep : (s.abs held recorded).step sb (t, .endOp) = (s.abs held recorded).leave t :=
    if_pos hpc'
  split at hs
  · rename_i l hl
    cases hs
    obtain ⟨-, hhdr, hlast, -⟩ := hP.reserved.endOp hmem hl
    refine ⟨held, recorded, h.of_pc (l := l) rfl rfl rfl ?_ fun v => ?_,
      Or.inr ⟨(t, .endOp), hok, ?_⟩⟩
    · intro hc
      rw [(hlast rfl).2] at hc
      cases hc
    · rw [hhdr]
      rcases hmoved (.commit .check) rfl (fun _ => trivial) v with hv | ⟨h₁, h₂, h₃⟩
      · exact Or.inl hv
      · exact Or.inr ⟨h₁, h₂, h₃ _⟩
    · have hleave : (s.abs held recorded).rm t = some rm := hrm
      have hend : (s.abs held recorded).log.endOp rm = (true, l) := hl
      have hpcs := abs_update s t (.commit .check)
      rw [hstep]
      simp only [LogSys.leave, hleave, Option.bind_eq_bind, Option.bind_some, hend]
      exact congrArg some (eq_abs rfl ⟨rfl, rfl, rfl⟩ rfl hpcs.symm rfl rfl rfl rfl
        ⟨rfl, rfl, rfl, rfl⟩ ⟨rfl, rfl, rfl, rfl⟩)
  · rename_i l hl
    cases hs
    obtain ⟨-, hhdr, -, hcom⟩ := hP.reserved.endOp hmem hl
    refine ⟨held, recorded, h.of_pc (l := l) rfl rfl rfl ?_ fun v => ?_,
      Or.inr ⟨(t, .endOp), hok, ?_⟩⟩
    · intro _
      rw [hhdr]
      exact h.pins hidle
    · rw [hhdr]
      rcases hmoved .leaving rfl (fun _ => trivial) v with hv | ⟨h₁, h₂, h₃⟩
      · exact Or.inl hv
      · exact Or.inr ⟨h₁, h₂, h₃ _⟩
    · have hleave : (s.abs held recorded).rm t = some rm := hrm
      have hend : (s.abs held recorded).log.endOp rm = (false, l) := hl
      have hpcs := abs_update s t .leaving
      rw [hstep]
      simp only [LogSys.leave, hleave, Option.bind_eq_bind, Option.bind_some, hend]
      exact congrArg some (eq_abs rfl ⟨rfl, rfl, rfl⟩ rfl hpcs.symm rfl rfl rfl rfl
        ⟨rfl, rfl, rfl, rfl⟩ ⟨rfl, rfl, rfl, rfl⟩)

/-- A client's `cache_sync(ctx, block)`. -/
theorem sync_matched {e : Sector} (h : s.Shows sb held) (hP : Proto (s.abs held recorded))
    (hD : Durable sb (s.abs held recorded)) (hcall : (s.blocks.pc t).call = none)
    (hpc : s.pc t = .inOp) (hb : ¬ sb.InLog b ∧ b < 2 ^ 64)
    (hh : s.blocks.hold t p = some (b, e)) (hs : s.sync t p b = some s') :
    s.Matched sb held recorded s' := by
  have hpc' : (s.abs held recorded).pc t = .inOp := abs_pc_of_call hcall hpc
  have howner : held b = some t := (h.held b t).mpr ⟨p, ⟨e, hh⟩, by rw [hpc]; exact List.not_mem_nil⟩
  simp only [sync, Option.bind_eq_bind, Option.bind_eq_some_iff] at hs
  obtain ⟨rm, hrm, ⟨new, rm', l⟩, hl, hs⟩ := hs
  have hmem : (t, rm) ∈ s.ctxs := Proto.rm_mem (s := s.abs held recorded) hrm
  rw [(h.sound.data_eq hh).1] at hl
  obtain ⟨-, -, -, hent, hnew⟩ := hP.reserved.sync hmem hl
  have hidle : s.log.committing = false := hD.idle_of_mem hmem
  cases hs
  refine ⟨held, Function.update recorded t (recorded t + if new then 1 else 0),
    h.sync (fun v q hq => ?_) hh hidle (fun c => (hent c).mp) hnew rfl rfl rfl rfl,
    Or.inr ⟨(t, .sync b), trivial, ?_⟩⟩
  · exact hP.not_commit hmem (congrArg (CachePc.abs _) hq)
  · have hrm' : (s.abs held recorded).rm t = some rm := hrm
    have hl' : (s.abs held recorded).log.sync rm b = some (new, rm', l) := hl
    simp only [LogSys.step]
    rw [if_pos ⟨hpc', howner, hb⟩]
    simp only [LogSys.sync, hrm', Option.bind_eq_bind, Option.bind_some, hl']
    cases new with
    | true =>
        exact congrArg some (eq_abs rfl ⟨rfl, rfl, rfl⟩ rfl rfl rfl rfl rfl rfl
          ⟨rfl, rfl, rfl, rfl⟩ ⟨rfl, rfl, rfl, rfl⟩)
    | false =>
        exact congrArg some (eq_abs rfl ⟨rfl, rfl, rfl⟩ rfl rfl rfl rfl rfl rfl
          ⟨rfl, rfl, rfl, rfl⟩ ⟨rfl, rfl, rfl, rfl⟩)

/-- A client's change of a block. -/
theorem modify_matched {d e : Sector} (h : s.Shows sb held) (hP : Proto (s.abs held recorded))
    (hD : Durable sb (s.abs held recorded)) (hcall : (s.blocks.pc t).call = none)
    (hpc : s.pc t = .inOp) (hb : ¬ sb.InLog b ∧ b < 2 ^ 64)
    (hh : s.blocks.hold t p = some (b, e)) : s.Matched sb held recorded (s.modify t p b d) := by
  have hpc' : (s.abs held recorded).pc t = .inOp := abs_pc_of_call hcall hpc
  have howner : held b = some t := (h.held b t).mpr ⟨p, ⟨e, hh⟩, by rw [hpc]; exact List.not_mem_nil⟩
  have hhere := hD.here t
  rw [hpc'] at hhere
  obtain ⟨⟨t', rm⟩, hmem, rfl⟩ := List.mem_map.mp hhere.1
  refine ⟨held, recorded, h.modify (fun v q hq => ?_) hh, Or.inr ⟨(t', .modify b d), trivial, ?_⟩⟩
  · exact hP.not_commit hmem (congrArg (CachePc.abs _) hq)
  · simp only [LogSys.step]
    rw [if_pos ⟨hpc', howner, hb⟩]
    exact congrArg some (eq_abs rfl ⟨rfl, rfl, rfl⟩ rfl rfl rfl rfl rfl rfl ⟨rfl, rfl, rfl, rfl⟩
      ⟨rfl, rfl, rfl, rfl⟩)

end Log

/-! ## Every step, every run -/

theorem not_asks_of_asleep {x : Bool} {h : LogHeader}
    (hq : q.abs x = .asleepS1 ∨ q.abs x = .asleepS2 ∨ q.abs x = .asleepS3) :
    q.busy = [] ∧ ∀ b, ¬ q.Asks sb h b := by
  cases q <;> simp_all [CachePc.abs, CachePc.busy, CachePc.Asks]

/-- **Every step of a call of the log is matched.** -/
theorem run_matched (h : s.Shows sb held) (hP : Proto (s.abs held recorded))
    (hD : Durable sb (s.abs held recorded)) (hok : s.Timely sb (t, .run))
    (ho : s.InOrder sb (t, .run)) (hidle : s.blocks.pc t = .idle)
    (hs : s.runStep sb t = some s') : s.Matched sb held recorded s' := by
  have hcall : (s.blocks.pc t).call = none := by
    rw [hidle]
    rfl
  obtain ⟨hb1, hb2, hb3⟩ := hP.balanced
  have hasleep1 : ∀ u ∈ s.s1.sleeplist, (s.pc u).busy = [] ∧
      ∀ b, ¬ (s.pc u).Asks sb s.log.header b :=
    fun u hu => not_asks_of_asleep (Or.inl (hP.asleep1 u hu))
  have hasleep2 : ∀ u ∈ s.s2.sleeplist, (s.pc u).busy = [] ∧
      ∀ b, ¬ (s.pc u).Asks sb s.log.header b :=
    fun u hu => not_asks_of_asleep (Or.inr (Or.inl (hP.asleep2 u hu)))
  have hasleep3 : ∀ u ∈ s.s3.sleeplist, (s.pc u).busy = [] ∧
      ∀ b, ¬ (s.pc u).Asks sb s.log.header b :=
    fun u hu => not_asks_of_asleep (Or.inr (Or.inr (hP.asleep3 u hu)))
  have hrun : ∀ {q}, s.pc t = q → (s.abs held recorded).runStep sb t =
      match q.abs false with
      | .entering => some ((s.abs held recorded).enter t)
      | .waitS3 => some ((s.abs held recorded).wait t s.s3 LogSys.setS3 .asleepS3 .entering)
      | .waitS1 => some ((s.abs held recorded).wait t s.s1 LogSys.setS1 .asleepS1 .entering)
      | .leaving => (s.abs held recorded).post t s.s1 LogSys.setS1 .entering .waitS2
      | .waitS2 => some ((s.abs held recorded).wait t s.s2 LogSys.setS2 .asleepS2 .returned)
      | .commit ph => (s.abs held recorded).commitStep sb t ph
      | .postS1 => (s.abs held recorded).post t s.s1 LogSys.setS1 .entering .postS2
      | .postS2 => (s.abs held recorded).post t s.s2 LogSys.setS2 .returned .postS3
      | .postS3 => (s.abs held recorded).post t s.s3 LogSys.setS3 .entering .returned
      | _ => none := by
    intro q hq
    rw [LogSys.runStep, abs_pc_of_call hcall hq]
    cases q <;> rfl
  simp only [runStep] at hs
  cases hpc : s.pc t with
  | entering =>
      rw [hpc] at hs
      cases hs
      exact enter_matched h hok hP hcall hpc
  | waitS3 =>
      rw [hpc] at hs
      cases hs
      have hw := h.wait recorded s.s3 setS3 LogSys.setS3 .asleepS3 .entering hcall
        (by rw [hpc]; rfl) rfl rfl fun _ => ⟨rfl, rfl, rfl, rfl, rfl⟩
      refine matched_run recorded hok hw.1 ?_
      rw [hrun hpc, hw.2]
      rfl
  | waitS1 =>
      rw [hpc] at hs
      cases hs
      have hw := h.wait recorded s.s1 setS1 LogSys.setS1 .asleepS1 .entering hcall
        (by rw [hpc]; rfl) rfl rfl fun _ => ⟨rfl, rfl, rfl, rfl, rfl⟩
      refine matched_run recorded hok hw.1 ?_
      rw [hrun hpc, hw.2]
      rfl
  | waitS2 =>
      rw [hpc] at hs
      cases hs
      have hw := h.wait recorded s.s2 setS2 LogSys.setS2 .asleepS2 .returned hcall
        (by rw [hpc]; rfl) rfl rfl fun _ => ⟨rfl, rfl, rfl, rfl, rfl⟩
      refine matched_run recorded hok hw.1 ?_
      rw [hrun hpc, hw.2]
      rfl
  | leaving =>
      rw [hpc] at hs
      have hp := h.post recorded LogSys.setS1 hcall (by rw [hpc]; rfl) hb1
        hasleep1 ⟨rfl, rfl⟩ (fun _ => rfl) (fun _ => rfl) (fun _ => ⟨rfl, rfl, rfl, rfl, rfl⟩) hs
      exact matched_run recorded hok hp.1 ((hrun hpc).trans hp.2)
  | commit c =>
      rw [hpc] at hs
      exact commit_matched h hP hD ho hidle hpc hs
  | postS1 =>
      rw [hpc] at hs
      have hp := h.post recorded LogSys.setS1 hcall (by rw [hpc]; rfl) hb1
        hasleep1 ⟨rfl, rfl⟩ (fun _ => rfl) (fun _ => rfl) (fun _ => ⟨rfl, rfl, rfl, rfl, rfl⟩) hs
      exact matched_run recorded hok hp.1 ((hrun hpc).trans hp.2)
  | postS2 =>
      rw [hpc] at hs
      have hp := h.post recorded LogSys.setS2 hcall (by rw [hpc]; rfl) hb2
        hasleep2 ⟨rfl, rfl⟩ (fun _ => rfl) (fun _ => rfl) (fun _ => ⟨rfl, rfl, rfl, rfl, rfl⟩) hs
      exact matched_run recorded hok hp.1 ((hrun hpc).trans hp.2)
  | postS3 =>
      rw [hpc] at hs
      have hp := h.post recorded LogSys.setS3 hcall (by rw [hpc]; rfl) hb3
        hasleep3 ⟨rfl, rfl⟩ (fun _ => rfl) (fun _ => rfl) (fun _ => ⟨rfl, rfl, rfl, rfl, rfl⟩) hs
      exact matched_run recorded hok hp.1 ((hrun hpc).trans hp.2)
  | _ =>
      rw [hpc] at hs
      cases hs

/-- **Every step is matched** by a timely step of `LogSys`, or by none. -/
theorem step_matched {i : ℕ × LogCacheAct} (h : s.Shows sb held) (hP : Proto (s.abs held recorded))
    (hD : Durable sb (s.abs held recorded)) (hok : s.Timely sb i) (ho : s.InOrder sb i)
    (hs : s.step sb i = some s') : s.Matched sb held recorded s' := by
  obtain ⟨t, a⟩ := i
  have hcall : s.Idle t → (s.blocks.pc t).call = none := by
    rintro ⟨hidle, -⟩
    rw [hidle]
    rfl
  have hclient : ∀ c ∈ s.log.header.entries, sb.Client c := hD.client
  cases a with
  | beginOp =>
      simp only [step] at hs
      split at hs
      · rename_i hi
        cases hs
        have hpc : s.pc t = .out ∨ s.pc t = .returned := by
          have := hi.1.2
          have := hi.2
          tauto
        refine ⟨held, recorded, h.goto (hcall hi.1) ?_ trivial, Or.inr ⟨(t, .beginOp), trivial, ?_⟩⟩
        · rcases hpc with hpc | hpc <;> rw [hpc] <;> rfl
        · have hpc' : (s.abs held recorded).pc t = .out ∨ (s.abs held recorded).pc t = .returned := by
            rcases hpc with hpc | hpc
            · exact Or.inl (abs_pc_of_call (hcall hi.1) hpc)
            · exact Or.inr (abs_pc_of_call (hcall hi.1) hpc)
          simp only [LogSys.step, if_pos hpc', abs_goto]
          rfl
      · cases hs
  | acquire b =>
      simp only [step] at hs
      split at hs
      · rename_i hi
        refine h.acquire hclient (ho _ rfl) ?_ ?_ ?_ ?_ hs
        · rcases hi.1.2 with hpc | hpc | hpc <;> rw [hpc] <;> exact hi.2
        · rcases hi.1.2 with hpc | hpc | hpc <;> rw [hpc] <;> rfl
        · rcases hi.1.2 with hpc | hpc | hpc <;> rw [hpc] <;> rfl
        · intro k j lp hq
          rcases hi.1.2 with hpc | hpc | hpc <;> rw [hpc] at hq <;> cases hq
      · cases hs
  | modify p d =>
      simp only [step] at hs
      split at hs
      · rename_i b e hh
        split at hs
        · rename_i hi
          cases hs
          exact modify_matched h hP hD (hcall hi.1) hi.2.1 hi.2.2 hh
        · cases hs
      · cases hs
  | sync p =>
      simp only [step] at hs
      split at hs
      · rename_i b e hh
        split at hs
        · rename_i hi
          exact sync_matched h hP hD (hcall hi.1) hi.2.1 hi.2.2 hh hs
        · cases hs
      · cases hs
  | release p =>
      simp only [step] at hs
      split at hs
      · rename_i b e hh
        split at hs
        · rename_i hi
          obtain ⟨blocks, hstep, rfl⟩ := Option.map_eq_some_iff.mp hs
          exact h.release_client hi.1.2 ⟨⟨e, hh⟩, hi.2⟩ hstep
        · cases hs
      · cases hs
  | endOp =>
      simp only [step] at hs
      split at hs
      · rename_i hi
        exact leave_matched h hok hP hD (hcall hi.1) hi.2 hs
      · cases hs
  | run =>
      simp only [step] at hs
      split at hs
      · rename_i hidle
        exact run_matched h hP hD hok ho hidle hs
      · rename_i hbusy
        obtain ⟨blocks, hstep, rfl⟩ := Option.map_eq_some_iff.mp hs
        exact h.inCall hclient (ho .run (by simp [cacheAct, hbusy])) hstep

end LogCache

end OsLab
