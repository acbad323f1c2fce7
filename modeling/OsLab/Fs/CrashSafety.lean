import OsLab.Fs.Refinement
import Mathlib.Data.List.GetD

/-!
# Power loss

A device that loses power is left with a prefix of the writes of the run.  What a
recovery would make of a device is `RecoversTo`; the invariant of a run is that
every prefix of its writes recovers to the contents after one of its group
commits, and to which of them is decided by the header writes in that prefix.

`Logged` is a serialised run whose clients change blocks through operations only,
with the contents after each group commit.  `Life` strings such runs together:
each starts with `init_bcache` on what the power loss before it left behind.

## Main definitions

* `RecoversTo sb d c` — replaying the log of the device `d` gives the contents `c`.
* `Logged`, `Life` — one run between two power losses, and any number of them.
* `Life.crash_atomic` — crash atomicity.
-/

namespace OsLab

/-- Replaying the log of the device `d` gives the contents `c` outside the log. -/
structure RecoversTo (sb : SuperBlock) (d c : ℕ → Sector) : Prop where
  valid : ValidLog sb d
  replay : ∀ b, sb.Client b →
    applyWrites (Bcache.installWrites sb (LogHeader.decode (d sb.logStart)) d) d b = c b

namespace RecoversTo

variable {sb : SuperBlock} {d e c : ℕ → Sector} {h : LogHeader} {s : Sector} {b : ℕ}

/-- A replay looks at the header and the log copies only. -/
theorem installWrites_congr (hn : h.numBlocks = (LogHeader.decode (d sb.logStart)).numBlocks)
    (hb : ∀ i < h.numBlocks, h.blockNo i = (LogHeader.decode (d sb.logStart)).blockNo i)
    {v : ℕ → Sector} (hv : ∀ i < h.numBlocks, v (sb.logBlock i) = d (sb.logBlock i)) :
    Bcache.installWrites sb h v =
      Bcache.installWrites sb (LogHeader.decode (d sb.logStart)) d := by
  rw [Bcache.installWrites, Bcache.installWrites, ← hn]
  apply List.map_congr_left
  intro i hi
  rw [hb i (List.mem_range.mp hi), hv i (List.mem_range.mp hi)]

/-- With an empty header the device itself holds the contents. -/
theorem of_empty (hn : (LogHeader.decode (d sb.logStart)).numBlocks = 0)
    (hc : ∀ b, sb.Client b → d b = c b) : RecoversTo sb d c := by
  constructor
  · constructor
    · rw [hn]
      exact Nat.zero_le _
    · rw [LogHeader.entries, hn]
      simp
  · intro b hb
    rw [Bcache.installWrites, hn]
    exact hc b hb

theorem eq_of_empty (hr : RecoversTo sb d c)
    (hn : (LogHeader.decode (d sb.logStart)).numBlocks = 0) (hb : sb.Client b) : d b = c b := by
  have := hr.replay b hb
  rwa [Bcache.installWrites, hn] at this

/-- The recorded blocks of a valid device lie outside the log blocks in use. -/
theorem outside (hsb : logMaxSize < sb.numLogBlocks) (hr : RecoversTo sb d c) :
    OutsideLog sb (LogHeader.decode (d sb.logStart)) :=
  Sim.outsideLog_of_valid hr.valid (lt_of_le_of_lt hr.valid.le hsb)

/-- Writes outside the log leave the header and the log copies alone. -/
theorem congr (hr : RecoversTo sb d c) (hstart : e sb.logStart = d sb.logStart)
    (hcopy : ∀ i < (LogHeader.decode (d sb.logStart)).numBlocks,
      e (sb.logBlock i) = d (sb.logBlock i))
    (hreplay : ∀ b, sb.Client b →
      applyWrites (Bcache.installWrites sb (LogHeader.decode (d sb.logStart)) d) e b = c b) :
    RecoversTo sb e c := by
  constructor
  · constructor
    · rw [hstart]
      exact hr.valid.le
    · rw [hstart]
      exact hr.valid.client
  · intro b hb
    rw [hstart, installWrites_congr rfl (fun _ _ => rfl) hcopy]
    exact hreplay b hb

/-- **A replay may stop anywhere and start again.**  After any prefix of the writes of a
replay, the last of which empties the header, the device still recovers to the same
contents. -/
theorem redo (hsb : logMaxSize < sb.numLogBlocks) (hr : RecoversTo sb d c)
    (hs : (LogHeader.decode s).numBlocks = 0) (k : ℕ) :
    RecoversTo sb (applyWrites ((Bcache.installWrites sb (LogHeader.decode (d sb.logStart)) d ++
      [(sb.logStart, s)]).take k) d) c := by
  have hout := hr.outside hsb
  generalize hW : Bcache.installWrites sb (LogHeader.decode (d sb.logStart)) d = W at *
  have htarget : ∀ x ∈ W, ∃ i < (LogHeader.decode (d sb.logStart)).numBlocks,
      x.1 = (LogHeader.decode (d sb.logStart)).blockNo i := by
    intro x hx
    rw [← hW] at hx
    obtain ⟨i, hi, rfl⟩ := List.mem_map.mp hx
    exact ⟨i, List.mem_range.mp hi, rfl⟩
  by_cases hk : k ≤ W.length
  · -- the header is still the old one, and the log copies are where they were
    rw [List.take_append_of_le_length hk]
    have hfix : ∀ x, (∀ i < (LogHeader.decode (d sb.logStart)).numBlocks,
        (LogHeader.decode (d sb.logStart)).blockNo i ≠ x) → applyWrites (W.take k) d x = d x := by
      intro x hx
      apply applyWrites_of_notMem
      intro y hy hyx
      obtain ⟨i, hi, hyi⟩ := htarget y (List.mem_of_mem_take hy)
      exact hx i hi (hyi.symm.trans hyx)
    apply hr.congr
    · exact hfix _ fun i hi => hout.ne_logStart hi
    · intro j hj
      exact hfix _ fun i hi => hout.ne_logBlock hi hj
    · intro b hb
      rw [hW, applyWrites_take_then_all, ← hW]
      exact hr.replay b hb
  · -- the header is empty
    rw [List.take_of_length_le (by simp; omega), applyWrites_append]
    apply of_empty
    · simpa using hs
    · intro b hb
      have hne : b ≠ sb.logStart := Sim.client_ne hb (by omega)
      rw [applyWrites_cons, applyWrites_nil, Function.update_of_ne hne, ← hW]
      exact hr.replay b hb

/-- Log copies may be written while the header is empty. -/
theorem write_log (hsb : logMaxSize < sb.numLogBlocks) (hr : RecoversTo sb d c)
    (hn : (LogHeader.decode (d sb.logStart)).numBlocks = 0) {ws : List (ℕ × Sector)}
    (hws : ∀ x ∈ ws, ∃ i < logMaxSize, x.1 = sb.logBlock i) :
    RecoversTo sb (applyWrites ws d) c := by
  have hstart : applyWrites ws d sb.logStart = d sb.logStart := by
    apply applyWrites_of_notMem
    intro x hx
    obtain ⟨i, -, hi⟩ := hws x hx
    rw [hi]
    exact sb.logBlock_ne_logStart i
  apply of_empty
  · rw [hstart]
    exact hn
  · intro b hb
    rw [applyWrites_of_notMem, hr.eq_of_empty hn hb]
    rintro x hx rfl
    obtain ⟨i, hi, hxi⟩ := hws x hx
    apply hb.1
    rw [hxi]
    simp only [SuperBlock.InLog, SuperBlock.logBlock]
    omega

section Commit

variable {v c' : ℕ → Sector} (hsb : logMaxSize < sb.numLogBlocks) (hr : RecoversTo sb d c)
  (hn : (LogHeader.decode (d sb.logStart)).numBlocks = 0) (hle : h.numBlocks ≤ logMaxSize)
  (hcl : ∀ b ∈ h.entries, sb.Client b) (hd : h.entries.Nodup)
  (hc' : ∀ b, sb.Client b → c' b = if b ∈ h.entries then v b else d b)
include hle

theorem logWrites_target : ∀ x ∈ Bcache.logWrites sb h v, ∃ i < logMaxSize, x.1 = sb.logBlock i := by
  intro x hx
  obtain ⟨i, hi, rfl⟩ := List.mem_map.mp hx
  exact ⟨i, lt_of_lt_of_le (List.mem_range.mp hi) hle, rfl⟩

include hcl

/-- Once the header is on disk, what is left of the commit is a replay of it. -/
theorem installWrites_of_header (hstart : e sb.logStart = h.encode)
    (hcopy : ∀ i < h.numBlocks, e (sb.logBlock i) = v (h.blockNo i)) :
    Bcache.installWrites sb (LogHeader.decode (e sb.logStart)) e =
      (List.range h.numBlocks).map (fun i => (h.blockNo i, v (h.blockNo i))) := by
  have hnum : (LogHeader.decode h.encode).numBlocks = h.numBlocks :=
    h.numBlocks_decode_encode (lt_of_le_of_lt hle (by decide))
  rw [Bcache.installWrites, hstart, hnum]
  apply List.map_congr_left
  intro i hi
  have hi' := List.mem_range.mp hi
  rw [hcopy i hi', h.blockNo_decode_encode (lt_of_lt_of_le hi' hle)
    (hcl _ (LogHeader.blockNo_mem hi')).2]

include hsb hd hc'

/-- **The header write is the commit point.** -/
theorem of_header (hstart : e sb.logStart = h.encode)
    (hcopy : ∀ i < h.numBlocks, e (sb.logBlock i) = v (h.blockNo i))
    (hold : ∀ b, sb.Client b → e b = applyWrites (Bcache.logWrites sb h v) d b) :
    RecoversTo sb e c' := by
  constructor
  · constructor
    · rw [hstart, h.numBlocks_decode_encode (lt_of_le_of_lt hle (by decide))]
      exact hle
    · rw [hstart, h.entries_decode_encode hle fun b hb => (hcl b hb).2]
      exact hcl
  · intro b hb
    rw [installWrites_of_header hle hcl hstart hcopy, hc' b hb]
    split
    · rename_i hmem
      obtain ⟨i, hi, rfl⟩ := LogHeader.mem_entries.mp hmem
      apply applyWrites_of_mem (w := (h.blockNo i, v (h.blockNo i)))
      · rw [List.map_map]
        exact hd
      · exact List.mem_map.mpr ⟨i, List.mem_range.mpr hi, rfl⟩
    · rename_i hmem
      rw [applyWrites_of_notMem, hold b hb, applyWrites_of_notMem]
      · rintro x hx rfl
        obtain ⟨i, hi, hxi⟩ := logWrites_target hle x hx
        apply hb.1
        rw [hxi]
        simp only [SuperBlock.InLog, SuperBlock.logBlock]
        omega
      · intro x hx hxb
        obtain ⟨i, hi, rfl⟩ := List.mem_map.mp hx
        exact hmem (hxb ▸ LogHeader.blockNo_mem (List.mem_range.mp hi))

include hr hn

/-- **Every prefix of a commit** recovers to the old contents up to the header write, and
to the new ones from there on. -/
theorem commit (k : ℕ) : RecoversTo sb (applyWrites ((Bcache.commitWrites sb h v).take k) d)
    (if k ≤ h.numBlocks then c else c') := by
  have hlen : (Bcache.logWrites sb h v).length = h.numBlocks := by
    simp [Bcache.logWrites]
  rw [Bcache.commitWrites]
  by_cases hk : k ≤ h.numBlocks
  · rw [if_pos hk, List.take_append_of_le_length (by rw [hlen]; exact hk)]
    apply hr.write_log hsb hn
    intro x hx
    exact logWrites_target hle x (List.mem_of_mem_take hx)
  · obtain ⟨j, hj⟩ : ∃ j, k = (Bcache.logWrites sb h v).length + (j + 1) :=
      ⟨k - h.numBlocks - 1, by omega⟩
    rw [if_neg hk, hj, List.take_length_add_append, List.take_succ_cons, applyWrites_append,
      applyWrites_cons]
    obtain ⟨e, he⟩ : ∃ e, Function.update (applyWrites (Bcache.logWrites sb h v) d)
      (sb.logStart, h.encode).1 (sb.logStart, h.encode).2 = e := ⟨_, rfl⟩
    have hstart : e sb.logStart = h.encode := by
      rw [← he, Function.update_self]
    have hcopy : ∀ i < h.numBlocks, e (sb.logBlock i) = v (h.blockNo i) := by
      intro i hi
      rw [← he, Function.update_of_ne (sb.logBlock_ne_logStart i)]
      apply applyWrites_of_mem (w := (sb.logBlock i, v (h.blockNo i)))
      · rw [Bcache.logWrites, List.map_map]
        exact List.nodup_range.map_on fun x _ y _ h => sb.logBlock_inj h
      · exact List.mem_map.mpr ⟨i, List.mem_range.mpr hi, rfl⟩
    have hr' : RecoversTo sb e c' := by
      apply of_header hsb hle hcl hd hc' hstart hcopy
      intro b hb
      rw [← he, Function.update_of_ne (Sim.client_ne hb (by omega))]
    rw [he, ← installWrites_of_header hle hcl hstart hcopy]
    exact hr'.redo hsb (h.clear.numBlocks_decode_encode (by simp)) j

end Commit

end RecoversTo

/-! ## Runs between two power losses -/

/-- A write of a header with entries. -/
def SuperBlock.isCommit (sb : SuperBlock) (x : ℕ × Sector) : Bool :=
  x.1 = sb.logStart && 0 < (LogHeader.decode x.2).numBlocks

/-- The number of group commits whose header write is in the list. -/
def SuperBlock.commitsIn (sb : SuperBlock) (ws : List (ℕ × Sector)) : ℕ := ws.countP sb.isCommit

/-- The call is the `cache_end_op` of the last outstanding operation of a group that has
recorded a block. -/
def World.commits (w : World) : Call → Bool
  | .endOp _ => w.cache.log.outstanding = 1 && 0 < w.cache.log.header.numBlocks
  | _ => false

/-- Clients change blocks through an operation, never with `cache_sync(NULL, ..)`. -/
def Call.InOp : Call → Prop
  | .sync none _ => False
  | _ => True

/-- A serialised run from `init_bcache` on a device that should recover to `c`, with `c`
and the contents after each of its group commits. -/
inductive Logged (sb : SuperBlock) (disk c : ℕ → Sector) :
    World → PlainMap → List (ℕ → Sector) → Prop
  | init {s : Bcache} : Bcache.initBcache sb disk = some s →
      Logged sb disk c (World.start s) ⟨s.disk, fun _ => none⟩ [c]
  | step {w w' : World} {m : PlainMap} {hist : List (ℕ → Sector)} (call : Call) :
      Logged sb disk c w m hist → call.InOp → call.Allowed sb m → w.step sb call = some w' →
      Logged sb disk c w' (m.step call) (if w.commits call then hist ++ [m.content] else hist)

/-- What the device may hold after any number of power losses, each at any point of a run
or of the recovery at its start, and the contents of the last group commit whose header
write reached the device. -/
inductive Life (sb : SuperBlock) : (ℕ → Sector) → (ℕ → Sector) → Prop
  | empty {d : ℕ → Sector} : (LogHeader.decode (d sb.logStart)).numBlocks = 0 → Life sb d d
  | powerLoss {d c : ℕ → Sector} {w : World} {m : PlainMap} {hist : List (ℕ → Sector)} (k : ℕ) :
      Life sb d c → Logged sb d c w m hist →
      Life sb (applyWrites (w.cache.writes.take k) d)
        (hist.getD (sb.commitsIn (w.cache.writes.take k)) c)

/-! ## What a call writes -/

namespace Sim

variable {sb : SuperBlock} {w w' : World} {m : PlainMap} {c : ℕ}

/-- `cache_end_op` writes nothing, or it commits the group. -/
theorem writes_endOp (h : Sim sb w m) (hroom : w.cache.log.header.numBlocks < sb.numLogBlocks)
    (hs : w.step sb (.endOp c) = some w') :
    if w.commits (.endOp c) then
      w'.cache.writes = w.cache.writes ++
        Bcache.commitWrites sb w.cache.log.header w.cache.view ∧
      w'.cache.disk = applyWrites (Bcache.commitWrites sb w.cache.log.header w.cache.view)
        w.cache.disk ∧
      ∀ b ∈ w.cache.log.header.entries, w.env b = none
    else w'.cache.writes = w.cache.writes ∧ w'.cache.disk = w.cache.disk := by
  simp only [World.step, Option.bind_eq_bind, Option.bind_eq_some_iff, Bcache.cacheEndOp] at hs
  obtain ⟨rm, hrm, s', hend, hs⟩ := hs
  cases hs
  have hpos : 0 < w.cache.log.outstanding := by
    rw [h.reserved.outstanding]
    exact List.length_pos_of_mem (rm_mem hrm)
  have hlast : (w.cache.log.endOp rm).1 = true ↔ w.cache.log.outstanding = 1 := by
    simp only [Log.endOp]
    split
    · simp; omega
    · simp; omega
  split at hend
  · rename_i l hl
    obtain ⟨-, hhdr, -, -⟩ := h.reserved.endOp (rm_mem hrm) hl
    rw [hl] at hlast
    simp only [Option.bind_eq_some_iff] at hend
    obtain ⟨s'', hcommit, hend⟩ := hend
    cases hend
    by_cases hn : 0 < l.header.numBlocks
    · have hcommits : w.commits (.endOp c) = true := by
        simp [World.commits, hlast.mp rfl, ← hhdr, hn]
      obtain ⟨hc₁, habs₁, -⟩ := Bcache.setLog_spec h.coherent l
      have hout : OutsideLog sb l.header := by
        rw [hhdr]
        exact h.outsideLog hroom
      have hfree := Bcache.unheld_of_commit hc₁ hout hn hcommit
      obtain ⟨t, ht, -, habs₂, -⟩ := Bcache.commit_spec hc₁ hout hn hfree
      obtain rfl : t = s'' := Option.some.inj (ht.symm.trans hcommit)
      rw [if_pos hcommits, ← hhdr]
      refine ⟨congrArg Abs.writes habs₂, congrArg Abs.disk habs₂, ?_⟩
      intro b hb
      obtain ⟨i, hi, rfl⟩ := LogHeader.mem_entries.mp hb
      by_contra he
      obtain ⟨p, hp⟩ := Option.ne_none_iff_exists'.mp he
      exact (hfree i hi).2 (h.held_iff.mpr ⟨p, hp⟩)
    · have hcommits : w.commits (.endOp c) = false := by
        simp [World.commits, ← hhdr, Nat.eq_zero_of_not_pos hn]
      rw [Bcache.commit, if_neg hn] at hcommit
      cases hcommit
      simp [hcommits]
  · rename_i l hl
    rw [hl] at hlast
    have hcommits : w.commits (.endOp c) = false := by
      simp [World.commits, mt hlast.mpr (by simp)]
    cases hend
    simp [hcommits]

/-- The calls other than `cache_end_op` and `cache_sync(NULL, ..)` write nothing. -/
theorem writes_of_ne {call : Call} (h : Sim sb w m) (h0 : 0 < sb.numLogBlocks)
    (hin : call.InOp) (hok : call.Allowed sb m) (hne : ∀ c, call ≠ .endOp c)
    (hs : w.step sb call = some w') :
    w'.cache.writes = w.cache.writes ∧ w'.cache.disk = w.cache.disk := by
  cases call with
  | beginOp c =>
      simp only [World.step] at hs
      split at hs
      · cases hs
      · simp only [Option.bind_eq_bind, Option.bind_eq_some_iff, Bcache.cacheBeginOp] at hs
        obtain ⟨⟨rm, s'⟩, hbeg, hs⟩ := hs
        cases hs
        split at hbeg
        · cases hbeg
          exact ⟨rfl, rfl⟩
        · cases hbeg
  | endOp c => exact absurd rfl (hne c)
  | acquire b =>
      simp only [World.step, Option.bind_eq_bind, Option.bind_eq_some_iff] at hs
      obtain ⟨⟨p, s'⟩, hacq, hs⟩ := hs
      cases hs
      obtain ⟨-, A⟩ := Bcache.cacheAcquire_spec h.coherent (client_ne hok h0) hacq
      exact ⟨congrArg Abs.writes A.abs_eq, congrArg Abs.disk A.abs_eq⟩
  | modify b d =>
      simp only [World.step, Option.bind_eq_bind, Option.bind_eq_some_iff] at hs
      obtain ⟨p, -, hs⟩ := hs
      cases hs
      exact ⟨rfl, rfl⟩
  | sync ctx b =>
      cases ctx with
      | none => exact absurd hin id
      | some c =>
          simp only [World.step, Option.bind_eq_bind, Option.bind_eq_some_iff,
            Bcache.cacheSync] at hs
          obtain ⟨p, -, rm, -, ⟨rm', s'⟩, ⟨⟨r, rm'', l⟩, -, hsync⟩, hs⟩ := hs
          cases hs
          cases r <;> cases hsync <;> exact ⟨rfl, rfl⟩
  | release b =>
      simp only [World.step, Option.bind_eq_bind, Option.bind_eq_some_iff, Bcache.cacheRelease,
        Bcache.postLock, Option.map_eq_some_iff] at hs
      obtain ⟨p, -, s', ⟨r, -, rfl⟩, hs⟩ := hs
      cases hs
      exact ⟨rfl, rfl⟩

end Sim

/-! ## Every prefix of a run recovers -/

/-- The invariant of a run between two power losses. -/
structure Logged.Inv (sb : SuperBlock) (disk c : ℕ → Sector) (w : World) (m : PlainMap)
    (hist : List (ℕ → Sector)) : Prop where
  sim : Sim sb w m
  disk_eq : w.cache.disk = applyWrites w.cache.writes disk
  empty : (LogHeader.decode (w.cache.disk sb.logStart)).numBlocks = 0
  length_eq : hist.length = sb.commitsIn w.cache.writes + 1
  cut : ∀ k, RecoversTo sb (applyWrites (w.cache.writes.take k) disk)
    (hist.getD (sb.commitsIn (w.cache.writes.take k)) c)

section Run

variable {sb : SuperBlock} {disk c : ℕ → Sector} {w w' : World} {m : PlainMap}
  {hist : List (ℕ → Sector)} (hsb : logMaxSize < sb.numLogBlocks)
include hsb

theorem RecoversTo.initBcache (hr : RecoversTo sb disk c) {s : Bcache}
    (hs : Bcache.initBcache sb disk = some s) :
    Logged.Inv sb disk c (World.start s) ⟨s.disk, fun _ => none⟩ [c] := by
  obtain ⟨t, ht, -, hw, hd, -⟩ := initBcache_spec (hr.outside hsb)
  obtain rfl : t = s := Option.some.inj (ht.symm.trans hs)
  have hclear : (LogHeader.decode (LogHeader.decode (disk sb.logStart)).clear.encode).numBlocks =
      0 := LogHeader.numBlocks_decode_encode _ (by simp)
  -- no write of a recovery is a header with entries
  have hcount : ∀ k, sb.commitsIn (t.writes.take k) = 0 := by
    intro k
    rw [SuperBlock.commitsIn, List.countP_eq_zero]
    intro x hx
    have hx' := List.mem_of_mem_take hx
    rw [hw, Bcache.recoverWrites, List.mem_append, List.mem_singleton] at hx'
    rcases hx' with hx' | rfl
    · obtain ⟨i, hi, rfl⟩ := List.mem_map.mp hx'
      simp [SuperBlock.isCommit, (hr.outside hsb).ne_logStart (List.mem_range.mp hi)]
    · simp [SuperBlock.isCommit, hclear]
  constructor
  · exact Sim.init hr.valid (lt_of_le_of_lt hr.valid.le hsb) hs
  · exact hd
  · simp only [World.start]
    rw [hd, hw, Bcache.recoverWrites, applyWrites_append, applyWrites_cons, applyWrites_nil,
      Function.update_self]
    exact hclear
  · have := hcount t.writes.length
    rw [List.take_length] at this
    simp [World.start, this]
  · intro k
    simp only [World.start, hcount k]
    rw [hw]
    exact hr.redo hsb hclear k

omit hsb in
/-- The header writes in a prefix of a commit. -/
theorem commitsIn_take_commitWrites {h : LogHeader} {v : ℕ → Sector} (hle : h.numBlocks ≤ logMaxSize)
    (hpos : 0 < h.numBlocks) (hout : OutsideLog sb h) (k : ℕ) :
    sb.commitsIn ((Bcache.commitWrites sb h v).take k) = if k ≤ h.numBlocks then 0 else 1 := by
  have hlen : (Bcache.logWrites sb h v).length = h.numBlocks := by
    simp [Bcache.logWrites]
  have hlog : ∀ x ∈ Bcache.logWrites sb h v, ¬ sb.isCommit x = true := by
    intro x hx
    obtain ⟨i, hi, rfl⟩ := List.mem_map.mp hx
    simp [SuperBlock.isCommit, sb.logBlock_ne_logStart i]
  have hinst : ∀ x ∈ (List.range h.numBlocks).map (fun i => (h.blockNo i, v (h.blockNo i))) ++
      [(sb.logStart, h.clear.encode)], ¬ sb.isCommit x = true := by
    intro x hx
    rcases List.mem_append.mp hx with hx | hx
    · obtain ⟨i, hi, rfl⟩ := List.mem_map.mp hx
      simp [SuperBlock.isCommit, hout.ne_logStart (List.mem_range.mp hi)]
    · rw [List.mem_singleton.mp hx]
      simp [SuperBlock.isCommit, h.clear.numBlocks_decode_encode (by simp)]
  rw [SuperBlock.commitsIn, Bcache.commitWrites]
  by_cases hk : k ≤ h.numBlocks
  · rw [if_pos hk, List.take_append_of_le_length (by rw [hlen]; exact hk), List.countP_eq_zero]
    intro x hx
    exact hlog x (List.mem_of_mem_take hx)
  · obtain ⟨j, hj⟩ : ∃ j, k = (Bcache.logWrites sb h v).length + (j + 1) :=
      ⟨k - h.numBlocks - 1, by omega⟩
    have hhead : sb.isCommit (sb.logStart, h.encode) = true := by
      simp [SuperBlock.isCommit,
        h.numBlocks_decode_encode (lt_of_le_of_lt hle (by decide)), hpos]
    rw [if_neg hk, hj, List.take_length_add_append, List.take_succ_cons, List.countP_append,
      List.countP_cons_of_pos hhead, List.countP_eq_zero.mpr hlog, List.countP_eq_zero.mpr]
    intro x hx
    exact hinst x (List.mem_of_mem_take hx)

namespace Logged.Inv

omit hsb in
theorem of_no_write (h : Logged.Inv sb disk c w m hist) {m' : PlainMap} (hsim : Sim sb w' m')
    (hw : w'.cache.writes = w.cache.writes) (hd : w'.cache.disk = w.cache.disk) :
    Logged.Inv sb disk c w' m' hist := by
  constructor
  · exact hsim
  · rw [hd, hw]
    exact h.disk_eq
  · rw [hd]
    exact h.empty
  · rw [hw]
    exact h.length_eq
  · rw [hw]
    exact h.cut

/-- **A group commit keeps the invariant.** -/
theorem of_commit (h : Logged.Inv sb disk c w m hist) {m' : PlainMap} (hsim : Sim sb w' m')
    (hn : 0 < w.cache.log.header.numBlocks)
    (hw : w'.cache.writes = w.cache.writes ++
      Bcache.commitWrites sb w.cache.log.header w.cache.view)
    (hd : w'.cache.disk =
      applyWrites (Bcache.commitWrites sb w.cache.log.header w.cache.view) w.cache.disk)
    (hfree : ∀ b ∈ w.cache.log.header.entries, w.env b = none) :
    Logged.Inv sb disk c w' m' (hist ++ [m.content]) := by
  have hle := h.sim.reserved.numBlocks_le
  have hout := h.sim.outsideLog (lt_of_le_of_lt hle hsb)
  have hcount := commitsIn_take_commitWrites (v := w.cache.view) hle hn hout
  have hlast : RecoversTo sb w.cache.disk (hist.getD (sb.commitsIn w.cache.writes) c) := by
    have := h.cut w.cache.writes.length
    rwa [List.take_length, ← h.disk_eq] at this
  have hcontent : ∀ b, sb.Client b → m.content b =
      if b ∈ w.cache.log.header.entries then w.cache.view b else w.cache.disk b := by
    intro b hb
    split
    · rename_i hmem
      exact h.sim.in_cache b hmem (hfree b hmem)
    · rename_i hmem
      exact h.sim.on_disk b hb hmem
  have hcommit := hlast.commit hsb h.empty hle h.sim.entry_client h.sim.reserved.nodup hcontent
  have hlen : (Bcache.commitWrites sb w.cache.log.header w.cache.view).length =
      2 * w.cache.log.header.numBlocks + 2 := by
    simp [Bcache.commitWrites, Bcache.logWrites]
    omega
  constructor
  · exact hsim
  · rw [hd, hw, applyWrites_append, ← h.disk_eq]
  · rw [hd, Bcache.commitWrites, applyWrites_append, applyWrites_cons, applyWrites_append,
      applyWrites_cons, applyWrites_nil, Function.update_self]
    exact LogHeader.numBlocks_decode_encode _ (by simp)
  · have := hcount (Bcache.commitWrites sb w.cache.log.header w.cache.view).length
    rw [List.take_length, hlen, if_neg (by omega)] at this
    rw [hw, SuperBlock.commitsIn, List.countP_append, List.length_append, h.length_eq,
      ← SuperBlock.commitsIn, ← SuperBlock.commitsIn, this]
    rfl
  · intro k
    rw [hw]
    by_cases hk : k ≤ w.cache.writes.length
    · -- the writes before this commit
      rw [List.take_append_of_le_length hk, List.getD_append]
      · exact h.cut k
      · rw [h.length_eq]
        have : sb.commitsIn (w.cache.writes.take k) ≤ sb.commitsIn w.cache.writes :=
          (List.take_sublist k w.cache.writes).countP_le
        omega
    · obtain ⟨j, hj⟩ : ∃ j, k = w.cache.writes.length + j :=
        ⟨k - w.cache.writes.length, by omega⟩
      have hidx : sb.commitsIn (w.cache.writes ++
          (Bcache.commitWrites sb w.cache.log.header w.cache.view).take j) =
          sb.commitsIn w.cache.writes + if j ≤ w.cache.log.header.numBlocks then 0 else 1 := by
        rw [SuperBlock.commitsIn, List.countP_append, ← SuperBlock.commitsIn,
          ← SuperBlock.commitsIn, hcount]
      rw [hj, List.take_length_add_append, applyWrites_append, ← h.disk_eq, hidx]
      have := hcommit j
      split at this
      · rename_i hj'
        rw [if_pos hj', Nat.add_zero, List.getD_append]
        · exact this
        · rw [h.length_eq]
          omega
      · rename_i hj'
        rw [if_neg hj', ← h.length_eq, List.getD_append_right _ _ _ _ le_rfl, Nat.sub_self]
        exact this

end Logged.Inv

/-- **Every run keeps the invariant.** -/
theorem Logged.inv (hr : RecoversTo sb disk c) (h : Logged sb disk c w m hist) :
    Logged.Inv sb disk c w m hist := by
  induction h with
  | init hs => exact hr.initBcache hsb hs
  | @step w w' m hist call _ hin hok hs ih =>
      have hroom := lt_of_le_of_lt ih.sim.reserved.numBlocks_le hsb
      have hsim := ih.sim.step (by omega) (fun _ _ => hroom) hok hs
      by_cases hcall : ∃ c, call = .endOp c
      · obtain ⟨c, rfl⟩ := hcall
        have hw := ih.sim.writes_endOp hroom hs
        split at hw
        · rename_i hcommits
          rw [if_pos hcommits]
          have hn : 0 < w.cache.log.header.numBlocks := by
            simp only [World.commits, Bool.and_eq_true, decide_eq_true_eq] at hcommits
            exact hcommits.2
          exact ih.of_commit hsb hsim hn hw.1 hw.2.1 hw.2.2
        · rename_i hcommits
          rw [if_neg hcommits]
          exact ih.of_no_write hsim hw.1 hw.2
      · have hne : ∀ c, call ≠ .endOp c := fun c hc => hcall ⟨c, hc⟩
        have hcommits : w.commits call = false := by
          cases call with
          | endOp c => exact absurd rfl (hne c)
          | _ => rfl
        obtain ⟨hw, hd⟩ := ih.sim.writes_of_ne (by omega) hin hok hne hs
        rw [hcommits]
        exact ih.of_no_write hsim hw hd

theorem Life.recoversTo {d : ℕ → Sector} (h : Life sb d c) : RecoversTo sb d c := by
  induction h with
  | empty hn => exact RecoversTo.of_empty hn (fun _ _ => rfl)
  | powerLoss k _ hrun ih => exact (hrun.inv hsb ih).cut k

/-- **Crash atomicity.**  After any number of power losses, at any point of a run or of a
recovery, `init_bcache` returns, every block outside the log area has its contents after the
last group commit whose header reached the disk, and the header on disk is empty. -/
theorem Life.crash_atomic {d : ℕ → Sector} (h : Life sb d c) :
    ∃ s, Bcache.initBcache sb d = some s ∧ (∀ b, sb.Client b → s.disk b = c b) ∧
      (LogHeader.decode (s.disk sb.logStart)).numBlocks = 0 := by
  have hr := h.recoversTo hsb
  obtain ⟨s, hs, -⟩ := initBcache_spec (hr.outside hsb)
  have hinv := hr.initBcache hsb hs
  refine ⟨s, hs, ?_, hinv.empty⟩
  intro b hb
  have hcut := hinv.cut s.writes.length
  have hdisk : s.disk = applyWrites s.writes d := hinv.disk_eq
  simp only [World.start] at hcut
  rw [List.take_length, ← hdisk] at hcut
  have hidx : sb.commitsIn s.writes = 0 := by
    have := hinv.length_eq
    simpa [World.start] using this
  rw [hidx] at hcut
  exact hcut.eq_of_empty hinv.empty hb

end Run

/-! ## A power loss inside a group commit -/

instance : (call : Call) → Decidable call.InOp
  | .sync none _ => isFalse id
  | .sync (some _) _ => isTrue trivial
  | .beginOp _ => isTrue trivial
  | .endOp _ => isTrue trivial
  | .acquire _ => isTrue trivial
  | .modify _ _ => isTrue trivial
  | .release _ => isTrue trivial

instance (sb : SuperBlock) (m : PlainMap) : (call : Call) → Decidable (call.Allowed sb m)
  | .acquire b => inferInstanceAs (Decidable (¬ sb.InLog b ∧ b < 2 ^ 64))
  | .release b => inferInstanceAs (Decidable (m.buf b = some (m.content b)))
  | .sync _ _ => isTrue trivial
  | .beginOp _ => isTrue trivial
  | .endOp _ => isTrue trivial
  | .modify _ _ => isTrue trivial

/-- The calls in order, each of which keeps the client's side of the contract. -/
def World.play (sb : SuperBlock) (w : World) (m : PlainMap) (hist : List (ℕ → Sector)) :
    List Call → Option (World × PlainMap × List (ℕ → Sector))
  | [] => some (w, m, hist)
  | call :: calls =>
      if call.InOp ∧ call.Allowed sb m then
        (w.step sb call).bind fun w' =>
          play sb w' (m.step call) (if w.commits call then hist ++ [m.content] else hist) calls
      else none

/-- What is played is a run. -/
theorem Logged.of_play {sb : SuperBlock} {disk c : ℕ → Sector} {w w' : World} {m m' : PlainMap}
    {hist hist' : List (ℕ → Sector)} (calls : List Call) (h : Logged sb disk c w m hist)
    (hp : w.play sb m hist calls = some (w', m', hist')) : Logged sb disk c w' m' hist' := by
  induction calls generalizing w m hist with
  | nil =>
      cases hp
      exact h
  | cons call calls ih =>
      rw [World.play] at hp
      split at hp
      · rename_i hok
        obtain ⟨w'', hs, hp⟩ := Option.bind_eq_some_iff.mp hp
        exact ih (h.step call hok.1 hok.2 hs) hp
      · cases hp

namespace CutCommit

/-- The super block of `mkfs`, with room for every group in its log area. -/
def sb : SuperBlock := Mkfs.sb.wideLog

def disk : ℕ → Sector := fun _ => Bytes.zero

def ones : Sector := Bytes.ofFn fun _ => 1

def twos : Sector := Bytes.ofFn fun _ => 2

/-- Two operations overlap, and each of them changes a block. -/
def calls : List Call :=
  [.beginOp 0, .acquire 500, .beginOp 1, .modify 500 ones, .acquire 600, .sync (some 0) 500,
    .modify 600 twos, .release 500, .endOp 0, .sync (some 1) 600, .release 600, .endOp 1]

/-- The run of these calls. -/
def run : Option (World × PlainMap × List (ℕ → Sector)) :=
  (Bcache.initBcache sb disk).bind fun s =>
    (World.start s).play sb ⟨s.disk, fun _ => none⟩ [disk] calls

/-- The device where the power is lost after the first block of the group has been installed: the
commit has written two log copies and the header. -/
def cut (w : World) : ℕ → Sector := applyWrites (w.cache.writes.take 5) disk

/-- The contents after the last group commit whose header write is on the device. -/
def kept (w : World) (hist : List (ℕ → Sector)) : ℕ → Sector :=
  hist.getD (sb.commitsIn (w.cache.writes.take 5)) disk

theorem play_run : ∃ w m hist, run = some (w, m, hist) ∧ cut w 500 = ones ∧ cut w 600 = disk 600 ∧
    kept w hist 500 = ones ∧ kept w hist 600 = twos := by
  have hrun : run.map (fun x => (cut x.1 500, cut x.1 600, kept x.1 x.2.2 500, kept x.1 x.2.2 600)) =
      some (ones, disk 600, ones, twos) := by decide +kernel
  obtain ⟨⟨w, m, hist⟩, hw, hx⟩ := Option.map_eq_some_iff.mp hrun
  simp only [Prod.mk.injEq] at hx
  exact ⟨w, m, hist, hw, hx⟩

/-- A first write of a recovery commits nothing. -/
theorem commitsIn_recovery : ((run.bind fun x => Bcache.initBcache sb (cut x.1)).map
    fun s => sb.commitsIn (s.writes.take 1)) = some 0 := by decide +kernel

end CutCommit

open CutCommit in
/-- Two operations are committed as one group.  The power is lost between the installation of its
two blocks, then again after the first write of the recovery. -/
theorem crash_atomic_cut : ∃ w m hist s₁ s, run = some (w, m, hist) ∧
    cut w 500 = ones ∧ cut w 600 = disk 600 ∧ Bcache.initBcache sb (cut w) = some s₁ ∧
    Bcache.initBcache sb (applyWrites (s₁.writes.take 1) (cut w)) = some s ∧
    s.disk 500 = ones ∧ s.disk 600 = twos ∧
    (LogHeader.decode (s.disk sb.logStart)).numBlocks = 0 := by
  have hsb : logMaxSize < sb.numLogBlocks := by decide
  obtain ⟨w, m, hist, hrun, hfirst, hsecond, hkept₅, hkept₆⟩ := play_run
  obtain ⟨s₀, hs₀, hplay⟩ := Option.bind_eq_some_iff.mp hrun
  have hlife : Life sb disk disk :=
    .empty (Overfull.numBlocks_decode_zero (fun _ => rfl) sb.logStart)
  have hcut : Life sb (cut w) (kept w hist) :=
    .powerLoss 5 hlife (Logged.of_play calls (.init hs₀) hplay)
  obtain ⟨s₁, hs₁, -⟩ := initBcache_spec ((hcut.recoversTo hsb).outside hsb)
  have hzero : sb.commitsIn (s₁.writes.take 1) = 0 := by
    have h := commitsIn_recovery
    rw [hrun, Option.bind_some, hs₁, Option.map_some] at h
    exact Option.some.inj h
  obtain ⟨s, hs, hc, hn⟩ := Life.crash_atomic hsb (.powerLoss 1 hcut (.init hs₁))
  have hc' : ∀ b, sb.Client b → s.disk b = kept w hist b := by
    intro b hb
    rw [hc b hb]
    simp only [World.start, hzero, List.getD_cons_zero]
  refine ⟨w, m, hist, s₁, s, hrun, hfirst, hsecond, hs₁, hs, ?_, ?_, hn⟩
  · rw [hc' 500 ⟨by decide, by simp⟩]
    exact hkept₅
  · rw [hc' 600 ⟨by decide, by simp⟩]
    exact hkept₆

end OsLab
