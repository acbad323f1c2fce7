import OsLab.Driver.Sd
import OsLab.Lib.Linear

/-!
# The block device

`sd_read` and `sd_write` of `fs/block_device.c`, each of which makes a `struct buf` on its stack and
gives it to `sdrw`.  The partition of the file system begins at block `BLOCKNO_OFFSET` of the card,
and a block number is 32 bits wide.

The log and the block cache call the device as if each read and each write were one step.  Here any
number of processes are in `sd_read` and `sd_write` at once, and a step is one of `SdSys`.

## Main definitions

* `BlockCall`, `BlockCall.buf`, `BlockCall.apply` — the calls, their buffers, and what they do on
  one device, one at a time.
* `BdSys`, `BdSys.step` — the processes and the driver.
* `BdSys.Rel` — which calls have taken effect.
* `block_device_linear` — the result over runs.
-/

namespace OsLab

/-- `BLOCKNO_OFFSET` -/
def blocknoOffset : ℕ := 0x20800

/-- `(u32)block_no + BLOCKNO_OFFSET` -/
def cardBlock (blockNo : ℕ) : ℕ := (blockNo % 2 ^ 32 + blocknoOffset) % 2 ^ 32

theorem cardBlock_mod (n : ℕ) : cardBlock (n % 2 ^ 32) = cardBlock n := by
  rw [cardBlock, Nat.mod_mod, cardBlock]

/-- Different blocks of the device are different blocks of the card. -/
theorem cardBlock_inj {m n : ℕ} (h : cardBlock m = cardBlock n) : m % 2 ^ 32 = n % 2 ^ 32 := by
  simp only [cardBlock, blocknoOffset] at h
  omega

/-- A call of the device; the result of `sd_read` is what it copies to `buffer`. -/
inductive BlockCall (α : Type)
  | read (blockNo : ℕ)
  | write (blockNo : ℕ) (buffer : α)
  deriving DecidableEq

namespace BlockCall

variable {α : Type}

/-- The `struct buf` that is given to `sdrw`; `junk` is what its stack slot holds. -/
def buf (junk : α) : BlockCall α → Buf α
  | .read n => ⟨cardBlock n, ⟨false, false⟩, junk⟩
  | .write n d => ⟨cardBlock n, ⟨true, true⟩, d⟩

/-- What the call returns once `sdrw` has, from its buffer. -/
def result (b : Buf α) : BlockCall α → Option α
  | .read _ => some b.data
  | .write _ _ => none

/-- The call on a device with `2 ^ 32` blocks. -/
def apply (dev : ℕ → α) : BlockCall α → Option α × (ℕ → α)
  | .read n => (some (dev (n % 2 ^ 32)), dev)
  | .write n d => (none, Function.update dev (n % 2 ^ 32) d)

end BlockCall

/-- The driver, the function each process is in, and what was called and returned. -/
structure BdSys (α : Type) where
  sd : SdSys α
  fn : ℕ → Option (BlockCall α)
  events : List (CallEvent ℕ (BlockCall α) (Option α))

inductive BdAct (α : Type)
  | call (i : BlockCall α) (junk : α)
  /-- a step inside `sdrw`, or an interrupt -/
  | run (a : SdAct α)

namespace BdSys

variable {α : Type}

def init (disk : ℕ → α) (b : Buf α) : BdSys α := ⟨.init disk b, fun _ => none, []⟩

/-- `sdrw` has returned to process `t`, which was at the test of its loop in `s`. -/
def finish (s : BdSys α) (t : ℕ) (sd : SdSys α) : BdSys α :=
  match s.fn t, s.sd.pc t with
  | some i, .test r _ _ =>
      { sd := sd
        fn := Function.update s.fn t none
        events := s.events ++ [.ret t (i.result (sd.buf r))] }
  | _, _ => { s with sd := sd }

theorem finish_sd (s : BdSys α) (t : ℕ) (sd : SdSys α) : (s.finish t sd).sd = sd := by
  rw [finish]
  split <;> rfl

/-- One step of process `t`. -/
def step (s : BdSys α) (x : ℕ × BdAct α) : Option (BdSys α) :=
  match x.2 with
  | .call i junk =>
      (s.sd.step (x.1, .call (i.buf junk))).map fun sd =>
        { sd := sd
          fn := Function.update s.fn x.1 (some i)
          events := s.events ++ [.call x.1 i] }
  | .run (.call _) => none
  | .run .test =>
      (s.sd.step (x.1, .test)).map fun sd =>
        if sd.pc x.1 = .idle then s.finish x.1 sd else { s with sd := sd }
  | .run a => (s.sd.step (x.1, a)).map fun sd => { s with sd := sd }

/-- The step of the driver that a step is. -/
def sdAct : ℕ × BdAct α → ℕ × SdAct α
  | (t, .call i junk) => (t, .call (i.buf junk))
  | (t, .run a) => (t, a)

/-! ## Which calls have taken effect -/

end BdSys

/-- The request of a process that has pushed it. -/
def SdPc.pushedReq : SdPc → Option ℕ
  | .idle => none
  | .entered _ => none
  | .pushed r _ => some r
  | .test r _ _ => some r
  | .wait r _ _ => some r
  | .asleep r _ _ => some r

theorem SdPc.req_of_pushedReq {pc : SdPc} {r : ℕ} (h : pc.pushedReq = some r) :
    pc.req = some r := by
  cases pc <;> first | exact h | cases h

/-- The buffer of a request is as the call has filled it. -/
def BlockCall.Fills {α : Type} (i : BlockCall α) (b : Buf α) : Prop := ∃ junk, b = i.buf junk

/-- The buffer of a request whose bytes are not moved: as the call has filled it, but for the flags
of a write that `sd_intr` has in its hand. -/
def BlockCall.Waits {α : Type} (i : BlockCall α) (sd : SdSys α) (r : ℕ) : Prop :=
  (sd.intr.inHand ≠ some r ∧ i.Fills (sd.buf r)) ∨
    (sd.intr.inHand = some r ∧ ∃ n d flags, i = .write n d ∧ sd.buf r = ⟨cardBlock n, flags, d⟩)

namespace BdSys

variable {α : Type} {s s' : BdSys α} {sd : SdSys α} {dev dev' : ℕ → α} {t : ℕ}
  {m : ℕ → Moment (BlockCall α) (Option α)}

/-- Where process `t` is, seen from outside: a call takes effect when its bytes are moved. -/
inductive At (s : BdSys α) (t : ℕ) : Moment (BlockCall α) (Option α) → Prop
  | idle (pc : s.sd.pc t = .idle) (fn : s.fn t = none) : At s t .idle
  | entered (r : ℕ) (i : BlockCall α) (pc : s.sd.pc t = .entered r) (fn : s.fn t = some i)
      (fills : i.Fills (s.sd.buf r)) : At s t (.called i)
  | queued (r : ℕ) (i : BlockCall α) (pc : (s.sd.pc t).pushedReq = some r) (fn : s.fn t = some i)
      (waits : i.Waits s.sd r) (notMoved : ¬ Moved s.sd r) : At s t (.called i)
  | served (r : ℕ) (i : BlockCall α) (pc : (s.sd.pc t).pushedReq = some r) (fn : s.fn t = some i)
      (moved : Moved s.sd r) : At s t (.done (i.result (s.sd.buf r)))

theorem At.of_idle {p : Moment (BlockCall α) (Option α)} (h : At s t p)
    (hpc : s.sd.pc t = .idle) : p = .idle := by
  cases h with
  | idle pc fn => rfl
  | entered r i pc fn fills => rw [hpc] at pc; cases pc
  | queued r i pc fn waits notMoved => rw [hpc] at pc; cases pc
  | served r i pc fn moved => rw [hpc] at pc; cases pc

theorem At.of_entered {p : Moment (BlockCall α) (Option α)} {r : ℕ} (h : At s t p)
    (hpc : s.sd.pc t = .entered r) :
    ∃ i, s.fn t = some i ∧ i.Fills (s.sd.buf r) ∧ p = .called i := by
  cases h with
  | idle pc fn => rw [hpc] at pc; cases pc
  | entered r' i pc fn fills =>
      rw [hpc] at pc
      cases pc
      exact ⟨i, fn, fills, rfl⟩
  | queued r' i pc fn waits notMoved => rw [hpc] at pc; cases pc
  | served r' i pc fn moved => rw [hpc] at pc; cases pc

theorem At.of_pushed {p : Moment (BlockCall α) (Option α)} {r : ℕ} (h : At s t p)
    (hpc : (s.sd.pc t).pushedReq = some r) : ∃ i, s.fn t = some i ∧
      (¬ Moved s.sd r → i.Waits s.sd r ∧ p = .called i) ∧
      (Moved s.sd r → p = .done (i.result (s.sd.buf r))) := by
  cases h with
  | idle pc fn => rw [pc] at hpc; cases hpc
  | entered r' i pc fn fills => rw [pc] at hpc; cases hpc
  | queued r' i pc fn waits notMoved =>
      rw [hpc] at pc
      cases pc
      exact ⟨i, fn, fun _ => ⟨waits, rfl⟩, fun hmoved => absurd hmoved notMoved⟩
  | served r' i pc fn moved =>
      rw [hpc] at pc
      cases pc
      exact ⟨i, fn, fun hnot => absurd moved hnot, fun _ => rfl⟩

/-- The card holds what the device does, and each process is where `m` says. -/
structure Rel (s : BdSys α) (dev : ℕ → α) (m : ℕ → Moment (BlockCall α) (Option α)) : Prop where
  disk : ∀ n, s.sd.disk (cardBlock n) = dev (n % 2 ^ 32)
  at_ : ∀ t, At s t (m t)
  owner : ∀ r, r ∈ s.sd.bqueue ∨ s.sd.intr.inHand = some r → ∃ t, (s.sd.pc t).pushedReq = some r

/-- Steps that do not move a request. -/
structure Quiet (sd sd' : SdSys α) : Prop where
  disk : sd'.disk = sd.disk
  buf : sd'.buf = sd.buf
  bqueue : sd'.bqueue = sd.bqueue
  transfers : sd'.transfers = sd.transfers
  hand : sd'.intr.inHand = sd.intr.inHand
  pc : ∀ t, sd'.pc t = sd.pc t ∨ ∃ r, (sd.pc t).pushedReq = some r ∧ (sd'.pc t).pushedReq = some r

theorem Quiet.pushedReq {sd sd' : SdSys α} (h : Quiet sd sd') (t : ℕ) :
    (sd'.pc t).pushedReq = (sd.pc t).pushedReq := by
  rcases h.pc t with hpc | ⟨r, hr, hr'⟩
  · rw [hpc]
  · rw [hr, hr']

theorem At.quiet {p : Moment (BlockCall α) (Option α)} (h : At s t p) (hq : Quiet s.sd sd) :
    At { s with sd := sd } t p := by
  have hsame : (s.sd.pc t).pushedReq = none → sd.pc t = s.sd.pc t := by
    intro hnone
    rcases hq.pc t with hpc | ⟨r, hr, -⟩
    · exact hpc
    · rw [hnone] at hr
      cases hr
  cases h with
  | idle pc fn => exact .idle ((hsame (by rw [pc]; rfl)).trans pc) fn
  | entered r i pc fn fills =>
      refine .entered r i ((hsame (by rw [pc]; rfl)).trans pc) fn ?_
      change i.Fills (sd.buf r)
      rwa [hq.buf]
  | queued r i pc fn waits notMoved =>
      refine .queued r i ((hq.pushedReq t).trans pc) fn ?_ ?_
      · change i.Waits sd r
        rwa [BlockCall.Waits, hq.buf, hq.hand]
      · change ¬ Moved sd r
        rwa [Moved, hq.transfers]
  | served r i pc fn moved =>
      rw [← hq.buf]
      refine .served r i ((hq.pushedReq t).trans pc) fn ?_
      change Moved sd r
      rwa [Moved, hq.transfers]

theorem Rel.quiet (h : Rel s dev m) (hq : Quiet s.sd sd) : Rel { s with sd := sd } dev m where
  disk := by
    change ∀ n, sd.disk (cardBlock n) = dev (n % 2 ^ 32)
    rw [hq.disk]
    exact h.disk
  at_ := fun t => (h.at_ t).quiet hq
  owner := by
    intro r hr
    change r ∈ sd.bqueue ∨ sd.intr.inHand = some r at hr
    rw [hq.bqueue, hq.hand] at hr
    obtain ⟨t, ht⟩ := h.owner r hr
    exact ⟨t, (hq.pushedReq t).trans ht⟩

/-- One process goes on. -/
theorem Quiet.setPc {pc' : SdPc} {r : ℕ} {sem : Semaphore} (hpc : (sd.pc t).pushedReq = some r)
    (hpc' : pc'.pushedReq = some r) : Quiet sd { sd.setPc t pc' with rwDone := sem } where
  disk := rfl
  buf := rfl
  bqueue := rfl
  transfers := rfl
  hand := rfl
  pc := by
    intro u
    by_cases hut : u = t
    · subst hut
      exact .inr ⟨r, hpc, by simpa [SdSys.setPc] using hpc'⟩
    · exact .inl (Function.update_of_ne hut ..)

theorem Quiet.post {sd' : SdSys α} (h : sd.post = some sd') : Quiet sd sd' := by
  rw [SdSys.post, Option.map_eq_some_iff] at h
  obtain ⟨⟨w, sem⟩, -, rfl⟩ := h
  have hsem : Quiet sd { sd with rwDone := sem } :=
    ⟨rfl, rfl, rfl, rfl, rfl, fun _ => .inl rfl⟩
  cases w with
  | none => exact hsem
  | some t =>
      cases hpc : sd.pc t with
      | asleep q first saved =>
          simp only [hpc]
          exact Quiet.setPc (r := q) (by rw [hpc]; rfl) rfl
      | idle | entered | pushed | test | wait =>
          simp only [hpc]
          exact hsem

/-! ## Steps -/

/-- A process whose own request nobody touches. -/
theorem At.congr {p : Moment (BlockCall α) (Option α)} (h : At s t p)
    (hpc : s'.sd.pc t = s.sd.pc t) (hfn : s'.fn t = s.fn t)
    (hbuf : ∀ r, (s.sd.pc t).req = some r → s'.sd.buf r = s.sd.buf r)
    (hmoved : ∀ r, (s.sd.pc t).pushedReq = some r → (Moved s'.sd r ↔ Moved s.sd r))
    (hhand : ∀ r, (s.sd.pc t).pushedReq = some r →
      (s'.sd.intr.inHand = some r ↔ s.sd.intr.inHand = some r)) : At s' t p := by
  cases h with
  | idle pc fn => exact .idle (hpc.trans pc) (hfn.trans fn)
  | entered r i pc fn fills =>
      refine .entered r i (hpc.trans pc) (hfn.trans fn) ?_
      rwa [hbuf r (by rw [pc]; rfl)]
  | queued r i pc fn waits notMoved =>
      refine .queued r i (by rw [hpc, pc]) (hfn.trans fn) ?_ (mt (hmoved r pc).mp notMoved)
      rwa [BlockCall.Waits, hbuf r (SdPc.req_of_pushedReq pc), Ne, hhand r pc]
  | served r i pc fn moved =>
      rw [← hbuf r (SdPc.req_of_pushedReq pc)]
      exact .served r i (by rw [hpc, pc]) (hfn.trans fn) ((hmoved r pc).mpr moved)

/-- `sd_read` or `sd_write` is called. -/
theorem Rel.call {i : BlockCall α} {junk : α} {l : List (CallEvent ℕ (BlockCall α) (Option α))}
    (h : Rel s dev m) (hinv : SdInv s.sd)
    (hs : s.sd.step (t, .call (i.buf junk)) = some sd) : m t = .idle ∧
      Rel ⟨sd, Function.update s.fn t (some i), l⟩ dev (Function.update m t (.called i)) := by
  simp only [SdSys.step] at hs
  split at hs
  · rename_i hidle
    cases hs
    refine ⟨(h.at_ t).of_idle hidle, h.disk, ?_, ?_⟩
    · intro u
      by_cases hut : u = t
      · subst hut
        rw [Function.update_self]
        refine .entered s.sd.calls i (Function.update_self ..) (Function.update_self ..) ⟨junk, ?_⟩
        exact Function.update_self ..
      · rw [Function.update_of_ne hut]
        refine (h.at_ u).congr (Function.update_of_ne hut ..) (Function.update_of_ne hut ..) ?_
          (fun _ _ => Iff.rfl) fun _ _ => Iff.rfl
        intro r hr
        exact Function.update_of_ne (hinv.used u r hr).ne ..
    · intro r hr
      obtain ⟨u, hu⟩ := h.owner r hr
      have hut : u ≠ t := by
        rintro rfl
        rw [hidle] at hu
        cases hu
      refine ⟨u, ?_⟩
      change (Function.update s.sd.pc t _ u).pushedReq = some r
      rwa [Function.update_of_ne hut]
  · cases hs

/-- The buffer is pushed into the empty queue. -/
theorem Rel.push (h : Rel s dev m) (hinv : SdInv s.sd) (hempty : s.sd.bqueue = [])
    (hs : s.sd.step (t, .push) = some sd) :
    Rel { s with sd := sd } dev m := by
  simp only [SdSys.step] at hs
  split at hs
  · rename_i r hpc hidle
    simp only [hempty, List.nil_append] at hs
    cases hs
    have hw := hinv.watches t
    rw [hpc] at hw
    refine ⟨h.disk, ?_, ?_⟩
    · intro u
      by_cases hut : u = t
      · subst hut
        obtain ⟨i, fn, fills, hm⟩ := (h.at_ u).of_entered hpc
        rw [hm]
        exact .queued r i (by simp [SdSys.setPc, SdPc.pushedReq]) fn (.inl ⟨hw.2.1, fills⟩) hw.2.2
      · exact (h.at_ u).congr (Function.update_of_ne hut ..) rfl (fun _ _ => rfl)
          (fun _ _ => Iff.rfl) fun _ _ => Iff.rfl
    · intro r' hr'
      rcases hr' with hr' | hr'
      · obtain rfl := List.mem_singleton.mp hr'
        exact ⟨t, by simp [SdSys.setPc, SdPc.pushedReq]⟩
      · simp [SdSys.setPc, hidle, SdIntr.inHand] at hr'
  · cases hs

/-- The test of the loop goes round, or `sdrw` returns. -/
theorem Rel.test (h : Rel s dev m) (hinv : SdInv s.sd) (hok : Outstanding s.sd (t, .test))
    (hs : s.sd.step (t, .test) = some sd) :
    (sd.pc t ≠ .idle ∧ Rel { s with sd := sd } dev m) ∨
      ∃ r, sd.pc t = .idle ∧ m t = .done r ∧
        (s.finish t sd).events = s.events ++ [.ret t r] ∧
        Rel (s.finish t sd) dev (Function.update m t .idle) := by
  simp only [SdSys.step] at hs
  split at hs
  · rename_i r first saved hpc
    split at hs
    · cases hs
      refine .inl ⟨by simp [SdSys.setPc], h.quiet ?_⟩
      exact Quiet.setPc (r := r) (by rw [hpc]; rfl) rfl
    · rename_i hne
      cases hs
      right
      obtain ⟨-, hnot, hout, hholds⟩ := hinv.served_of_test hpc hok hne
      have hreq : (s.sd.pc t).pushedReq = some r := by rw [hpc]; rfl
      obtain ⟨i, fn, -, hserved⟩ := (h.at_ t).of_pushed hreq
      refine ⟨i.result (s.sd.buf r), by simp [SdSys.setPc], hserved hholds.moved, ?_, ?_⟩
      · simp [finish, fn, hpc, SdSys.setPc]
      · simp only [finish, fn, hpc]
        refine ⟨h.disk, ?_, ?_⟩
        · intro u
          by_cases hut : u = t
          · subst hut
            rw [Function.update_self]
            exact .idle (Function.update_self ..) (Function.update_self ..)
          · rw [Function.update_of_ne hut]
            exact (h.at_ u).congr (Function.update_of_ne hut ..) (Function.update_of_ne hut ..)
              (fun _ _ => rfl) (fun _ _ => Iff.rfl) fun _ _ => Iff.rfl
        · intro r' hr'
          obtain ⟨u, hu⟩ := h.owner r' hr'
          have hut : u ≠ t := by
            rintro rfl
            rw [hpc] at hu
            cases hu
            exact hr'.elim hnot hout
          refine ⟨u, ?_⟩
          change (Function.update s.sd.pc t _ u).pushedReq = some r'
          rwa [Function.update_of_ne hut]
  · cases hs

/-- `flag_save` is read. -/
theorem Rel.save (h : Rel s dev m) (hs : s.sd.step (t, .save) = some sd) :
    Rel { s with sd := sd } dev m := by
  simp only [SdSys.step] at hs
  split at hs
  · rename_i r first hpc
    cases hs
    exact h.quiet (Quiet.setPc (r := r) (by rw [hpc]; rfl) rfl)
  · cases hs

/-- `wait_sem(&rw_done)` -/
theorem Rel.wait (h : Rel s dev m) (hs : s.sd.step (t, .wait) = some sd) :
    Rel { s with sd := sd } dev m := by
  simp only [SdSys.step] at hs
  split at hs
  · rename_i r first saved hpc
    split at hs <;> cases hs <;> exact h.quiet (Quiet.setPc (r := r) (by rw [hpc]; rfl) rfl)
  · cases hs

/-- **A step of `sd_intr` that touches no request but `r`**, which process `t` has pushed. -/
theorem Rel.handles {r : ℕ} {p : Moment (BlockCall α) (Option α)} (h : Rel s dev m)
    (hinv : SdInv s.sd) (ht : (s.sd.pc t).pushedReq = some r) (hpc : sd.pc = s.sd.pc)
    (hbuf : ∀ q, q ≠ r → sd.buf q = s.sd.buf q) (hmoved : ∀ q, q ≠ r → (Moved sd q ↔ Moved s.sd q))
    (hhand : ∀ q, q ≠ r → (sd.intr.inHand = some q ↔ s.sd.intr.inHand = some q))
    (hq : ∀ q ∈ sd.bqueue, q ∈ s.sd.bqueue) (hdisk : ∀ n, sd.disk (cardBlock n) = dev' (n % 2 ^ 32))
    (hat : At { s with sd := sd } t p) :
    Rel { s with sd := sd } dev' (Function.update m t p) := by
  refine ⟨hdisk, ?_, ?_⟩
  · intro u
    by_cases hut : u = t
    · subst hut
      rwa [Function.update_self]
    · rw [Function.update_of_ne hut]
      have hne : ∀ r', (s.sd.pc u).req = some r' → r' ≠ r := by
        rintro r' hr' rfl
        exact hut (hinv.inj u t r' hr' (SdPc.req_of_pushedReq ht))
      exact (h.at_ u).congr (congrFun hpc u) rfl (fun r' hr' => hbuf r' (hne r' hr'))
        (fun r' hr' => hmoved r' (hne r' (SdPc.req_of_pushedReq hr')))
        fun r' hr' => hhand r' (hne r' (SdPc.req_of_pushedReq hr'))
  · intro r' hr'
    change ∃ u, (sd.pc u).pushedReq = some r'
    rw [hpc]
    by_cases hr : r' = r
    · exact ⟨t, hr ▸ ht⟩
    · exact h.owner r' (hr'.imp (hq r') (hhand r' hr).mp)

/-- The call of process `t` stays where it is. -/
theorem Rel.handles_quiet {r : ℕ} (h : Rel s dev m) (hinv : SdInv s.sd)
    (ht : (s.sd.pc t).pushedReq = some r) (hpc : sd.pc = s.sd.pc)
    (hbuf : ∀ q, q ≠ r → sd.buf q = s.sd.buf q) (hmoved : ∀ q, Moved sd q ↔ Moved s.sd q)
    (hhand : ∀ q, q ≠ r → (sd.intr.inHand = some q ↔ s.sd.intr.inHand = some q))
    (hq : ∀ q ∈ sd.bqueue, q ∈ s.sd.bqueue) (hdisk : sd.disk = s.sd.disk)
    (hat : At { s with sd := sd } t (m t)) : Rel { s with sd := sd } dev m := by
  have hrel := h.handles hinv ht hpc hbuf (fun q _ => hmoved q) hhand hq
    (fun n => by rw [hdisk]; exact h.disk n) hat
  rwa [Function.update_eq_self] at hrel

/-- The card interrupts: a read takes effect when its words are loaded. -/
theorem Rel.intr (h : Rel s dev m) (hinv : SdInv s.sd) (hs : s.sd.sdIntr = some sd) :
    Rel { s with sd := sd } dev m ∨ ∃ t i, m t = .called i ∧
      Rel { s with sd := sd } (i.apply dev).2 (Function.update m t (.done (i.apply dev).1)) := by
  rw [SdSys.sdIntr] at hs
  split at hs
  · rename_i r rest hidle hq
    have hmem : r ∈ s.sd.bqueue := hq ▸ List.mem_cons_self
    have hnot := hinv.does
    rw [hidle] at hnot
    obtain ⟨t, ht⟩ := h.owner r (.inl hmem)
    obtain ⟨i, hfn, hwaits, -⟩ := (h.at_ t).of_pushed ht
    obtain ⟨⟨-, junk, hfill⟩ | ⟨hhand, -⟩, hm⟩ := hwaits (hnot r hmem)
    · simp only [hfill] at hs
      cases i with
      | read n =>
          simp only [BlockCall.buf, Bool.false_eq_true, if_false] at hs
          cases hs
          refine .inr ⟨t, .read n, hm, ?_⟩
          refine h.handles hinv ht rfl (fun q hne => Function.update_of_ne hne ..)
            (fun q hne => moved_cons rfl hne) ?_ (fun _ => id) h.disk ?_
          · intro q _
            rw [hidle]
            exact Iff.rfl
          · have hres : (BlockCall.read n).result (⟨cardBlock n, ⟨false, false⟩,
                s.sd.disk (cardBlock n)⟩ : Buf α) = ((BlockCall.read n).apply dev).1 :=
              congrArg some (h.disk n)
            rw [← hres]
            have hat := At.served (s := { s with sd := { s.sd with
              buf := Function.update s.sd.buf r
                ⟨cardBlock n, ⟨false, false⟩, s.sd.disk (cardBlock n)⟩
              transfers := ⟨r, false, s.sd.disk (cardBlock n)⟩ :: s.sd.transfers
              intr := .loaded r } }) r (.read n) ht hfn ⟨_, List.mem_cons_self, rfl⟩
            simpa only [Function.update_self] using hat
      | write n d =>
          simp only [BlockCall.buf, if_true] at hs
          cases hs
          refine .inl (h.handles_quiet hinv ht rfl (fun q hne => Function.update_of_ne hne ..)
            (fun _ => Iff.rfl) ?_ (fun _ => id) rfl ?_)
          · intro q hne
            rw [hidle]
            simp [SdIntr.inHand, hne.symm]
          · rw [hm]
            refine .queued r (.write n d) ht hfn (.inr ⟨rfl, n, d, ⟨false, true⟩, rfl, ?_⟩)
              (hnot r hmem)
            simp [SdSys.setValid, hfill, BlockCall.buf]
    · rw [hidle] at hhand
      cases hhand
  · cases hs

theorem Rel.disk_write (h : Rel s dev m) (n : ℕ) (d : α) (k : ℕ) :
    Function.update s.sd.disk (cardBlock n) d (cardBlock k) =
      ((BlockCall.write n d).apply dev).2 (k % 2 ^ 32) := by
  simp only [BlockCall.apply]
  by_cases hk : k % 2 ^ 32 = n % 2 ^ 32
  · have hc : cardBlock k = cardBlock n := by rw [← cardBlock_mod, hk, cardBlock_mod]
    rw [hc, hk, Function.update_self, Function.update_self]
  · have hc : cardBlock k ≠ cardBlock n := fun hc => hk (cardBlock_inj hc)
    rw [Function.update_of_ne hc, Function.update_of_ne hk]
    exact h.disk k

/-- `sd_intr` goes on: a write takes effect when the card is done. -/
theorem Rel.intrRun (h : Rel s dev m) (hinv : SdInv s.sd) (hs : s.sd.sdIntrRun = some sd) :
    Rel { s with sd := sd } dev m ∨ ∃ t i, m t = .called i ∧
      Rel { s with sd := sd } (i.apply dev).2 (Function.update m t (.done (i.apply dev).1)) := by
  have hdoes := hinv.does
  cases hintr : s.sd.intr with
  | idle => simp [SdSys.sdIntrRun, hintr] at hs
  | loaded r =>
      simp only [SdSys.sdIntrRun, hintr, Option.some.injEq] at hs
      rw [hintr] at hdoes
      obtain ⟨hq, hholds⟩ := hdoes
      obtain ⟨t, ht⟩ := h.owner r (.inl (hq ▸ List.mem_singleton_self r))
      obtain ⟨i, hfn, -, hserved⟩ := (h.at_ t).of_pushed ht
      rw [← hs]
      refine .inl (h.handles_quiet hinv ht rfl (fun q hne => Function.update_of_ne hne ..)
        (fun _ => Iff.rfl) ?_ (fun _ => id) rfl ?_)
      · intro q hne
        rw [hintr]
        simp [SdIntr.inHand, hne.symm]
      · rw [hserved hholds.moved]
        have hat := At.served (s := { s with sd := { s.sd.setValid r with intr := .stored r false } })
          r i ht hfn hholds.moved
        rwa [show i.result ((s.sd.setValid r).buf r) = i.result (s.sd.buf r) by
          cases i <;> simp [BlockCall.result, SdSys.setValid]] at hat
  | stored r write =>
      simp only [SdSys.sdIntrRun, hintr, Option.some.injEq] at hs
      have hhand : s.sd.intr.inHand = some r := by rw [hintr]; rfl
      obtain ⟨t, ht⟩ := h.owner r (.inr hhand)
      obtain ⟨i, hfn, hwaits, hserved⟩ := (h.at_ t).of_pushed ht
      rw [hintr] at hdoes
      rw [← hs]
      refine .inl (h.handles_quiet hinv ht rfl (fun _ _ => rfl) (fun _ => Iff.rfl) ?_
        (fun _ => List.mem_of_mem_tail) rfl ?_)
      · intro q hne
        rw [hintr]
        cases write <;> simp [SdIntr.inHand, hne.symm]
      · cases write with
        | false =>
            rw [hserved hdoes.2.moved]
            exact .served r i ht hfn hdoes.2.moved
        | true =>
            obtain ⟨hwait, hm⟩ := hwaits hdoes.2
            rw [hm]
            refine .queued r i ht hfn (.inr ⟨rfl, ?_⟩) hdoes.2
            exact (hwait.resolve_left fun hnot => hnot.1 hhand).2
  | popped r =>
      simp only [SdSys.sdIntrRun, hintr, Option.some.injEq] at hs
      have hhand : s.sd.intr.inHand = some r := by rw [hintr]; rfl
      obtain ⟨t, ht⟩ := h.owner r (.inr hhand)
      obtain ⟨i, hfn, hwaits, -⟩ := (h.at_ t).of_pushed ht
      rw [hintr] at hdoes
      obtain ⟨hwait, hm⟩ := hwaits hdoes.2
      obtain ⟨-, n, d, flags, rfl, hbuf⟩ := hwait.resolve_left fun hnot => hnot.1 hhand
      rw [hbuf] at hs
      rw [← hs]
      refine .inr ⟨t, .write n d, hm, ?_⟩
      refine h.handles hinv ht rfl (fun _ _ => rfl) (fun q hne => moved_cons rfl hne) ?_
        (fun _ => id) ?_ ?_
      · intro q hne
        rw [hintr]
        simp [SdIntr.inHand, hne.symm]
      · intro k
        simp only
        exact h.disk_write n d k
      · exact .served r (.write n d) ht hfn ⟨_, List.mem_cons_self, rfl⟩
  | posting =>
      simp only [SdSys.sdIntrRun, hintr] at hs
      have hidle : Quiet s.sd { s.sd with intr := .idle } := by
        refine ⟨rfl, rfl, rfl, rfl, ?_, fun _ => .inl rfl⟩
        rw [hintr]
        rfl
      exact .inl ((h.quiet hidle).quiet (Quiet.post hs))

/-- What the steps keep that meet the condition. -/
def Linearized (disk : ℕ → α) (s : BdSys α) : Prop :=
  SdInv s.sd ∧ ∃ dev m, Linear BlockCall.apply (fun n => disk (cardBlock n)) s.events dev m ∧
    Rel s dev m

/-- **A step that meets the condition keeps it.** -/
theorem Linearized.step {disk : ℕ → α} {x : ℕ × BdAct α} (h : Linearized disk s)
    (hok : Outstanding s.sd (sdAct x)) (hs : s.step x = some s') : Linearized disk s' := by
  obtain ⟨hinv, dev, m, hlin, hrel⟩ := h
  obtain ⟨t, a⟩ := x
  cases a with
  | call i junk =>
      simp only [BdSys.step, Option.map_eq_some_iff] at hs
      obtain ⟨sd, hsd, rfl⟩ := hs
      obtain ⟨hm, hrel'⟩ := hrel.call hinv hsd
      exact ⟨hinv.step hok hsd, _, _, hlin.call t i hm, hrel'⟩
  | run a =>
      cases a with
      | call b => cases hs
      | push =>
          obtain ⟨sd, hsd, rfl⟩ := Option.map_eq_some_iff.mp hs
          exact ⟨hinv.step hok hsd, dev, m, hlin, hrel.push hinv hok hsd⟩
      | save =>
          obtain ⟨sd, hsd, rfl⟩ := Option.map_eq_some_iff.mp hs
          exact ⟨hinv.step hok hsd, dev, m, hlin, hrel.save hsd⟩
      | wait =>
          obtain ⟨sd, hsd, rfl⟩ := Option.map_eq_some_iff.mp hs
          exact ⟨hinv.step hok hsd, dev, m, hlin, hrel.wait hsd⟩
      | test =>
          obtain ⟨sd, hsd, rfl⟩ := Option.map_eq_some_iff.mp hs
          have hinv' := hinv.step hok hsd
          rcases hrel.test hinv hok hsd with ⟨hne, hrel'⟩ | ⟨r, hidle, hm, hev, hrel'⟩
          · rw [if_neg hne]
            exact ⟨hinv', dev, m, hlin, hrel'⟩
          · rw [if_pos hidle]
            refine ⟨?_, dev, _, ?_, hrel'⟩
            · rwa [finish_sd]
            · rw [hev]
              exact hlin.ret t r hm
      | intr =>
          obtain ⟨sd, hsd, rfl⟩ := Option.map_eq_some_iff.mp hs
          rcases hrel.intr hinv hsd with hrel' | ⟨u, i, hm, hrel'⟩
          · exact ⟨hinv.step hok hsd, dev, m, hlin, hrel'⟩
          · exact ⟨hinv.step hok hsd, _, _, hlin.effect u i hm, hrel'⟩
      | intrRun =>
          obtain ⟨sd, hsd, rfl⟩ := Option.map_eq_some_iff.mp hs
          rcases hrel.intrRun hinv hsd with hrel' | ⟨u, i, hm, hrel'⟩
          · exact ⟨hinv.step hok hsd, dev, m, hlin, hrel'⟩
          · exact ⟨hinv.step hok hsd, _, _, hlin.effect u i hm, hrel'⟩

end BdSys

end OsLab
