import OsLab.Common.Sem
import OsLab.Lib.Run
import Mathlib.Tactic.Common

/-!
# The driver of the SD card

`sdrw` and `sd_intr` of `driver/sd.c`, with any number of processes.  All requests share
the queue `bqueue` and the semaphore `rw_done`.  `sdrw` makes the semaphore new, pushes its
buffer and then asks whether the queue is empty.  It never is, so that the buffer it watches
is the one at the front.

The card raises an interrupt when it is done with the request at the front.  `sd_intr` holds
the lock of the queue until it ends, but `sdrw` reads the flags of a buffer without any lock,
so that each of its stores is a step: the words of a read, the flags, the pop, the wait for
`INT_DATA_DONE` after a write, and the post.  Where the queue is not empty then, `sd_intr` also
starts the next request and gives the lock back a second time; what that does to the card and to
the lock is left out.  A step of `sdrw` is the code up to the next
place where it can be interrupted with an effect.  A request lives on the stack of its
caller; here every call has a number, and its buffer is kept.

A process that is killed while it waits fails the `ASSERT` around `wait_sem`, and there the
model has no step.

## Main definitions

* `SdSys`, `SdSys.step` — the driver and the processes.
* `WaitsForOwn` — a call returns after its own request.
* `Outstanding` — the condition on the steps.
* `sdrw_waits_for_own` — the result over runs.
-/

namespace OsLab

/-- `b->flags`: `B_DIRTY` and `B_VALID` -/
structure BufFlags where
  dirty : Bool
  valid : Bool
  deriving DecidableEq, Repr

/-- `struct buf`, with the bytes of a block in `α` -/
structure Buf (α : Type) where
  blockno : ℕ
  flags : BufFlags
  data : α
  deriving DecidableEq, Repr

/-- What `sd_intr` has moved for the request `req`. -/
structure Transfer (α : Type) where
  req : ℕ
  write : Bool
  data : α
  deriving DecidableEq, Repr

/-- Where a process is in `sdrw`, with its request. -/
inductive SdPc
  | idle
  /-- before the lock of the queue -/
  | entered (r : ℕ)
  /-- the lock is released, and `b_first` is the buffer of `first` -/
  | pushed (r first : ℕ)
  /-- at the test of the loop, with `flag_save` -/
  | test (r first : ℕ) (saved : BufFlags)
  /-- before `wait_sem` -/
  | wait (r first : ℕ) (saved : BufFlags)
  /-- asleep in `wait_sem` -/
  | asleep (r first : ℕ) (saved : BufFlags)
  deriving DecidableEq, Repr

/-- Where `sd_intr` is. -/
inductive SdIntr
  | idle
  /-- the words of a read are in the buffer of `r` -/
  | loaded (r : ℕ)
  /-- the flags of `r` are stored -/
  | stored (r : ℕ) (write : Bool)
  /-- a write is popped, and `INT_DATA_DONE` is waited for -/
  | popped (r : ℕ)
  /-- before `post_sem` -/
  | posting
  deriving DecidableEq, Repr

/-- The request whose flags are stored and that `sd_intr` is not done with. -/
def SdIntr.inHand : SdIntr → Option ℕ
  | .stored r _ | .popped r => some r
  | _ => none

/-- The request of the call that a process is in. -/
def SdPc.req : SdPc → Option ℕ
  | .idle => none
  | .entered r => some r
  | .pushed r _ => some r
  | .test r _ _ => some r
  | .wait r _ _ => some r
  | .asleep r _ _ => some r

inductive SdAct (α : Type)
  /-- a call of `sdrw`, up to `init_sem` -/
  | call (b : Buf α)
  /-- the part under the lock of the queue -/
  | push
  /-- `flag_save` is read -/
  | save
  /-- the test of the loop -/
  | test
  /-- `wait_sem(&rw_done)` -/
  | wait
  /-- the card interrupts, and `sd_intr` takes the request at the front -/
  | intr
  /-- the next step of `sd_intr` -/
  | intrRun

/-- The driver, the card and the processes. -/
structure SdSys (α : Type) where
  disk : ℕ → α
  buf : ℕ → Buf α
  bqueue : List ℕ
  rwDone : Semaphore
  pc : ℕ → SdPc
  intr : SdIntr
  /-- calls so far -/
  calls : ℕ
  /-- what `sd_intr` has moved, latest first -/
  transfers : List (Transfer α)
  /-- the calls that have returned, with their buffers -/
  returned : List (ℕ × Buf α)

namespace SdSys

variable {α : Type}

/-- After `sd_init`; `b` is what the memory of a buffer holds before it is used. -/
def init (disk : ℕ → α) (b : Buf α) : SdSys α where
  disk := disk
  buf := fun _ => b
  bqueue := []
  rwDone := .initSem 0
  pc := fun _ => .idle
  intr := .idle
  calls := 0
  transfers := []
  returned := []

variable (s : SdSys α)

def setPc (t : ℕ) (pc : SdPc) : SdSys α := { s with pc := Function.update s.pc t pc }

/-- `post_sem(&rw_done)`: a process that is woken up goes to the test of its loop. -/
def post : Option (SdSys α) :=
  s.rwDone.postSem.map fun r =>
    match r.1 with
    | none => { s with rwDone := r.2 }
    | some t =>
        match s.pc t with
        | .asleep q first saved => { s.setPc t (.test q first saved) with rwDone := r.2 }
        | _ => { s with rwDone := r.2 }

/-- `b->flags = B_VALID` -/
def setValid (r : ℕ) : SdSys α :=
  { s with buf := Function.update s.buf r { s.buf r with flags := ⟨false, true⟩ } }

/-- `sd_intr()`, up to its first store. -/
def sdIntr : Option (SdSys α) :=
  match s.intr, s.bqueue with
  | .idle, r :: _ =>
      let b := s.buf r
      if b.flags.dirty then some { s.setValid r with intr := .stored r true }
      else if b.flags.valid then some s
      else
        some { s with
          buf := Function.update s.buf r { b with data := s.disk b.blockno }
          transfers := ⟨r, false, s.disk b.blockno⟩ :: s.transfers
          intr := .loaded r }
  | _, _ => none

/-- The next step of `sd_intr()`. -/
def sdIntrRun : Option (SdSys α) :=
  match s.intr with
  | .idle => none
  | .loaded r => some { s.setValid r with intr := .stored r false }
  | .stored r write =>
      some { s with bqueue := s.bqueue.tail, intr := if write then .popped r else .posting }
  | .popped r =>
      some { s with
        disk := Function.update s.disk (s.buf r).blockno (s.buf r).data
        transfers := ⟨r, true, (s.buf r).data⟩ :: s.transfers
        intr := .posting }
  | .posting => post { s with intr := .idle }

/-- One step of process `t`; an interrupt may come at any time. -/
def step (i : ℕ × SdAct α) : Option (SdSys α) :=
  let t := i.1
  match i.2 with
  | .call b =>
      if s.pc t = .idle then
        some { s.setPc t (.entered s.calls) with
          buf := Function.update s.buf s.calls b
          rwDone := .initSem 0
          calls := s.calls + 1 }
      else none
  | .push =>
      match s.pc t, s.intr with
      | .entered r, .idle =>
          let s := { s with bqueue := s.bqueue ++ [r] }
          match s.bqueue with
          -- the branch for an empty queue, which watches the buffer itself
          | [] => some (s.setPc t (.pushed r r))
          | first :: _ => some (s.setPc t (.pushed r first))
      | _, _ => none
  | .save =>
      match s.pc t with
      | .pushed r first => some (s.setPc t (.test r first (s.buf first).flags))
      | _ => none
  | .test =>
      match s.pc t with
      | .test r first saved =>
          if saved = (s.buf first).flags then some (s.setPc t (.wait r first saved))
          else some { s.setPc t .idle with returned := (r, s.buf r) :: s.returned }
      | _ => none
  | .wait =>
      match s.pc t with
      | .wait r first saved =>
          match s.rwDone.waitSem t with
          | (true, sem) => some { s.setPc t (.test r first saved) with rwDone := sem }
          | (false, sem) => some { s.setPc t (.asleep r first saved) with rwDone := sem }
      | _ => none
  | .intr => s.sdIntr
  | .intrRun => s.sdIntrRun

end SdSys

section

variable {α : Type}

/-- **A call returns after its own request**, which is popped, with what was read, and who waits is
on the list. -/
structure WaitsForOwn (s : SdSys α) : Prop where
  own : ∀ e ∈ s.returned, e.1 ∉ s.bqueue ∧
    ∃ tr ∈ s.transfers, tr.req = e.1 ∧ (tr.write = false → e.2.data = tr.data)
  listed : ∀ t r first saved, s.pc t = .asleep r first saved → t ∈ s.rwDone.sleeplist

/-- The test of the loop finds the flags changed of a buffer that `sd_intr` is not done with. -/
def SdSys.early (s : SdSys α) (t : ℕ) : Bool :=
  match s.pc t with
  | .test _ first saved => saved ≠ (s.buf first).flags && s.intr.inHand = some first
  | _ => false

/-- `init_sem` is called when nobody waits, a buffer is pushed when no request is outstanding, and
no process finds the flags changed of a buffer that `sd_intr` is not done with. -/
def Outstanding (s : SdSys α) (i : ℕ × SdAct α) : Prop :=
  match i.2 with
  | .call _ => s.rwDone.sleeplist = []
  | .push => s.bqueue = []
  | .test => s.early i.1 = false
  | _ => True

instance (s : SdSys α) : (i : ℕ × SdAct α) → Decidable (Outstanding s i)
  | (_, .call _) => inferInstanceAs (Decidable (s.rwDone.sleeplist = []))
  | (_, .push) => inferInstanceAs (Decidable (s.bqueue = []))
  | (_, .save) => inferInstanceAs (Decidable True)
  | (t, .test) => inferInstanceAs (Decidable (s.early t = false))
  | (_, .wait) => inferInstanceAs (Decidable True)
  | (_, .intr) => inferInstanceAs (Decidable True)
  | (_, .intrRun) => inferInstanceAs (Decidable True)

/-! ## The invariant -/

/-- `sd_intr` has moved the bytes of a request. -/
def Moved (s : SdSys α) (r : ℕ) : Prop := ∃ tr ∈ s.transfers, tr.req = r

/-- The bytes of a request are moved, and its buffer holds them. -/
def BufHolds (s : SdSys α) (r : ℕ) : Prop :=
  ∃ tr ∈ s.transfers, tr.req = r ∧ (tr.write = false → (s.buf r).data = tr.data)

/-- The request is in the queue, and its flags are not stored. -/
def InQueue (s : SdSys α) (r : ℕ) : Prop := r ∈ s.bqueue ∧ s.intr.inHand ≠ some r

/-- `sd_intr` is done with the request. -/
def Served (s : SdSys α) (r : ℕ) : Prop :=
  r ∉ s.bqueue ∧ s.intr.inHand ≠ some r ∧ BufHolds s r

/-- A process watches the buffer of its own request, whose flags change in the hands of
`sd_intr`. -/
def SdPc.Watches (s : SdSys α) : SdPc → Prop
  | .idle => True
  | .entered r => r ∉ s.bqueue ∧ s.intr.inHand ≠ some r ∧ ¬ Moved s r
  | .pushed r first => first = r ∧ (InQueue s r ∨ s.intr.inHand = some r ∨ Served s r)
  | .test r first saved | .wait r first saved | .asleep r first saved =>
      first = r ∧ (InQueue s r ∧ (s.buf r).flags = saved ∨ s.intr.inHand = some r ∨ Served s r)

/-- What `sd_intr` has done where it is. -/
def SdIntr.Does (s : SdSys α) : SdIntr → Prop
  | .idle => ∀ r ∈ s.bqueue, ¬ Moved s r
  | .loaded r | .stored r false => s.bqueue = [r] ∧ BufHolds s r
  | .stored r true => s.bqueue = [r] ∧ ¬ Moved s r
  | .popped r => s.bqueue = [] ∧ ¬ Moved s r
  | .posting => s.bqueue = []

theorem BufHolds.moved {s : SdSys α} {r : ℕ} (h : BufHolds s r) : Moved s r := by
  obtain ⟨tr, htr, hr, -⟩ := h
  exact ⟨tr, htr, hr⟩

theorem moved_cons {s s' : SdSys α} {tr : Transfer α} {q : ℕ}
    (h : s'.transfers = tr :: s.transfers) (hne : q ≠ tr.req) : Moved s' q ↔ Moved s q := by
  rw [Moved, h, Moved]
  constructor
  · rintro ⟨tr', hmem, hreq⟩
    rcases List.mem_cons.mp hmem with rfl | hmem
    · exact absurd hreq.symm hne
    · exact ⟨tr', hmem, hreq⟩
  · rintro ⟨tr', hmem, hreq⟩
    exact ⟨tr', List.mem_cons_of_mem _ hmem, hreq⟩

/-- What a process watches, after a step that leaves its request alone. -/
theorem SdPc.Watches.mono {s s' : SdSys α} {pc : SdPc} (h : pc.Watches s)
    (hq : ∀ r, pc.req = some r → (r ∈ s'.bqueue ↔ r ∈ s.bqueue))
    (hhand : ∀ r, pc.req = some r → (s'.intr.inHand = some r ↔ s.intr.inHand = some r))
    (hmoved : ∀ r, pc.req = some r → (Moved s' r ↔ Moved s r))
    (htr : ∀ tr ∈ s.transfers, tr ∈ s'.transfers)
    (hbuf : ∀ r, pc.req = some r → s'.buf r = s.buf r) : pc.Watches s' := by
  have hqueued : ∀ r, pc.req = some r → InQueue s r → InQueue s' r := by
    intro r hr hqr
    rw [InQueue, hq r hr, Ne, hhand r hr]
    exact hqr
  have hserved : ∀ r, pc.req = some r → Served s r → Served s' r := by
    intro r hr ⟨hnot, hout, tr, hmem, hown⟩
    rw [Served, hq r hr, Ne, hhand r hr]
    refine ⟨hnot, hout, tr, htr tr hmem, ?_⟩
    rwa [hbuf r hr]
  cases pc with
  | idle => trivial
  | entered r =>
      rw [Watches, hq r rfl, Ne, hhand r rfl, hmoved r rfl]
      exact h
  | pushed r first =>
      exact ⟨h.1, h.2.imp (hqueued r rfl) (Or.imp (hhand r rfl).mpr (hserved r rfl))⟩
  | test r first saved | wait r first saved | asleep r first saved =>
      refine ⟨h.1, h.2.imp ?_ (Or.imp (hhand r rfl).mpr (hserved r rfl))⟩
      rw [hbuf r rfl]
      exact And.imp_left (hqueued r rfl)

/-- A process whose request `sd_intr` has in its hand, or is done with. -/
theorem SdPc.Watches.of_handled {s s' : SdSys α} {pc : SdPc} {r : ℕ} (h : pc.Watches s)
    (hreq : pc.req = some r) (hbefore : r ∈ s.bqueue ∨ s.intr.inHand = some r)
    (hafter : s'.intr.inHand = some r ∨ Served s' r) : pc.Watches s' := by
  cases pc with
  | idle => trivial
  | entered q =>
      cases hreq
      rcases hbefore with hmem | hhand
      · exact absurd hmem h.1
      · exact absurd hhand h.2.1
  | pushed q first | test q first saved | wait q first saved | asleep q first saved =>
      cases hreq
      exact ⟨h.1, .inr hafter⟩

/-- What the steps keep that meet the condition. -/
structure SdInv (s : SdSys α) : Prop where
  watches : ∀ t, (s.pc t).Watches s
  does : s.intr.Does s
  one : s.bqueue.length ≤ 1
  used : ∀ t r, (s.pc t).req = some r → r < s.calls
  inj : ∀ t t' r, (s.pc t).req = some r → (s.pc t').req = some r → t = t'
  queued : ∀ r, r ∈ s.bqueue ∨ s.intr.inHand = some r → r < s.calls
  moved : ∀ tr ∈ s.transfers, tr.req < s.calls
  gone : ∀ e ∈ s.returned, e.1 < s.calls ∧ ∀ t, (s.pc t).req ≠ some e.1
  prop : WaitsForOwn s

namespace SdInv

variable {s s' : SdSys α} {t r : ℕ} {pc' : SdPc}

theorem init (disk : ℕ → α) (b : Buf α) : SdInv (.init disk b) where
  watches := fun _ => trivial
  does := by simp [SdSys.init, SdIntr.Does]
  one := by simp [SdSys.init]
  used := by simp [SdSys.init, SdPc.req]
  inj := by simp [SdSys.init, SdPc.req]
  queued := by simp [SdSys.init, SdIntr.inHand]
  moved := by simp [SdSys.init]
  gone := by simp [SdSys.init]
  prop := ⟨by simp [SdSys.init], by simp [SdSys.init]⟩

/-- A process goes on with its request. -/
theorem setPc (h : SdInv s) (hw : pc'.Watches s) (hreq : pc'.req = none ∨ pc'.req = (s.pc t).req)
    (hl : ∀ r first saved, pc' = .asleep r first saved → t ∈ s.rwDone.sleeplist) :
    SdInv (s.setPc t pc') := by
  have hreq' : ∀ u r, (Function.update s.pc t pc' u).req = some r → (s.pc u).req = some r := by
    intro u r hu
    by_cases hut : u = t
    · subst hut
      rw [Function.update_self] at hu
      rcases hreq with hnone | hsame
      · rw [hnone] at hu
        cases hu
      · rw [← hsame, hu]
    · rwa [Function.update_of_ne hut] at hu
  constructor
  · intro u
    change (Function.update s.pc t pc' u).Watches s
    by_cases hut : u = t
    · subst hut
      rwa [Function.update_self]
    · rw [Function.update_of_ne hut]
      exact h.watches u
  · exact h.does
  · exact h.one
  · exact fun u r hu => h.used u r (hreq' u r hu)
  · exact fun u u' r hu hu' => h.inj u u' r (hreq' u r hu) (hreq' u' r hu')
  · exact h.queued
  · exact h.moved
  · exact fun e he => ⟨(h.gone e he).1, fun u hu => (h.gone e he).2 u (hreq' u e.1 hu)⟩
  · refine ⟨h.prop.own, ?_⟩
    intro u r first saved hu
    change Function.update s.pc t pc' u = _ at hu
    by_cases hut : u = t
    · subst hut
      rw [Function.update_self] at hu
      exact hl r first saved hu
    · rw [Function.update_of_ne hut] at hu
      exact h.prop.listed u r first saved hu

/-- The semaphore changes, and nobody who is asleep leaves the list. -/
theorem setSem (h : SdInv s) {sem : Semaphore}
    (hl : ∀ u r first saved, s.pc u = .asleep r first saved → u ∈ sem.sleeplist) :
    SdInv { s with rwDone := sem } :=
  ⟨h.watches, h.does, h.one, h.used, h.inj, h.queued, h.moved, h.gone, h.prop.own, hl⟩

/-- A post wakes up at most one process. -/
theorem post (h : SdInv s) (hs : s.post = some s') : SdInv s' := by
  rw [SdSys.post, Option.map_eq_some_iff] at hs
  obtain ⟨⟨w, sem⟩, hpost, rfl⟩ := hs
  have hlisted := fun u (hu : u ∈ s.rwDone.sleeplist) (hw : w ≠ some u) =>
    Semaphore.mem_sleeplist_of_postSem hpost hu hw
  cases w with
  | none =>
      apply h.setSem
      exact fun u r first saved hu => hlisted u (h.prop.listed u r first saved hu) (by simp)
  | some t =>
      have hother : ∀ pc : ℕ → SdPc, (∀ r first saved, pc t ≠ .asleep r first saved) →
          (∀ u ≠ t, pc u = s.pc u) → ∀ u r first saved, pc u = .asleep r first saved →
          u ∈ sem.sleeplist := by
        intro pc hpc hsame u r first saved hu
        by_cases hut : u = t
        · subst hut
          exact absurd hu (hpc r first saved)
        · rw [hsame u hut] at hu
          exact hlisted u (h.prop.listed u r first saved hu) (by simpa using Ne.symm hut)
      cases hpc : s.pc t with
      | asleep r first saved =>
          have hw := h.watches t
          rw [hpc] at hw
          have ht : SdInv (s.setPc t (.test r first saved)) :=
            h.setPc hw (.inr (by rw [hpc]; rfl)) (by simp)
          simp only [hpc]
          apply ht.setSem
          apply hother
          · simp [SdSys.setPc]
          · exact fun u hu => Function.update_of_ne hu _ _
      | idle | entered | pushed | test | wait =>
          simp only [hpc]
          apply h.setSem
          apply hother
          · simp [hpc]
          · exact fun _ _ => rfl

/-! ### Steps of `sd_intr` -/

/-- **A step of `sd_intr` that touches no request but `r`.** -/
theorem handles (h : SdInv s) (hpc : s'.pc = s.pc) (hcalls : s'.calls = s.calls)
    (hret : s'.returned = s.returned) (hsem : s'.rwDone = s.rwDone)
    (hq : ∀ q ∈ s'.bqueue, q ∈ s.bqueue) (hone : s'.bqueue.length ≤ 1)
    (hqueue : ∀ q, q ≠ r → (q ∈ s'.bqueue ↔ q ∈ s.bqueue))
    (hhand : ∀ q, q ≠ r → (s'.intr.inHand = some q ↔ s.intr.inHand = some q))
    (hbuf : ∀ q, q ≠ r → s'.buf q = s.buf q)
    (htr : s'.transfers = s.transfers ∨ ∃ tr, tr.req = r ∧ s'.transfers = tr :: s.transfers)
    (hr : r < s.calls) (hwatch : ∀ pc : SdPc, pc.req = some r → pc.Watches s → pc.Watches s')
    (hdoes : s'.intr.Does s') : SdInv s' := by
  have hsub : ∀ tr ∈ s.transfers, tr ∈ s'.transfers := by
    rcases htr with heq | ⟨tr, -, heq⟩
    · exact fun _ htr => heq ▸ htr
    · exact fun _ htr => heq ▸ List.mem_cons_of_mem _ htr
  have hmoved : ∀ q, q ≠ r → (Moved s' q ↔ Moved s q) := by
    intro q hne
    rcases htr with heq | ⟨tr, hreq, heq⟩
    · rw [Moved, heq, Moved]
    · exact moved_cons heq (hreq ▸ hne)
  constructor
  · intro t
    rw [hpc]
    by_cases hreq : (s.pc t).req = some r
    · exact hwatch _ hreq (h.watches t)
    · have hne : ∀ q, (s.pc t).req = some q → q ≠ r := by
        rintro q hq rfl
        exact hreq hq
      exact (h.watches t).mono (fun q hq => hqueue q (hne q hq)) (fun q hq => hhand q (hne q hq))
        (fun q hq => hmoved q (hne q hq)) hsub fun q hq => hbuf q (hne q hq)
  · exact hdoes
  · exact hone
  · rw [hpc, hcalls]
    exact h.used
  · rw [hpc]
    exact h.inj
  · intro q hmem
    rw [hcalls]
    rcases hmem with hmem | hhand'
    · exact h.queued q (.inl (hq q hmem))
    · by_cases hqr : q = r
      · exact hqr ▸ hr
      · exact h.queued q (.inr ((hhand q hqr).mp hhand'))
  · rw [hcalls]
    intro tr' hmem
    rcases htr with heq | ⟨tr, hreq, heq⟩
    · exact h.moved tr' (heq ▸ hmem)
    · rw [heq] at hmem
      rcases List.mem_cons.mp hmem with rfl | hmem
      · exact hreq ▸ hr
      · exact h.moved tr' hmem
  · rw [hret, hcalls, hpc]
    exact h.gone
  · refine ⟨?_, ?_⟩
    · rw [hret]
      intro e he
      obtain ⟨hnot, tr, hmem, hown⟩ := h.prop.own e he
      exact ⟨fun hin => hnot (hq _ hin), tr, hsub tr hmem, hown⟩
    · rw [hpc, hsem]
      exact h.prop.listed

/-- The request at the front is the only one. -/
theorem front (h : SdInv s) {rest : List ℕ} (hq : s.bqueue = r :: rest) : s.bqueue = [r] := by
  have hone := h.one
  rw [hq, List.length_cons] at hone
  rw [hq, List.eq_nil_of_length_eq_zero (by omega : rest.length = 0)]

/-- The flags of the request at the front are stored. -/
theorem setValid (h : SdInv s) (hq : s.bqueue = [r]) (hnone : s.intr.inHand = none) {write : Bool}
    (hdoes : (SdIntr.stored r write).Does { s.setValid r with intr := .stored r write }) :
    SdInv { s.setValid r with intr := .stored r write } := by
  have hmem : r ∈ s.bqueue := hq ▸ List.mem_singleton_self r
  refine h.handles (r := r) rfl rfl rfl rfl (fun _ => id) h.one (fun _ _ => Iff.rfl) ?_ ?_ (.inl rfl)
    (h.queued r (.inl hmem)) ?_ hdoes
  · intro q hne
    rw [hnone]
    simp [SdIntr.inHand, hne.symm]
  · exact fun q hne => Function.update_of_ne hne _ _
  · exact fun pc hreq hw => hw.of_handled hreq (.inl hmem) (.inl rfl)

/-- The words of a read are moved to the buffer. -/
theorem load (h : SdInv s) (hq : s.bqueue = [r]) (hidle : s.intr = .idle) (d : α) :
    SdInv { s with
      buf := Function.update s.buf r { s.buf r with data := d }
      transfers := ⟨r, false, d⟩ :: s.transfers
      intr := .loaded r } := by
  have hmem : r ∈ s.bqueue := hq ▸ List.mem_singleton_self r
  refine h.handles (r := r) rfl rfl rfl rfl (fun _ => id) h.one (fun _ _ => Iff.rfl) ?_ ?_
    (.inr ⟨_, rfl, rfl⟩) (h.queued r (.inl hmem)) ?_ ⟨hq, ?_⟩
  · intro q _
    rw [hidle]
    exact Iff.rfl
  · exact fun q hne => Function.update_of_ne hne _ _
  · -- the request is in the queue as before, with the same flags
    intro pc hreq hw
    cases pc with
    | idle => trivial
    | entered q =>
        cases hreq
        exact absurd hmem hw.1
    | pushed q first =>
        cases hreq
        exact ⟨hw.1, .inl ⟨hmem, by simp [SdIntr.inHand]⟩⟩
    | test q first saved | wait q first saved | asleep q first saved =>
        cases hreq
        refine ⟨hw.1, .inl ⟨⟨hmem, by simp [SdIntr.inHand]⟩, ?_⟩⟩
        rcases hw.2 with hqueued | hhand | hserved
        · simpa using hqueued.2
        · rw [hidle] at hhand
          cases hhand
        · exact absurd hmem hserved.1
  · exact ⟨_, List.mem_cons_self, rfl, by simp⟩

/-- The request at the front is popped. -/
theorem pop (h : SdInv s) {write : Bool} (hintr : s.intr = .stored r write) :
    SdInv { s with bqueue := s.bqueue.tail, intr := if write then .popped r else .posting } := by
  have hdoes := h.does
  have hhand : s.intr.inHand = some r := by rw [hintr]; rfl
  rw [hintr] at hdoes
  have hq : s.bqueue = [r] := by cases write <;> exact hdoes.1
  refine h.handles (r := r) rfl rfl rfl rfl (fun _ => List.mem_of_mem_tail) (by simp [hq]) ?_ ?_
    (fun _ _ => rfl) (.inl rfl) (h.queued r (.inr hhand)) ?_ ?_
  · intro q hne
    simp [hq, hne]
  · intro q hne
    rw [hintr]
    cases write <;> simp [SdIntr.inHand, hne.symm]
  · intro pc hreq hw
    refine hw.of_handled hreq (.inr hhand) ?_
    cases write with
    | true => exact .inl rfl
    | false => exact .inr ⟨by simp [hq], by simp [SdIntr.inHand], hdoes.2⟩
  · cases write with
    | true => exact ⟨by simp [hq], hdoes.2⟩
    | false =>
        change s.bqueue.tail = []
        rw [hq]
        rfl

/-- The card is done with a write. -/
theorem wrote (h : SdInv s) (hintr : s.intr = .popped r) (disk : ℕ → α) (d : α) :
    SdInv { s with
      disk := disk
      transfers := ⟨r, true, d⟩ :: s.transfers
      intr := .posting } := by
  have hdoes := h.does
  have hhand : s.intr.inHand = some r := by rw [hintr]; rfl
  rw [hintr] at hdoes
  refine h.handles (r := r) rfl rfl rfl rfl (fun _ => id) h.one (fun _ _ => Iff.rfl) ?_
    (fun _ _ => rfl) (.inr ⟨_, rfl, rfl⟩) (h.queued r (.inr hhand)) ?_ hdoes.1
  · intro q hne
    rw [hintr]
    simp [SdIntr.inHand, hne.symm]
  · intro pc hreq hw
    refine hw.of_handled hreq (.inr hhand) (.inr ⟨?_, by simp [SdIntr.inHand], ?_⟩)
    · rw [hdoes.1]
      exact List.not_mem_nil
    · exact ⟨_, List.mem_cons_self, rfl, by simp⟩

theorem sdIntr (h : SdInv s) (hs : s.sdIntr = some s') : SdInv s' := by
  rw [SdSys.sdIntr] at hs
  split at hs
  · rename_i r rest hidle hq
    have hone := h.front hq
    have hnot := h.does
    rw [hidle] at hnot
    simp only at hs
    split at hs
    · cases hs
      refine h.setValid hone (by rw [hidle]; rfl) ⟨hone, ?_⟩
      exact hnot r (hq ▸ List.mem_cons_self)
    · split at hs
      · cases hs
        exact h
      · cases hs
        exact h.load hone hidle _
  · cases hs

theorem sdIntrRun (h : SdInv s) (hs : s.sdIntrRun = some s') : SdInv s' := by
  have hdoes := h.does
  cases hintr : s.intr with
  | idle => simp [SdSys.sdIntrRun, hintr] at hs
  | loaded r =>
      simp only [SdSys.sdIntrRun, hintr, Option.some.injEq] at hs
      rw [hintr] at hdoes
      obtain ⟨hq, tr, htr, hreq, hdata⟩ := hdoes
      rw [← hs]
      refine h.setValid hq (by rw [hintr]; rfl) ⟨hq, tr, htr, hreq, ?_⟩
      simpa [SdSys.setValid] using hdata
  | stored r write =>
      simp only [SdSys.sdIntrRun, hintr, Option.some.injEq] at hs
      rw [← hs]
      exact h.pop hintr
  | popped r =>
      simp only [SdSys.sdIntrRun, hintr, Option.some.injEq] at hs
      rw [← hs]
      exact h.wrote hintr _ _
  | posting =>
      simp only [SdSys.sdIntrRun, hintr] at hs
      rw [hintr] at hdoes
      have hnil : s.bqueue = [] := hdoes
      -- no request is in hand, before or after
      have hidle : SdInv { s with intr := .idle } := by
        refine ⟨fun t => ?_, by simp [SdIntr.Does, hnil], h.one, h.used, h.inj, ?_, h.moved, h.gone,
          h.prop.own, h.prop.listed⟩
        · refine (h.watches t).mono (fun _ _ => Iff.rfl) ?_ (fun _ _ => Iff.rfl) (fun _ => id)
            fun _ _ => rfl
          intro r _
          rw [hintr]
          exact Iff.rfl
        · intro r hr
          rcases hr with hr | hr
          · exact h.queued r (.inl hr)
          · cases hr
      exact hidle.post hs

/-! ### Steps of `sdrw` -/

/-- A new call, when nobody waits. -/
theorem call (h : SdInv s) (ht : s.pc t = .idle) (hl : s.rwDone.sleeplist = []) (b : Buf α) :
    SdInv { s.setPc t (.entered s.calls) with
      buf := Function.update s.buf s.calls b
      rwDone := .initSem 0
      calls := s.calls + 1 } := by
  have hbuf : ∀ r < s.calls, Function.update s.buf s.calls b r = s.buf r :=
    fun r hr => Function.update_of_ne hr.ne _ _
  have hfresh : ¬ (s.calls ∈ s.bqueue ∨ s.intr.inHand = some s.calls) :=
    fun hmem => (h.queued _ hmem).ne rfl
  have hholds : ∀ r < s.calls, BufHolds s r → BufHolds { s.setPc t (.entered s.calls) with
      buf := Function.update s.buf s.calls b
      rwDone := .initSem 0
      calls := s.calls + 1 } r := by
    rintro r hr ⟨tr, hmem, hreq, hdata⟩
    refine ⟨tr, hmem, hreq, ?_⟩
    change tr.write = false → (Function.update s.buf s.calls b r).data = tr.data
    rwa [hbuf r hr]
  constructor
  · intro u
    by_cases hut : u = t
    · subst hut
      simp only [SdSys.setPc, Function.update_self]
      refine ⟨fun hmem => hfresh (.inl hmem), fun hhand => hfresh (.inr hhand), ?_⟩
      rintro ⟨tr, hmem, hreq⟩
      exact (h.moved tr hmem).ne hreq
    · simp only [SdSys.setPc, Function.update_of_ne hut]
      exact (h.watches u).mono (fun _ _ => Iff.rfl) (fun _ _ => Iff.rfl) (fun _ _ => Iff.rfl)
        (fun _ => id) fun r hr => hbuf r (h.used u r hr)
  · have hdoes := h.does
    change s.intr.Does _
    cases hintr : s.intr with
    | idle | popped | posting =>
        rw [hintr] at hdoes
        exact hdoes
    | loaded r =>
        rw [hintr] at hdoes
        exact ⟨hdoes.1, hholds r (h.queued r (.inl (by simp [hdoes.1]))) hdoes.2⟩
    | stored r write =>
        rw [hintr] at hdoes
        cases write with
        | true => exact hdoes
        | false => exact ⟨hdoes.1, hholds r (h.queued r (.inl (by simp [hdoes.1]))) hdoes.2⟩
  · exact h.one
  · intro u r hu
    by_cases hut : u = t
    · subst hut
      simp only [SdSys.setPc, Function.update_self, SdPc.req, Option.some.injEq] at hu
      exact hu ▸ Nat.lt_succ_self _
    · simp only [SdSys.setPc, Function.update_of_ne hut] at hu
      exact Nat.lt_succ_of_lt (h.used u r hu)
  · intro u u' r hu hu'
    simp only [SdSys.setPc] at hu hu'
    by_cases hut : u = t <;> by_cases hut' : u' = t
    · rw [hut, hut']
    · subst hut
      rw [Function.update_of_ne hut'] at hu'
      simp only [Function.update_self, SdPc.req, Option.some.injEq] at hu
      exact absurd (h.used u' r hu') (hu ▸ lt_irrefl _)
    · subst hut'
      rw [Function.update_of_ne hut] at hu
      simp only [Function.update_self, SdPc.req, Option.some.injEq] at hu'
      exact absurd (h.used u r hu) (hu' ▸ lt_irrefl _)
    · rw [Function.update_of_ne hut] at hu
      rw [Function.update_of_ne hut'] at hu'
      exact h.inj u u' r hu hu'
  · exact fun r hr => Nat.lt_succ_of_lt (h.queued r hr)
  · exact fun tr htr => Nat.lt_succ_of_lt (h.moved tr htr)
  · intro e he
    refine ⟨Nat.lt_succ_of_lt (h.gone e he).1, ?_⟩
    intro u hu
    by_cases hut : u = t
    · subst hut
      simp only [SdSys.setPc, Function.update_self, SdPc.req, Option.some.injEq] at hu
      exact (h.gone e he).1.ne hu.symm
    · simp only [SdSys.setPc, Function.update_of_ne hut] at hu
      exact (h.gone e he).2 u hu
  · refine ⟨h.prop.own, ?_⟩
    intro u r first saved hu
    by_cases hut : u = t
    · subst hut
      simp [SdSys.setPc] at hu
    · simp only [SdSys.setPc, Function.update_of_ne hut] at hu
      have := h.prop.listed u r first saved hu
      simp [hl] at this

/-- A buffer is pushed into the empty queue. -/
theorem push (h : SdInv s) (ht : s.pc t = .entered r) (hidle : s.intr = .idle)
    (hq : s.bqueue = []) : SdInv ({ s with bqueue := [r] }.setPc t (.pushed r r)) := by
  have hreq : (s.pc t).req = some r := by rw [ht]; rfl
  have hw := h.watches t
  rw [ht] at hw
  have hreq' : ∀ u q, (Function.update s.pc t (.pushed r r) u).req = some q →
      (s.pc u).req = some q := by
    intro u q hu
    by_cases hut : u = t
    · subst hut
      rwa [hreq, ← show ((Function.update s.pc u (.pushed r r) u).req = some r) by simp [SdPc.req]]
    · rwa [Function.update_of_ne hut] at hu
  -- the other requests are not touched
  have hothers : ∀ u ≠ t, (s.pc u).Watches ({ s with bqueue := [r] } : SdSys α) := by
    intro u hut
    refine (h.watches u).mono ?_ (fun _ _ => Iff.rfl) (fun _ _ => Iff.rfl) (fun _ => id)
      fun _ _ => rfl
    intro q hqu
    have hne : q ≠ r := by
      rintro rfl
      exact hut (h.inj u t q hqu hreq)
    simp [hq, hne]
  constructor
  · intro u
    by_cases hut : u = t
    · subst hut
      simp only [SdSys.setPc, Function.update_self]
      exact ⟨rfl, .inl ⟨List.mem_singleton_self r, hw.2.1⟩⟩
    · simp only [SdSys.setPc, Function.update_of_ne hut]
      exact hothers u hut
  · change s.intr.Does _
    rw [hidle]
    intro q hmem
    rw [List.mem_singleton.mp hmem]
    exact hw.2.2
  · simp [SdSys.setPc]
  · exact fun u q hu => h.used u q (hreq' u q hu)
  · exact fun u u' q hu hu' => h.inj u u' q (hreq' u q hu) (hreq' u' q hu')
  · intro q hmem
    rcases hmem with hmem | hhand
    · rw [List.mem_singleton.mp hmem]
      exact h.used t r hreq
    · exact h.queued q (.inr hhand)
  · exact h.moved
  · exact fun e he => ⟨(h.gone e he).1, fun u hu => (h.gone e he).2 u (hreq' u e.1 hu)⟩
  · refine ⟨?_, ?_⟩
    · intro e he
      refine ⟨?_, (h.prop.own e he).2⟩
      intro hmem
      exact (h.gone e he).2 t (hreq.trans (congrArg some (List.mem_singleton.mp hmem).symm))
    · intro u q first saved hu
      by_cases hut : u = t
      · subst hut
        simp [SdSys.setPc] at hu
      · simp only [SdSys.setPc, Function.update_of_ne hut] at hu
        exact h.prop.listed u q first saved hu

/-- **The call returns** when its request is served. -/
theorem returns (h : SdInv s) (hreq : (s.pc t).req = some r) (hserved : Served s r) :
    SdInv { s.setPc t .idle with returned := (r, s.buf r) :: s.returned } := by
  have hidle : SdInv (s.setPc t .idle) := h.setPc trivial (.inl rfl) (by simp)
  refine ⟨hidle.watches, hidle.does, hidle.one, hidle.used, hidle.inj, hidle.queued, hidle.moved, ?_,
    ?_, hidle.prop.listed⟩
  · intro e he
    rcases List.mem_cons.mp he with rfl | he
    · refine ⟨h.used t r hreq, ?_⟩
      intro u hu
      by_cases hut : u = t
      · subst hut
        simp [SdSys.setPc, SdPc.req] at hu
      · simp only [SdSys.setPc, Function.update_of_ne hut] at hu
        exact hut (h.inj u t r hu hreq)
    · exact hidle.gone e he
  · intro e he
    rcases List.mem_cons.mp he with rfl | he
    · exact ⟨hserved.1, hserved.2.2⟩
    · exact h.prop.own e he

/-- The flags have changed, so that the request has been served. -/
theorem served_of_test (h : SdInv s) {first : ℕ} {saved : BufFlags}
    (ht : s.pc t = .test r first saved) (hok : Outstanding s (t, .test))
    (hne : saved ≠ (s.buf first).flags) : first = r ∧ Served s r := by
  have hw := h.watches t
  rw [ht] at hw
  obtain ⟨rfl, hw⟩ := hw
  simp only [Outstanding, SdSys.early, ht] at hok
  rcases hw with hw | hw | hw
  · exact absurd hw.2.symm hne
  · simp [hne, hw] at hok
  · exact ⟨rfl, hw⟩

/-- **A step that meets the condition keeps it.** -/
theorem step (h : SdInv s) {i : ℕ × SdAct α} (hok : Outstanding s i) (hs : s.step i = some s') :
    SdInv s' := by
  obtain ⟨t, a⟩ := i
  have hw := h.watches t
  cases a with
  | call b =>
      simp only [SdSys.step] at hs
      split at hs
      · rename_i ht
        obtain rfl := Option.some.inj hs
        exact h.call ht hok b
      · cases hs
  | push =>
      simp only [SdSys.step] at hs
      split at hs
      · rename_i r ht hidle
        have hq : s.bqueue = [] := hok
        simp only [hq, List.nil_append] at hs
        obtain rfl := Option.some.inj hs
        exact h.push ht hidle hq
      · cases hs
  | save =>
      simp only [SdSys.step] at hs
      split at hs
      · rename_i r first ht
        obtain rfl := Option.some.inj hs
        rw [ht] at hw
        obtain ⟨rfl, hw⟩ := hw
        apply h.setPc
        · exact ⟨rfl, hw.imp_left fun hqueued => ⟨hqueued, rfl⟩⟩
        · exact .inr (by rw [ht]; rfl)
        · simp
      · cases hs
  | test =>
      simp only [SdSys.step] at hs
      split at hs
      · rename_i r first saved ht
        rw [ht] at hw
        split at hs
        · obtain rfl := Option.some.inj hs
          apply h.setPc
          · exact hw
          · exact .inr (by rw [ht]; rfl)
          · simp
        · rename_i hne
          obtain rfl := Option.some.inj hs
          exact h.returns (by rw [ht]; rfl) (h.served_of_test ht hok hne).2
      · cases hs
  | wait =>
      simp only [SdSys.step] at hs
      split at hs
      · rename_i r first saved ht
        rw [ht] at hw
        split at hs
        · rename_i sem hwait
          obtain rfl := Option.some.inj hs
          have hsem : sem.sleeplist = s.rwDone.sleeplist := Semaphore.sleeplist_of_waitSem hwait
          have ht' : SdInv (s.setPc t (.test r first saved)) :=
            h.setPc hw (.inr (by rw [ht]; rfl)) (by simp)
          apply ht'.setSem
          exact fun u q first saved hu => hsem ▸ ht'.prop.listed u q first saved hu
        · rename_i sem hwait
          obtain rfl := Option.some.inj hs
          have hsem : sem.sleeplist = t :: s.rwDone.sleeplist :=
            Semaphore.sleeplist_of_waitSem hwait
          have hin : SdInv { s with rwDone := sem } := h.setSem fun u q first saved hu =>
            hsem ▸ List.mem_cons_of_mem _ (h.prop.listed u q first saved hu)
          exact hin.setPc hw (.inr (by rw [ht]; rfl)) (by simp [hsem])
      · cases hs
  | intr => exact h.sdIntr hs
  | intrRun => exact h.sdIntrRun hs

end SdInv

/-- **A call returns after its own request**, and no request is dropped from the wait list, in
every run where `init_sem` meets no waiting process, every push an empty queue, and no process sees
the flags of its buffer change before `sd_intr` is done with it. -/
theorem sdrw_waits_for_own {disk : ℕ → α} {b : Buf α} {s : SdSys α}
    (h : Reach SdSys.step Outstanding (.init disk b) s) : WaitsForOwn s := by
  have hinv : SdInv s := h.invariant (.init disk b) fun _ _ _ hi hok hs => hi.step hok hs
  exact hinv.prop

end

/-- Two processes read one after the other.  The second waits for the card, and the third calls
`sdrw` to write while `sd_intr` is about to post. -/
theorem sdrw_waits_for_own_three : ∃ s : SdSys ℕ, WaitsForOwn s ∧ s.intr = .popped 2 ∧
    s.returned = [(1, ⟨8, ⟨false, true⟩, 18⟩), (0, ⟨7, ⟨false, true⟩, 17⟩)] := by
  have hrun : ((runs (fun s i => if decide (Outstanding s i) then s.step i else none)
      (.init (· + 10) ⟨0, ⟨false, false⟩, 0⟩)
      [(0, .call ⟨7, ⟨false, false⟩, 0⟩), (0, .push), (0, .save), (0, .intr), (0, .test),
        (0, .intrRun), (0, .intrRun), (0, .intrRun), (0, .wait), (0, .test),
        (1, .call ⟨8, ⟨false, false⟩, 0⟩), (1, .push), (1, .save), (1, .test), (1, .wait),
        (0, .intr), (0, .intrRun), (0, .intrRun), (0, .intrRun), (1, .test),
        (2, .call ⟨7, ⟨true, true⟩, 5⟩), (2, .push), (2, .save), (2, .test), (0, .intr),
        (0, .intrRun), (2, .wait)]).map fun s => (s.intr, s.returned)) =
      some (.popped 2, [(1, ⟨8, ⟨false, true⟩, 18⟩), (0, ⟨7, ⟨false, true⟩, 17⟩)]) := by
    decide +kernel
  obtain ⟨s, hs, hlast⟩ := Option.map_eq_some_iff.mp hrun
  have hreach := Reach.init.of_tested (fun s i hi => of_decide_eq_true hi) _ hs
  exact ⟨s, sdrw_waits_for_own hreach, Prod.mk.inj hlast⟩

/-- A second reader returns as soon as the flags of the first request are stored. -/
theorem second_reader_too_early : ∃ s : SdSys ℕ,
    Reach SdSys.step (fun _ _ => True) (.init (· + 10) ⟨0, ⟨false, false⟩, 0⟩) s ∧
      ¬WaitsForOwn s := by
  have hrun : ((runs SdSys.step (.init (· + 10) ⟨0, ⟨false, false⟩, 0⟩)
      [(0, .call ⟨7, ⟨false, false⟩, 0⟩), (0, .push), (0, .save),
        (1, .call ⟨8, ⟨false, false⟩, 0⟩), (1, .push), (1, .save), (0, .intr), (0, .intrRun),
        (0, .intrRun), (0, .intrRun), (1, .test)]).map
        fun s => (s.returned, s.transfers)) =
      some ([(1, ⟨8, ⟨false, false⟩, 0⟩)], [⟨0, false, 17⟩]) := by decide +kernel
  obtain ⟨s, hs, hlast⟩ := Option.map_eq_some_iff.mp hrun
  obtain ⟨hret, htr⟩ := Prod.mk.inj hlast
  refine ⟨s, Reach.init.of_runs _ hs, fun hall => ?_⟩
  obtain ⟨-, tr, hmem, hreq, -⟩ := hall.own (1, ⟨8, ⟨false, false⟩, 0⟩) (by simp [hret])
  rw [htr, List.mem_singleton] at hmem
  subst hmem
  cases hreq

/-- Even a single writer returns too early when it looks between the store of the flags and the
pop: the request on its stack is still in the queue, and the card is not done. -/
theorem writer_too_early : ∃ s : SdSys ℕ,
    Reach SdSys.step (fun _ _ => True) (.init (· + 10) ⟨0, ⟨false, false⟩, 0⟩) s ∧
      s.returned = [(0, ⟨7, ⟨false, true⟩, 5⟩)] ∧ s.bqueue = [0] ∧ s.transfers = [] := by
  have hrun : ((runs SdSys.step (.init (· + 10) ⟨0, ⟨false, false⟩, 0⟩)
      [(0, .call ⟨7, ⟨true, true⟩, 5⟩), (0, .push), (0, .save), (0, .intr), (0, .test)]).map
        fun s => (s.returned, s.bqueue, s.transfers)) =
      some ([(0, ⟨7, ⟨false, true⟩, 5⟩)], [0], []) := by decide +kernel
  obtain ⟨s, hs, hlast⟩ := Option.map_eq_some_iff.mp hrun
  obtain ⟨hret, hrest⟩ := Prod.mk.inj hlast
  exact ⟨s, Reach.init.of_runs _ hs, hret, Prod.mk.inj hrest⟩

end OsLab
