import OsLab.Lib.Run
import Mathlib.Algebra.Ring.Nat
import Mathlib.Data.List.Nodup
import Mathlib.Data.Finset.Card
import Mathlib.Data.Finset.Range

/-!
# The table of message queues

`sys_msgget` puts a queue into the first free entry of `msg_ids` and packs the index and
the number of the creation into the id; `sys_msgctl` takes it out.  The id is split with
C's `%` and `/`, which round towards zero, so that a negative id may give a negative
index.  A read outside the array is `none`.

What was created and what was removed is recorded beside the table.

## Main definitions

* `IpcIds`, `IpcIds.step` — the table and the two calls.
* `TableOk` — the entries are the queues that were created and not removed.
* `msgids_identify` — what the ids and keys of a run stand for.
* `safeId_iff` — which ids are safe.
-/

namespace OsLab

/-- `SEQ_MULTIPLIER` -/
def seqMultiplier : ℤ := 16

/-- The errors of `ipc.h` that `sys_msgget`, `sys_msgctl` and a lookup return. -/
def enomem : ℤ := -1
def enoseq : ℤ := -2
def enoent : ℤ := -3
def eexist : ℤ := -4
def einval : ℤ := -5
def eidrm : ℤ := -7

/-- `IPC_PRIVATE` -/
def ipcPrivate : ℤ := 0

/-- `struct msg_queue` without its lists; `num` tells how many were created before. -/
structure MsgQueue where
  key : ℤ
  seq : ℤ
  num : ℕ
  deriving DecidableEq, Repr

/-- `struct ipc_ids` -/
structure IpcIds where
  size : ℕ
  inUse : ℤ
  /-- an `unsigned short` -/
  seq : ℕ
  entries : ℕ → Option MsgQueue
  /-- the queues created, with their ids -/
  born : List (MsgQueue × ℤ)
  /-- the numbers of the queues removed -/
  gone : List ℕ

namespace IpcIds

/-- `init_ipc()` -/
def init : IpcIds where
  size := 16
  inUse := 0
  seq := 0
  entries := fun _ => none
  born := []
  gone := []

/-- `ipc_buildin(id, seq)` -/
def ipcBuildin (id : ℕ) (seq : ℤ) : ℤ := seq * seqMultiplier + id

variable (t : IpcIds)

/-- The entry that `ipc_addid` finds. -/
def freeEntry : Option ℕ := (List.range t.size).find? fun i => (t.entries i).isNone

/-- `newque(key)`; `mem` says whether `kalloc` gets its memory. -/
def newque (key : ℤ) (mem : Bool) : ℤ × IpcIds :=
  if mem = false then (enomem, t)
  else match t.freeEntry with
    | none => (enoseq, t)
    | some id =>
        let que : MsgQueue := ⟨key, t.seq, t.born.length⟩
        (ipcBuildin id que.seq, { t with
          inUse := t.inUse + 1
          seq := (t.seq + 1) % 2 ^ 16
          entries := Function.update t.entries id (some que)
          born := (que, ipcBuildin id que.seq) :: t.born })

/-- `ipc_findkey(key)` -/
def ipcFindkey (key : ℤ) : Option (ℕ × MsgQueue) :=
  (List.range t.size).findSome? fun i =>
    match t.entries i with
    | some q => if q.key = key then some (i, q) else none
    | none => none

/-- `sys_msgget(key, msgflg)`, with the flags `IPC_CREATE` and `IPC_EXCL` -/
def sysMsgget (key : ℤ) (create excl mem : Bool) : ℤ × IpcIds :=
  if key = ipcPrivate then t.newque key mem
  else match t.ipcFindkey key with
    | none => if create then t.newque key mem else (enoent, t)
    | some (id, q) => if excl then (eexist, t) else (ipcBuildin id q.seq, t)

/-- `get_msgq(msgid)` -/
def getMsgq (msgid : ℤ) : Option (Option MsgQueue) :=
  let id := msgid.tmod seqMultiplier
  if id ≥ t.size then some none
  else if id < 0 then none
  else match t.entries id.toNat with
    | none => some none
    | some q => if msgid.tdiv seqMultiplier ≠ q.seq then some none else some (some q)

/-- `freeque(msgid)`, as far as the table goes -/
def freeque (msgid : ℤ) : Option IpcIds := do
  match ← t.getMsgq msgid with
  | none => some t
  | some q => some { t with
      entries := Function.update t.entries (msgid.tmod seqMultiplier).toNat none
      inUse := t.inUse - 1
      gone := q.num :: t.gone }

/-- `sys_msgctl(msgid, cmd)`; `IPC_RMID` is 0. -/
def sysMsgctl (msgid cmd : ℤ) : Option (ℤ × IpcIds) :=
  if cmd = 0 then (t.freeque msgid).map fun t => (0, t)
  else some (einval, t)

/-- `sys_msgsnd` up to the queue it sends to; `null` says that there is no buffer, `mem` that
`load_msg` gets its pages. -/
def sndQueue (msgid mtype msgsz : ℤ) (null mem : Bool) : Option (Except ℤ MsgQueue) :=
  if msgsz < 0 ∨ null ∨ mtype < 1 then some (.error einval)
  else if mem = false then some (.error enomem)
  else (t.getMsgq msgid).map fun q => q.elim (.error eidrm) .ok

/-- `sys_msgrcv` up to the queue it receives from -/
def rcvQueue (msgid msgsz : ℤ) (null : Bool) : Option (Except ℤ MsgQueue) :=
  if msgsz < 0 ∨ null then some (.error einval)
  else (t.getMsgq msgid).map fun q => q.elim (.error eidrm) .ok

inductive Call
  | msgget (key : ℤ) (create excl mem : Bool)
  | msgctl (msgid cmd : ℤ)
  deriving DecidableEq, Repr

/-- One call. -/
def step : Call → Option IpcIds
  | .msgget key create excl mem => some (t.sysMsgget key create excl mem).2
  | .msgctl msgid cmd => (t.sysMsgctl msgid cmd).map Prod.snd

end IpcIds

/-- **The entries are the queues that were created and not removed.** -/
structure TableOk (t : IpcIds) : Prop where
  size : t.size = 16
  seq : t.seq = t.born.length % 2 ^ 16
  born : ∀ b ∈ t.born, b.1.num < t.born.length ∧ b.1.seq = (b.1.num % 2 ^ 16 : ℕ) ∧
    ∃ i < 16, b.2 = IpcIds.ipcBuildin i b.1.seq
  nums : (t.born.map (·.1.num)).Nodup
  entries : ∀ i q, t.entries i = some q ↔
    i < 16 ∧ (q, IpcIds.ipcBuildin i q.seq) ∈ t.born ∧ q.num ∉ t.gone
  keys : ∀ i j q q', t.entries i = some q → t.entries j = some q' → q.key = q'.key →
    q.key ≠ ipcPrivate → i = j
  inUse : t.inUse = (((Finset.range 16).filter fun i => (t.entries i).isSome).card : ℕ)
  gone : ∀ n ∈ t.gone, n < t.born.length

/-! ## Ids -/

namespace IpcIds

theorem ipcBuildin_inj {i j : ℕ} {a b : ℤ} (hi : i < 16) (hj : j < 16)
    (h : ipcBuildin i a = ipcBuildin j b) : i = j ∧ a = b := by
  simp only [ipcBuildin, seqMultiplier] at h
  omega

theorem tmod_ipcBuildin {i : ℕ} {a : ℤ} (hi : i < 16) (ha : 0 ≤ a) :
    (ipcBuildin i a).tmod seqMultiplier = i ∧ (ipcBuildin i a).tdiv seqMultiplier = a := by
  have hnn : 0 ≤ ipcBuildin i a := by
    simp only [ipcBuildin, seqMultiplier]
    omega
  rw [Int.tmod_eq_emod_of_nonneg hnn, Int.tdiv_eq_ediv_of_nonneg hnn]
  simp only [ipcBuildin, seqMultiplier]
  omega

/-- An id is built from its parts. -/
theorem eq_ipcBuildin {msgid : ℤ} {i : ℕ} {a : ℤ} (h : msgid.tmod seqMultiplier = i)
    (h' : msgid.tdiv seqMultiplier = a) : msgid = ipcBuildin i a := by
  have := Int.mul_tdiv_add_tmod msgid seqMultiplier
  rw [h, h'] at this
  simp only [ipcBuildin, seqMultiplier] at *
  omega

end IpcIds

namespace TableOk

open IpcIds

variable {t : IpcIds}

theorem seq_nonneg (h : TableOk t) {b : MsgQueue × ℤ} (hb : b ∈ t.born) : 0 ≤ b.1.seq := by
  rw [(h.born b hb).2.1]
  exact Int.natCast_nonneg _

/-- A queue has one id. -/
theorem born_inj (h : TableOk t) {b b' : MsgQueue × ℤ} (hb : b ∈ t.born) (hb' : b' ∈ t.born)
    (heq : b.1.num = b'.1.num) : b = b' :=
  List.inj_on_of_nodup_map h.nums hb hb' heq

/-- **`get_msgq` finds the queues that were created and not removed.** -/
theorem getMsgq_iff (h : TableOk t) (msgid : ℤ) (q : MsgQueue) :
    t.getMsgq msgid = some (some q) ↔ (q, msgid) ∈ t.born ∧ q.num ∉ t.gone := by
  constructor
  · intro hget
    rw [getMsgq] at hget
    by_cases hsize : msgid.tmod seqMultiplier ≥ t.size
    · simp [hsize] at hget
    by_cases hneg : msgid.tmod seqMultiplier < 0
    · simp [hsize, hneg] at hget
    rw [if_neg hsize, if_neg hneg] at hget
    cases hentry : t.entries (msgid.tmod seqMultiplier).toNat with
    | none => simp [hentry] at hget
    | some q' =>
        simp only [hentry] at hget
        by_cases hseq : msgid.tdiv seqMultiplier ≠ q'.seq
        · simp [hseq] at hget
        rw [if_neg hseq] at hget
        obtain rfl : q' = q := by simpa using hget
        have hid := eq_ipcBuildin (Int.toNat_of_nonneg (by omega)).symm (not_not.mp hseq)
        have hq := (h.entries _ _).mp hentry
        rw [← hid] at hq
        exact hq.2
  · rintro ⟨hborn, hgone⟩
    obtain ⟨-, -, i, hi, hid⟩ := h.born _ hborn
    obtain ⟨h1, h2⟩ := tmod_ipcBuildin hi (h.seq_nonneg hborn)
    have hid : msgid = ipcBuildin i q.seq := hid
    have hentry : t.entries i = some q := (h.entries i q).mpr ⟨hi, by rw [← hid]; exact hborn, hgone⟩
    rw [← hid] at h1 h2
    have hsize := h.size
    simp only [getMsgq, h1, h2, Int.toNat_natCast, hentry]
    rw [if_neg (by omega), if_neg (by omega), if_neg (by simp)]

/-- The index of a lookup is inside the array. -/
theorem getMsgq_inside (h : TableOk t) (msgid : ℤ) :
    t.getMsgq msgid ≠ none ↔ 0 ≤ msgid ∨ seqMultiplier ∣ msgid := by
  have hsign : 0 ≤ msgid.tmod seqMultiplier ↔ 0 ≤ msgid ∨ seqMultiplier ∣ msgid := by
    rw [Int.dvd_iff_tmod_eq_zero]
    by_cases hpos : 0 ≤ msgid
    · exact ⟨fun _ => .inl hpos, fun _ => Int.tmod_nonneg _ hpos⟩
    · have hneg : (-msgid).tmod seqMultiplier = -msgid.tmod seqMultiplier := Int.neg_tmod _ _
      have hle : 0 ≤ (-msgid).tmod seqMultiplier := Int.tmod_nonneg _ (by omega)
      omega
  rw [← hsign]
  have hsize := h.size
  have hlt : msgid.tmod seqMultiplier < 16 := Int.tmod_lt_of_pos _ (by decide)
  simp only [getMsgq]
  rw [if_neg (by omega)]
  by_cases hneg : msgid.tmod seqMultiplier < 0
  · rw [if_pos hneg]
    simpa using hneg
  · rw [if_neg hneg]
    refine ⟨fun _ => by omega, fun _ => ?_⟩
    cases t.entries (msgid.tmod seqMultiplier).toNat with
    | none => simp
    | some q =>
        dsimp only
        split_ifs <;> simp

/-! ## The calls keep the table -/

theorem initial : TableOk IpcIds.init where
  size := rfl
  seq := rfl
  born := by simp [IpcIds.init]
  nums := by simp [IpcIds.init]
  entries := by simp [IpcIds.init]
  keys := by simp [IpcIds.init]
  inUse := by simp [IpcIds.init]
  gone := by simp [IpcIds.init]

theorem freeEntry_spec (h : TableOk t) {i : ℕ} (hi : t.freeEntry = some i) :
    i < 16 ∧ t.entries i = none := by
  have hmem := List.mem_of_find?_eq_some hi
  have hnone := List.find?_some hi
  rw [List.mem_range, h.size] at hmem
  exact ⟨hmem, by simpa using hnone⟩

theorem newque (h : TableOk t) {key : ℤ} {mem : Bool}
    (hkey : key = ipcPrivate ∨ ∀ i q, t.entries i = some q → q.key ≠ key) :
    TableOk (t.newque key mem).2 := by
  rw [IpcIds.newque]
  split_ifs with hmem
  · exact h
  cases hfree : t.freeEntry with
  | none => exact h
  | some i =>
      obtain ⟨hi, hnone⟩ := h.freeEntry_spec hfree
      set que : MsgQueue := ⟨key, t.seq, t.born.length⟩ with hque
      have hold : ∀ b ∈ t.born, b.1.num ≠ que.num := fun b hb => (h.born b hb).1.ne
      refine ⟨h.size, ?_, ?_, ?_, ?_, ?_, ?_, ?_⟩
      · change (t.seq + 1) % 2 ^ 16 = (t.born.length + 1) % 2 ^ 16
        rw [h.seq]
        omega
      · intro b hb
        rcases List.mem_cons.mp hb with rfl | hb
        · exact ⟨by simp [hque], by simp [hque, h.seq], i, hi, rfl⟩
        · obtain ⟨h1, h2⟩ := h.born b hb
          exact ⟨by rw [List.length_cons]; omega, h2⟩
      · refine List.nodup_cons.mpr ⟨?_, h.nums⟩
        intro hmem
        obtain ⟨b, hb, heq⟩ := List.mem_map.mp hmem
        exact hold b hb heq
      · intro j q
        change Function.update t.entries i (some que) j = some q ↔
          j < 16 ∧ (q, ipcBuildin j q.seq) ∈ (que, ipcBuildin i que.seq) :: t.born ∧ q.num ∉ t.gone
        by_cases hj : j = i
        · subst hj
          rw [Function.update_self]
          constructor
          · intro heq
            obtain rfl : que = q := Option.some.inj heq
            exact ⟨hi, List.mem_cons_self, fun hg => (h.gone _ hg).ne rfl⟩
          · rintro ⟨-, hborn, hgone⟩
            rcases List.mem_cons.mp hborn with heq | hborn
            · rw [(Prod.mk.inj heq).1]
            · rw [(h.entries j q).mpr ⟨hi, hborn, hgone⟩] at hnone
              cases hnone
        · rw [Function.update_of_ne hj, h.entries j q]
          constructor
          · rintro ⟨h1, h2, h3⟩
            exact ⟨h1, List.mem_cons_of_mem _ h2, h3⟩
          · rintro ⟨h1, h2, h3⟩
            rcases List.mem_cons.mp h2 with heq | h2
            · obtain ⟨rfl, heq⟩ := Prod.mk.inj heq
              exact absurd (ipcBuildin_inj h1 hi heq).1 hj
            · exact ⟨h1, h2, h3⟩
      · intro a b q q' ha hb heq hq
        have hnew : ∀ c p, c ≠ i → Function.update t.entries i (some que) c = some p →
            p.key ≠ ipcPrivate → p.key ≠ key := by
          intro c p hc hp hpk
          rw [Function.update_of_ne hc] at hp
          rcases hkey with hkey | hkey
          · rwa [hkey]
          · exact hkey c p hp
        by_cases hai : a = i
        · by_cases hbi : b = i
          · rw [hai, hbi]
          · have ha : Function.update t.entries i (some que) a = some q := ha
            rw [hai, Function.update_self] at ha
            obtain rfl : que = q := Option.some.inj ha
            exact absurd heq.symm (hnew b q' hbi hb (heq ▸ hq))
        · by_cases hbi : b = i
          · have hb : Function.update t.entries i (some que) b = some q' := hb
            rw [hbi, Function.update_self] at hb
            obtain rfl : que = q' := Option.some.inj hb
            exact absurd heq (hnew a q hai ha hq)
          · have ha : Function.update t.entries i (some que) a = some q := ha
            have hb : Function.update t.entries i (some que) b = some q' := hb
            rw [Function.update_of_ne hai] at ha
            rw [Function.update_of_ne hbi] at hb
            exact h.keys a b q q' ha hb heq hq
      · have hset : ((Finset.range 16).filter fun j =>
            (Function.update t.entries i (some que) j).isSome) =
            insert i ((Finset.range 16).filter fun j => (t.entries j).isSome) := by
          ext j
          by_cases hj : j = i
          · simp [hj, hi]
          · simp [hj]
        change t.inUse + 1 = (((Finset.range 16).filter fun j =>
          (Function.update t.entries i (some que) j).isSome).card : ℕ)
        rw [hset, Finset.card_insert_of_notMem (by simp [hnone]), h.inUse]
        push_cast
        rfl
      · intro n hn
        have := h.gone n hn
        change n < t.born.length + 1
        omega

theorem freeque (h : TableOk t) {msgid : ℤ} {t' : IpcIds} (hfree : t.freeque msgid = some t') :
    TableOk t' := by
  rw [IpcIds.freeque, Option.bind_eq_bind, Option.bind_eq_some_iff] at hfree
  obtain ⟨found, hget, hfree⟩ := hfree
  cases found with
  | none =>
      cases hfree
      exact h
  | some q =>
      obtain ⟨hborn, hgone⟩ := (h.getMsgq_iff msgid q).mp hget
      obtain ⟨-, -, i, hi, hid⟩ := h.born _ hborn
      have hid : msgid = ipcBuildin i q.seq := hid
      have hmod : (msgid.tmod seqMultiplier).toNat = i := by
        rw [hid, (tmod_ipcBuildin hi (h.seq_nonneg hborn)).1, Int.toNat_natCast]
      have hentry : t.entries i = some q :=
        (h.entries i q).mpr ⟨hi, by rw [← hid]; exact hborn, hgone⟩
      simp only [hmod, Option.some.injEq] at hfree
      rw [← hfree]
      refine ⟨h.size, h.seq, h.born, h.nums, ?_, ?_, ?_, ?_⟩
      · intro j p
        change Function.update t.entries i none j = some p ↔
          j < 16 ∧ (p, ipcBuildin j p.seq) ∈ t.born ∧ p.num ∉ q.num :: t.gone
        by_cases hj : j = i
        · subst hj
          rw [Function.update_self]
          constructor
          · intro heq
            cases heq
          · rintro ⟨-, hp, hpg⟩
            rw [List.mem_cons, not_or] at hpg
            -- the entry has only one queue
            have := (h.entries j p).mpr ⟨hi, hp, hpg.2⟩
            rw [hentry] at this
            exact absurd (congrArg MsgQueue.num (Option.some.inj this)).symm hpg.1
        · rw [Function.update_of_ne hj, h.entries j p, List.mem_cons, not_or]
          constructor
          · rintro ⟨h1, h2, h3⟩
            refine ⟨h1, h2, ?_, h3⟩
            intro heq
            have hpair := Prod.mk.inj (h.born_inj h2 hborn heq)
            rw [hid] at hpair
            exact hj (ipcBuildin_inj h1 hi hpair.2).1
          · rintro ⟨h1, h2, -, h3⟩
            exact ⟨h1, h2, h3⟩
      · intro a b p p' ha hb
        have hold : ∀ c x, Function.update t.entries i none c = some x →
            t.entries c = some x := by
          intro c x hx
          by_cases hc : c = i
          · rw [hc, Function.update_self] at hx
            cases hx
          · rwa [Function.update_of_ne hc] at hx
        exact h.keys a b p p' (hold a p ha) (hold b p' hb)
      · have hset : ((Finset.range 16).filter fun j =>
            (Function.update t.entries i none j).isSome) =
            ((Finset.range 16).filter fun j => (t.entries j).isSome).erase i := by
          ext j
          by_cases hj : j = i
          · simp [hj]
          · simp [hj]
        have hmem : i ∈ (Finset.range 16).filter fun j => (t.entries j).isSome := by
          simp [hi, hentry]
        have hpos := Finset.card_pos.mpr ⟨i, hmem⟩
        change t.inUse - 1 = (((Finset.range 16).filter fun j =>
          (Function.update t.entries i none j).isSome).card : ℕ)
        rw [hset, Finset.card_erase_of_mem hmem, h.inUse]
        omega
      · intro n hn
        rcases List.mem_cons.mp hn with rfl | hn
        · exact (h.born _ hborn).1
        · exact h.gone n hn

theorem findkey_none (h : TableOk t) {key : ℤ} (hkey : t.ipcFindkey key = none) :
    ∀ i q, t.entries i = some q → q.key ≠ key := by
  intro i q hq heq
  have hi := ((h.entries i q).mp hq).1
  have := List.findSome?_eq_none_iff.mp hkey i (by rw [List.mem_range, h.size]; exact hi)
  simp [hq, heq] at this

theorem findkey_some {key : ℤ} {i : ℕ} {q : MsgQueue} (hkey : t.ipcFindkey key = some (i, q)) :
    t.entries i = some q ∧ q.key = key := by
  obtain ⟨j, -, hj⟩ := List.exists_of_findSome?_eq_some hkey
  cases hentry : t.entries j with
  | none => simp [hentry] at hj
  | some p =>
      simp only [hentry] at hj
      split_ifs at hj with hk
      obtain ⟨rfl, rfl⟩ := Prod.mk.inj (Option.some.inj hj)
      exact ⟨hentry, hk⟩

theorem sysMsgget (h : TableOk t) (key : ℤ) (create excl mem : Bool) :
    TableOk (t.sysMsgget key create excl mem).2 := by
  rw [IpcIds.sysMsgget]
  by_cases hkey : key = ipcPrivate
  · rw [if_pos hkey]
    exact h.newque (.inl hkey)
  · rw [if_neg hkey]
    cases hfind : t.ipcFindkey key with
    | none =>
        cases create with
        | true => exact h.newque (.inr (h.findkey_none hfind))
        | false => exact h
    | some b =>
        cases excl with
        | true => exact h
        | false => exact h

theorem step (h : TableOk t) {c : Call} {t' : IpcIds} (hs : t.step c = some t') : TableOk t' := by
  cases c with
  | msgget key create excl mem =>
      cases hs
      exact h.sysMsgget key create excl mem
  | msgctl msgid cmd =>
      rw [IpcIds.step, Option.map_eq_some_iff] at hs
      obtain ⟨⟨ret, u⟩, hctl, rfl⟩ := hs
      rw [IpcIds.sysMsgctl] at hctl
      split_ifs at hctl
      · obtain ⟨u', hfree, heq⟩ := Option.map_eq_some_iff.mp hctl
        obtain ⟨-, rfl⟩ := Prod.mk.inj heq
        exact h.freeque hfree
      · obtain ⟨-, rfl⟩ := Prod.mk.inj (Option.some.inj hctl)
        exact h

theorem of_reach (h : Reach IpcIds.step (fun _ _ => True) IpcIds.init t) : TableOk t :=
  Reach.invariant h initial fun _ _ _ h _ hs => h.step hs

end TableOk

/-! ## What ids and keys stand for -/

/-- **Ids and keys.** -/
structure MsgidsIdentify (t : IpcIds) : Prop where
  inUse : t.inUse = (((Finset.range 16).filter fun i => (t.entries i).isSome).card : ℕ)
  /-- at most one queue for a key -/
  keys : ∀ i j q q', t.entries i = some q → t.entries j = some q' → q.key = q'.key →
    q.key ≠ ipcPrivate → i = j
  /-- `sys_msgget` on a key in use returns the id of its queue -/
  again : ∀ b ∈ t.born, b.1.num ∉ t.gone → b.1.key ≠ ipcPrivate → ∀ create mem,
    t.sysMsgget b.1.key create false mem = (b.2, t)
  /-- different queues have different ids -/
  distinct : (t.born.map Prod.snd).Nodup
  /-- an id leads to its queue, until that is removed -/
  lookup : ∀ msgid, 0 ≤ msgid → t.getMsgq msgid ≠ none ∧
    ∀ q, t.getMsgq msgid = some (some q) ↔ (q, msgid) ∈ t.born ∧ q.num ∉ t.gone
  /-- a `sys_msgget` that creates a queue returns its id -/
  created : ∀ key create excl mem, (t.sysMsgget key create excl mem).2.born = t.born ∨
    ∃ q, (t.sysMsgget key create excl mem).2.born =
      (q, (t.sysMsgget key create excl mem).1) :: t.born
  failed : ∀ key create excl mem, (t.sysMsgget key create excl mem).1 < 0 →
    (t.sysMsgget key create excl mem).2 = t

namespace IpcIds

theorem newque_cases (t : IpcIds) (key : ℤ) (mem : Bool) : (t.newque key mem).2 = t ∨
    0 ≤ (t.newque key mem).1 ∧
      ∃ q, (t.newque key mem).2.born = (q, (t.newque key mem).1) :: t.born := by
  rw [newque]
  cases mem with
  | false => exact .inl rfl
  | true =>
      rw [if_neg (by simp)]
      cases t.freeEntry with
      | none => exact .inl rfl
      | some i =>
          refine .inr ⟨?_, _, rfl⟩
          simp only [ipcBuildin, seqMultiplier]
          omega

/-- A `sys_msgget` fails, or creates a queue, or returns an id. -/
theorem sysMsgget_cases (t : IpcIds) (key : ℤ) (create excl mem : Bool) :
    (t.sysMsgget key create excl mem).2 = t ∨
      0 ≤ (t.sysMsgget key create excl mem).1 ∧
        ∃ q, (t.sysMsgget key create excl mem).2.born =
          (q, (t.sysMsgget key create excl mem).1) :: t.born := by
  rw [sysMsgget]
  by_cases hkey : key = ipcPrivate
  · rw [if_pos hkey]
    exact t.newque_cases key mem
  · rw [if_neg hkey]
    cases t.ipcFindkey key with
    | none =>
        cases create with
        | true => exact t.newque_cases key mem
        | false => exact .inl rfl
    | some c =>
        cases excl with
        | true => exact .inl rfl
        | false => exact .inl rfl

end IpcIds

namespace TableOk

open IpcIds

variable {t : IpcIds}

theorem entry_of_born (h : TableOk t) {b : MsgQueue × ℤ} (hb : b ∈ t.born)
    (hg : b.1.num ∉ t.gone) : ∃ i < 16, t.entries i = some b.1 ∧ b.2 = ipcBuildin i b.1.seq := by
  obtain ⟨-, -, i, hi, hid⟩ := h.born b hb
  exact ⟨i, hi, (h.entries i b.1).mpr ⟨hi, by rw [← hid]; exact hb, hg⟩, hid⟩

theorem again (h : TableOk t) {b : MsgQueue × ℤ} (hb : b ∈ t.born) (hg : b.1.num ∉ t.gone)
    (hk : b.1.key ≠ ipcPrivate) (create mem : Bool) :
    t.sysMsgget b.1.key create false mem = (b.2, t) := by
  obtain ⟨i, hi, hentry, hid⟩ := h.entry_of_born hb hg
  rw [IpcIds.sysMsgget, if_neg hk]
  cases hfind : t.ipcFindkey b.1.key with
  | none => exact absurd rfl (h.findkey_none hfind i b.1 hentry)
  | some c =>
      obtain ⟨j, q⟩ := c
      obtain ⟨hq, hqk⟩ := findkey_some hfind
      obtain rfl : j = i := h.keys j i q b.1 hq hentry hqk (hqk ▸ hk)
      rw [hentry] at hq
      obtain rfl : b.1 = q := Option.some.inj hq
      simp [hid]

/-- With fewer than 2^16 creations the numbers in the ids are those of the creations. -/
theorem distinct (h : TableOk t) (hlen : t.born.length < 2 ^ 16) :
    (t.born.map Prod.snd).Nodup := by
  refine (List.nodup_map_iff_inj_on (List.Nodup.of_map _ h.nums)).mpr ?_
  intro b hb b' hb' heq
  obtain ⟨hn, hs, i, hi, hid⟩ := h.born b hb
  obtain ⟨hn', hs', i', hi', hid'⟩ := h.born b' hb'
  rw [hid, hid'] at heq
  have hseq := (ipcBuildin_inj hi hi' heq).2
  rw [hs, hs', Nat.mod_eq_of_lt (by omega), Nat.mod_eq_of_lt (by omega)] at hseq
  exact h.born_inj hb hb' (by exact_mod_cast hseq)

end TableOk

/-- **Ids and keys** of every run of `sys_msgget` and `sys_msgctl` that creates fewer than 2^16
queues. -/
theorem msgids_identify (t : IpcIds) (h : Reach IpcIds.step (fun _ _ => True) IpcIds.init t)
    (hlen : t.born.length < 2 ^ 16) : MsgidsIdentify t := by
  have hok := TableOk.of_reach h
  refine ⟨hok.inUse, hok.keys, fun b hb hg hk => hok.again hb hg hk, hok.distinct hlen, ?_, ?_, ?_⟩
  · intro msgid hpos
    exact ⟨(hok.getMsgq_inside msgid).mpr (.inl hpos), hok.getMsgq_iff msgid⟩
  · intro key create excl mem
    rcases t.sysMsgget_cases key create excl mem with heq | ⟨-, hq⟩
    · rw [heq]
      exact .inl rfl
    · exact .inr hq
  · intro key create excl mem hneg
    rcases t.sysMsgget_cases key create excl mem with heq | ⟨hpos, -⟩
    · exact heq
    · omega

/-- A queue is removed and its entry used again, with another id. -/
theorem msgids_identify_reused : ∃ t, MsgidsIdentify t ∧ t.born.map Prod.snd = [16, 0] ∧
    t.getMsgq 0 = some none := by
  have hrun : (runs IpcIds.step IpcIds.init [.msgget 7 true false true, .msgctl 0 0,
      .msgget 7 true false true]).map (fun t => (t.born.map Prod.snd, t.getMsgq 0)) =
      some ([16, 0], some none) := by decide +kernel
  obtain ⟨t, ht, hend⟩ := Option.map_eq_some_iff.mp hrun
  obtain ⟨h1, h2⟩ := Prod.mk.inj hend
  have hlen : t.born.length = 2 := by
    rw [← List.length_map (f := Prod.snd), h1]
    rfl
  exact ⟨t, msgids_identify t (Reach.init.of_runs _ ht) (by omega), h1, h2⟩

/-! ## Which ids are safe -/

/-- **The id is safe**: the lookups stay inside the array, and if no `sys_msgget` has returned it
then it is not found and nothing changes. -/
structure SafeId (t : IpcIds) (msgid : ℤ) : Prop where
  ctl : ∀ cmd, t.sysMsgctl msgid cmd ≠ none
  snd : ∀ mtype msgsz null mem, t.sndQueue msgid mtype msgsz null mem ≠ none
  rcv : ∀ msgsz null, t.rcvQueue msgid msgsz null ≠ none
  unknown : (∀ q, (q, msgid) ∉ t.born) →
    (∀ cmd, (t.sysMsgctl msgid cmd).map Prod.snd = some t) ∧
    (∀ mtype msgsz null mem q, t.sndQueue msgid mtype msgsz null mem ≠ some (.ok q)) ∧
    ∀ msgsz null q, t.rcvQueue msgid msgsz null ≠ some (.ok q)

/-- **Which ids are safe**: those that are not negative, and the multiples of `SEQ_MULTIPLIER`. -/
theorem safeId_iff (t : IpcIds) (h : Reach IpcIds.step (fun _ _ => True) IpcIds.init t)
    (msgid : ℤ) : SafeId t msgid ↔ 0 ≤ msgid ∨ seqMultiplier ∣ msgid := by
  have hok := TableOk.of_reach h
  rw [← hok.getMsgq_inside msgid]
  constructor
  · intro hs hnone
    apply hs.rcv 0 false
    simp [IpcIds.rcvQueue, hnone]
  · intro hin
    obtain ⟨found, hget⟩ := Option.ne_none_iff_exists'.mp hin
    refine ⟨?_, ?_, ?_, ?_⟩
    · intro cmd
      rw [IpcIds.sysMsgctl]
      split_ifs
      · cases found <;> simp [IpcIds.freeque, hget]
      · simp
    · intro mtype msgsz null mem
      rw [IpcIds.sndQueue]
      split_ifs <;> simp [hget]
    · intro msgsz null
      rw [IpcIds.rcvQueue]
      split_ifs <;> simp [hget]
    · intro hunknown
      have hnone : t.getMsgq msgid = some none := by
        cases found with
        | none => exact hget
        | some q => exact absurd ((hok.getMsgq_iff msgid q).mp hget).1 (hunknown q)
      refine ⟨?_, ?_, ?_⟩
      · intro cmd
        rw [IpcIds.sysMsgctl]
        split_ifs
        · simp [IpcIds.freeque, hnone]
        · rfl
      · intro mtype msgsz null mem q
        rw [IpcIds.sndQueue]
        split_ifs <;> simp [hnone]
      · intro msgsz null q
        rw [IpcIds.rcvQueue]
        split_ifs <;> simp [hnone]

/-- An id that was never given out. -/
theorem safeId_iff_unused : SafeId IpcIds.init 33 :=
  (safeId_iff IpcIds.init .init 33).mpr (.inl (by decide))

/-- `ENOMEM`, passed on as an id, makes `sys_msgctl` read before the array. -/
theorem negative_id_unsafe : ¬∀ (t : IpcIds),
    Reach IpcIds.step (fun _ _ => True) IpcIds.init t → ∀ msgid, SafeId t msgid := by
  intro h
  have hs := (h IpcIds.init .init enomem).ctl 0
  exact hs (by decide)

end OsLab
