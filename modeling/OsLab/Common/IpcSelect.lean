import OsLab.Common.IpcInv

/-!
# Which message, and which receiver

`sys_msgrcv` searches the queue for a message.  For a negative `mtype` it goes on after a
match, with a bound that is lower by one, and not by as much as the type that was found
allows: it ends with the last message that matches, which need not be the one of the
lowest type.

`pipeline_send` looks for a receiver for a message.  It detaches one whose buffer is too
small, and then goes on with that one's `next`, which is the node itself.

## Main definitions

* `Down` — messages that match one after the other.
* `LowestFirst` — the message that a negative `mtype` asks for.
* `Selects` — `sys_msgrcv` takes the message that `mtype` asks for.
* `selects_iff` — when it does.
* `IpcSys.pipelineLoop` — `pipeline_send`, round by round.
* `delivers_iff` — when it returns, and with what.
-/

namespace OsLab

/-- The first message of the lowest type up to `b`, between those before and behind it. -/
structure LowestFirst (b : ℤ) (pre : List Msg) (m : Msg) (post : List Msg) : Prop where
  le : m.mtype ≤ b
  before : ∀ x ∈ pre, x.mtype ≤ b → m.mtype < x.mtype
  behind : ∀ x ∈ post, x.mtype ≤ b → m.mtype ≤ x.mtype

/-- The message between `pre` and `post` is the one that `mtype` asks for. -/
def AsksFor (mtype : ℤ) (pre : List Msg) (m : Msg) (post : List Msg) : Prop :=
  if mtype = 0 then pre = []
  else if 0 < mtype then m.mtype = mtype ∧ ∀ x ∈ pre, x.mtype ≠ mtype
  else LowestFirst (-mtype) pre m post

/-- **`sys_msgrcv` takes the right message**, and leaves the others in their order; it finds
none exactly when none matches. -/
structure Selects (mtype : ℤ) (ms : List Msg) : Prop where
  missing : findMsg mtype ms none = none ↔ ∀ m ∈ ms, testmsg mtype m.mtype = false
  taken : ∀ m, findMsg mtype ms none = some m → ∃ pre post, ms = pre ++ m :: post ∧
    ms.erase m = pre ++ post ∧ AsksFor mtype pre m post

/-- The types of the messages are at most `b`, `b - 1`, `b - 2` and so on. -/
def Down : ℤ → List Msg → Prop
  | _, [] => True
  | b, m :: ms => m.mtype ≤ b ∧ Down (b - 1) ms

/-- Enough messages before the one asked for match to keep those behind it from matching. -/
def UsedUp (mtype : ℤ) (ms : List Msg) : Prop :=
  ∀ pre m post, ms = pre ++ m :: post → LowestFirst (-mtype) pre m post →
    ∃ ds, ds.Sublist pre ∧ Down (-mtype) ds ∧ ∀ x ∈ post, -mtype - ds.length ≤ x.mtype

/-! ## The search -/

theorem testmsg_neg {mtype type : ℤ} (h : mtype < 0) :
    testmsg mtype type = true ↔ type ≤ -mtype := by
  rw [testmsg, if_neg (by omega), if_pos h, decide_eq_true_iff]
  omega

/-- The search for the first match. -/
theorem findMsg_find {mtype : ℤ} (h : -1 ≤ mtype) (ms : List Msg) :
    findMsg mtype ms none = ms.find? fun m => testmsg mtype m.mtype := by
  induction ms with
  | nil => rfl
  | cons m ms ih =>
      rw [findMsg, List.find?_cons]
      cases htest : testmsg mtype m.mtype with
      | true => rw [if_pos rfl, if_neg (by omega)]
      | false => rw [if_neg (by simp), ih]

theorem Down.le {b : ℤ} {ms : List Msg} (h : Down b ms) : ∀ x ∈ ms, x.mtype ≤ b := by
  induction ms generalizing b with
  | nil => simp
  | cons m ms ih =>
      intro x hx
      rcases List.mem_cons.mp hx with rfl | hx
      · exact h.1
      · have := ih h.2 x hx
        omega

theorem Down.length_le {b : ℤ} {ms : List Msg} (h : Down b ms) {l : ℤ}
    (hl : ∀ m ∈ ms, l ≤ m.mtype) (hb : l ≤ b + 1) : l ≤ b + 1 - ms.length := by
  induction ms generalizing b with
  | nil => simpa using hb
  | cons m ms ih =>
      have hm := hl m List.mem_cons_self
      have := ih h.2 (fun x hx => hl x (List.mem_cons_of_mem _ hx)) (by have := h.1; omega)
      push_cast [List.length_cons]
      omega

/-- The search lowers the bound as often as messages can match one after the other. -/
theorem findMsg_scan (pre : List Msg) {b : ℤ} (hb : 1 ≤ b) (hpre : ∀ x ∈ pre, 2 ≤ x.mtype) :
    ∃ ds, ds.Sublist pre ∧ Down b ds ∧ 1 ≤ b - ds.length ∧
      (∀ ds', ds'.Sublist pre → Down b ds' → ds'.length ≤ ds.length) ∧
      ∀ rest found, ∃ found',
        findMsg (-b) (pre ++ rest) found = findMsg (-(b - ds.length)) rest found' := by
  induction pre generalizing b with
  | nil =>
      refine ⟨[], List.Sublist.refl _, trivial, by simpa using hb, ?_, ?_⟩
      · intro ds' hsub _
        rw [List.sublist_nil.mp hsub]
      · intro rest found
        exact ⟨found, by simp⟩
  | cons m pre ih =>
      have hm := hpre m List.mem_cons_self
      have hpre := fun x hx => hpre x (List.mem_cons_of_mem _ hx)
      by_cases hmb : m.mtype ≤ b
      · -- a match: the bound goes down
        obtain ⟨ds, hsub, hdown, hpos, hmax, hscan⟩ := ih (b := b - 1) (by omega) hpre
        refine ⟨m :: ds, hsub.cons_cons m, ⟨hmb, hdown⟩, ?_, ?_, ?_⟩
        · push_cast [List.length_cons]
          omega
        · intro ds' hsub' hdown'
          cases ds' with
          | nil => simp
          | cons x ds' =>
              have htail : ds'.Sublist pre := by
                cases hsub' with
                | cons _ h => exact (List.sublist_cons_self x ds').trans h
                | cons_cons _ h => exact h
              have := hmax ds' htail hdown'.2
              simp only [List.length_cons]
              omega
        · intro rest found
          obtain ⟨found', hfound⟩ := hscan rest (some m)
          refine ⟨found', ?_⟩
          have htest : testmsg (-b) m.mtype = true := (testmsg_neg (by omega)).mpr (by omega)
          have hnext : -b + 1 = -(b - 1) := by omega
          have hlen : -(b - 1 - (ds.length : ℤ)) = -(b - ((m :: ds).length : ℤ)) := by
            push_cast [List.length_cons]
            omega
          rw [List.cons_append, findMsg, if_pos htest, if_pos (by omega), hnext, hfound, hlen]
      · obtain ⟨ds, hsub, hdown, hpos, hmax, hscan⟩ := ih hb hpre
        refine ⟨ds, hsub.cons m, hdown, hpos, ?_, ?_⟩
        · intro ds' hsub' hdown'
          cases hsub' with
          | cons _ h => exact hmax ds' h hdown'
          | cons_cons _ h => exact absurd hdown'.1 hmb
        · intro rest found
          obtain ⟨found', hfound⟩ := hscan rest found
          refine ⟨found', ?_⟩
          have htest : testmsg (-b) m.mtype ≠ true := by
            rw [Ne, testmsg_neg (by omega)]
            omega
          rw [List.cons_append, findMsg, if_neg htest, hfound]

theorem findMsg_match {ms : List Msg} {mtype : ℤ} (h : ∃ x ∈ ms, testmsg mtype x.mtype = true)
    (found : Option Msg) : ∃ y ∈ ms, findMsg mtype ms found = some y := by
  induction ms generalizing found with
  | nil => simp at h
  | cons a ms ih =>
      rw [findMsg]
      split_ifs with ha hlow
      · obtain ⟨y, hy⟩ := Option.ne_none_iff_exists'.mp (findMsg_some (mtype + 1) ms a)
        refine ⟨y, ?_, hy⟩
        rcases findMsg_mem hy with hmem | hya
        · exact List.mem_cons_of_mem _ hmem
        · rw [Option.some.inj hya]
          exact List.mem_cons_self
      · exact ⟨a, List.mem_cons_self, rfl⟩
      · obtain ⟨x, hx, htest⟩ := h
        rcases List.mem_cons.mp hx with rfl | hx
        · exact absurd htest ha
        · obtain ⟨y, hy, hfind⟩ := ih ⟨x, hx, htest⟩ found
          exact ⟨y, List.mem_cons_of_mem _ hy, hfind⟩

theorem findMsg_nomatch {ms : List Msg} {mtype : ℤ} (h : ∀ x ∈ ms, testmsg mtype x.mtype = false)
    (found : Option Msg) : findMsg mtype ms found = found := by
  induction ms with
  | nil => rfl
  | cons a ms ih =>
      have ha := h a List.mem_cons_self
      rw [findMsg, if_neg (by simp [ha])]
      exact ih fun x hx => h x (List.mem_cons_of_mem _ hx)

/-- The search finds none exactly when none matches. -/
theorem findMsg_eq_none (mtype : ℤ) (ms : List Msg) :
    findMsg mtype ms none = none ↔ ∀ m ∈ ms, testmsg mtype m.mtype = false :=
  ⟨findMsg_none, fun h => findMsg_nomatch h none⟩

/-- A match is kept if the lower bound keeps all others out. -/
theorem findMsg_keeps {b : ℤ} (hb : 1 ≤ b) {m : Msg} {post : List Msg} (hm : m.mtype ≤ b)
    (hnot : m ∉ post) (hpost : ∀ x ∈ post, 1 ≤ x.mtype) (found : Option Msg) :
    findMsg (-b) (m :: post) found = some m ↔ ∀ x ∈ post, b ≤ x.mtype := by
  have htest : testmsg (-b) m.mtype = true := (testmsg_neg (by omega)).mpr (by omega)
  rw [findMsg, if_pos htest]
  by_cases hone : b = 1
  · rw [if_neg (by omega), hone]
    exact ⟨fun _ => hpost, fun _ => rfl⟩
  · rw [if_pos (by omega)]
    have hmatch : ∀ x : Msg, testmsg (-b + 1) x.mtype = true ↔ x.mtype < b := by
      intro x
      rw [testmsg_neg (by omega)]
      omega
    constructor
    · intro h x hx
      by_contra hlt
      obtain ⟨y, hy, hfind⟩ := findMsg_match ⟨x, hx, (hmatch x).mpr (by omega)⟩ (some m)
      rw [h] at hfind
      exact hnot (Option.some.inj hfind ▸ hy)
    · intro h
      apply findMsg_nomatch
      intro x hx
      rw [Bool.eq_false_iff, Ne, hmatch x]
      have := h x hx
      omega

/-! ## The lowest type -/

theorem exists_lowestFirst {b : ℤ} {ms : List Msg} (h : ∃ m ∈ ms, m.mtype ≤ b) :
    ∃ pre m post, ms = pre ++ m :: post ∧ LowestFirst b pre m post := by
  induction ms with
  | nil => simp at h
  | cons a ms ih =>
      by_cases hms : ∃ m ∈ ms, m.mtype ≤ b
      · obtain ⟨pre, m, post, rfl, hlow⟩ := ih hms
        by_cases ha : a.mtype ≤ m.mtype
        · refine ⟨[], a, _, rfl, ha.trans hlow.le, by simp, ?_⟩
          intro x hx hxb
          rcases List.mem_append.mp hx with hx | hx
          · have := hlow.before x hx hxb
            omega
          · rcases List.mem_cons.mp hx with rfl | hx
            · exact ha
            · have := hlow.behind x hx hxb
              omega
        · refine ⟨a :: pre, m, post, rfl, hlow.le, ?_, hlow.behind⟩
          intro x hx hxb
          rcases List.mem_cons.mp hx with rfl | hx
          · omega
          · exact hlow.before x hx hxb
      · obtain ⟨m, hm, hmb⟩ := h
        rcases List.mem_cons.mp hm with rfl | hm
        · refine ⟨[], m, ms, rfl, hmb, by simp, ?_⟩
          intro x hx hxb
          exact absurd ⟨x, hx, hxb⟩ hms
        · exact absurd ⟨m, hm, hmb⟩ hms

/-- The message that is asked for is not behind another one that is. -/
theorem LowestFirst.unique {b : ℤ} {pre pre' post post' : List Msg} {m m' : Msg}
    (h : LowestFirst b pre m post) (h' : LowestFirst b pre' m' post')
    (heq : pre ++ m :: post = pre' ++ m' :: post') : m = m' := by
  have key : ∀ {pre pre' post post' as : List Msg} {m m' : Msg}, LowestFirst b pre m post →
      LowestFirst b pre' m' post' → pre' = pre ++ as → m :: post = as ++ m' :: post' → m = m' := by
    intro pre pre' post post' as m m' h h' hpre hpost
    cases as with
    | nil => exact (List.cons.inj hpost).1
    | cons a as =>
        obtain ⟨hma, hpost⟩ := List.cons.inj hpost
        have hmem : m ∈ pre' := by simp [hpre, hma]
        have hmem' : m' ∈ post := by simp [hpost]
        have h1 := h'.before m hmem h.le
        have h2 := h.behind m' hmem' h'.le
        omega
  rcases List.append_eq_append_iff.mp heq with ⟨as, hpre, hpost⟩ | ⟨as, hpre, hpost⟩
  · exact key h h' hpre hpost
  · exact (key h' h hpre hpost).symm

/-- The search for a low type ends with the one that is asked for. -/
theorem findMsg_lowest {b : ℤ} (hb : 1 ≤ b) {pre post : List Msg} {m : Msg}
    (hlow : LowestFirst b pre m post) (hnd : (pre ++ m :: post).Nodup)
    (htype : ∀ x ∈ pre ++ m :: post, 1 ≤ x.mtype) :
    findMsg (-b) (pre ++ m :: post) none = some m ↔
      ∃ ds, ds.Sublist pre ∧ Down b ds ∧ ∀ x ∈ post, b - ds.length ≤ x.mtype := by
  have hm1 := htype m (by simp)
  have hnot : m ∉ post := by
    have := (List.nodup_append.mp hnd).2.1
    exact (List.nodup_cons.mp this).1
  have hpost : ∀ x ∈ post, 1 ≤ x.mtype := fun x hx => htype x (by simp [hx])
  have hpre : ∀ x ∈ pre, m.mtype + 1 ≤ x.mtype ∨ b < x.mtype := by
    intro x hx
    by_cases hxb : x.mtype ≤ b
    · have := hlow.before x hx hxb
      omega
    · omega
  have hpre2 : ∀ x ∈ pre, 2 ≤ x.mtype := by
    intro x hx
    have := hpre x hx
    omega
  obtain ⟨ds, hsub, hdown, hpos, hmax, hscan⟩ := findMsg_scan pre hb hpre2
  -- what has matched is of a higher type, so the bound left is not too low
  have hmb : m.mtype ≤ b - ds.length := by
    have hds : ∀ x ∈ ds, m.mtype + 1 ≤ x.mtype := by
      intro x hx
      have h1 := hpre x (hsub.subset hx)
      have h2 := hdown.le x hx
      omega
    have hle := hlow.le
    have := hdown.length_le hds (by omega)
    omega
  obtain ⟨found, hfind⟩ := hscan (m :: post) none
  rw [hfind, findMsg_keeps hpos hmb hnot hpost]
  constructor
  · exact fun h => ⟨ds, hsub, hdown, h⟩
  · rintro ⟨ds', hsub', hdown', h⟩ x hx
    have h1 := hmax ds' hsub' hdown'
    have h2 := h x hx
    omega

/-! ## The choice of `sys_msgrcv` -/

/-- The others stay in their order. -/
theorem erase_middle {pre post : List Msg} {m : Msg} (h : (pre ++ m :: post).Nodup) :
    (pre ++ m :: post).erase m = pre ++ post := by
  rw [List.erase_append_right, List.erase_cons_head]
  intro hmem
  exact (List.nodup_append.mp h).2.2 m hmem m List.mem_cons_self rfl

/-- The first match, for a type or for any. -/
theorem selects_of_nonneg {mtype : ℤ} (h : 0 ≤ mtype) {ms : List Msg} (hnd : ms.Nodup) :
    Selects mtype ms := by
  refine ⟨findMsg_eq_none mtype ms, ?_⟩
  intro m hm
  rw [findMsg_find (by omega), List.find?_eq_some_iff_append] at hm
  obtain ⟨htest, pre, post, rfl, hpre⟩ := hm
  refine ⟨pre, post, rfl, erase_middle hnd, ?_⟩
  rw [AsksFor]
  split_ifs with h0 hpos
  · cases pre with
    | nil => rfl
    | cons x pre => simpa [testmsg, h0] using hpre x List.mem_cons_self
  · have htype : ∀ t, testmsg mtype t = true ↔ mtype = t := by
      intro t
      rw [testmsg, if_neg h0, if_neg (by omega), decide_eq_true_iff]
    refine ⟨((htype _).mp htest).symm, ?_⟩
    intro x hx heq
    have := hpre x hx
    rw [(htype _).mpr heq.symm] at this
    cases this
  · omega

/-- **The choice of `sys_msgrcv`.**  It takes the message that `mtype` asks for unless `mtype` is
negative and a message behind that one matches the bound that is left. -/
theorem selects_iff (mtype : ℤ) (ms : List Msg) (hnd : ms.Nodup) (htype : ∀ m ∈ ms, 1 ≤ m.mtype) :
    Selects mtype ms ↔ (mtype < 0 → UsedUp mtype ms) := by
  by_cases hneg : mtype < 0
  · have hb : 1 ≤ -mtype := by omega
    have hmt : - -mtype = mtype := neg_neg _
    have hasks : ∀ pre m post, AsksFor mtype pre m post ↔ LowestFirst (-mtype) pre m post := by
      intro pre m post
      rw [AsksFor, if_neg (by omega), if_neg (by omega)]
    constructor
    · rintro h - pre m post rfl hlow
      rw [← findMsg_lowest hb hlow hnd htype, hmt]
      cases hfind : findMsg mtype (pre ++ m :: post) none with
      | none =>
          have := h.missing.mp hfind m (by simp)
          rw [Bool.eq_false_iff, Ne, testmsg_neg hneg] at this
          exact absurd hlow.le this
      | some m' =>
          obtain ⟨pre', post', heq, -, hlow'⟩ := h.taken m' hfind
          rw [hlow.unique ((hasks _ _ _).mp hlow') heq]
    · intro h
      refine ⟨findMsg_eq_none mtype ms, ?_⟩
      intro m hm
      have hsome : ∃ x ∈ ms, x.mtype ≤ -mtype := by
        by_contra hno
        have hnone : findMsg mtype ms none = none := by
          rw [findMsg_eq_none]
          intro x hx
          rw [Bool.eq_false_iff, Ne, testmsg_neg hneg]
          exact fun hle => hno ⟨x, hx, hle⟩
        rw [hnone] at hm
        cases hm
      obtain ⟨pre, m', post, rfl, hlow⟩ := exists_lowestFirst hsome
      have hfind := (findMsg_lowest hb hlow hnd htype).mpr (h hneg pre m' post rfl hlow)
      rw [hmt, hm] at hfind
      obtain rfl : m = m' := Option.some.inj hfind
      exact ⟨pre, post, rfl, erase_middle hnd, (hasks _ _ _).mpr hlow⟩
  · exact ⟨fun _ h => absurd h hneg, fun _ => selects_of_nonneg (by omega) hnd⟩

/-- The first message is of the lowest type, and the other one only just matches. -/
theorem selects_iff_two : Selects (-5) [⟨0, 2, 8⟩, ⟨1, 5, 8⟩] := by
  refine (selects_iff (-5) _ (by decide) (by decide)).mpr ?_
  rintro - pre m post heq hlow
  refine ⟨[], List.nil_sublist _, trivial, ?_⟩
  cases pre with
  | nil =>
      obtain ⟨-, rfl⟩ := List.cons.inj heq
      simp
  | cons a pre =>
      obtain ⟨rfl, hrest⟩ := List.cons.inj heq
      have hm : m.mtype = 5 := by
        cases pre with
        | nil => rw [← (List.cons.inj hrest).1]
        | cons b pre => simp at hrest
      have := hlow.before ⟨0, 2, 8⟩ List.mem_cons_self (by decide)
      rw [hm] at this
      cases this

/-- Type 2 is there, but a later message of type 4 is taken. -/
theorem takes_higher_type : ¬∀ (mtype : ℤ) (ms : List Msg), ms.Nodup →
    (∀ m ∈ ms, 1 ≤ m.mtype) → Selects mtype ms := by
  intro h
  have hsel := h (-5) [⟨0, 2, 8⟩, ⟨1, 4, 8⟩] (by decide) (by decide)
  obtain ⟨pre, post, heq, -, hask⟩ := hsel.taken ⟨1, 4, 8⟩ (by decide)
  have hlow : LowestFirst 5 pre ⟨1, 4, 8⟩ post := by simpa [AsksFor] using hask
  have hmem : (⟨0, 2, 8⟩ : Msg) ∈ pre ++ ⟨1, 4, 8⟩ :: post := by
    rw [← heq]
    simp
  rcases List.mem_append.mp hmem with hpre | hpost
  · have := hlow.before _ hpre (by decide)
    simp at this
  · rcases List.mem_cons.mp hpost with hm | hpost
    · simp at hm
    · have := hlow.behind _ hpost (by decide)
      simp at this

/-! ## The receiver of a message -/

namespace IpcSys

/-- `pipeline_send` from `node` on; `fuel` bounds the rounds. -/
def pipelineLoop (m : Msg) : ℕ → IpcNode → IpcSys → Option (Bool × IpcSys)
  | fuel + 1, .receiver q, s =>
      match s.phase q with
      | .rcvWait mtype size _ =>
          if testmsg mtype m.mtype then
            let s := s.detach (.receiver q)
            if m.size > size then
              let s := (s.setPhase q (.rcvWait mtype size (some none))).activate q
              pipelineLoop m fuel (s.links.next (.receiver q)) s
            else some (true, (s.setPhase q (.rcvWait mtype size (some (some m)))).activate q)
          else pipelineLoop m fuel (s.links.next (.receiver q)) s
      | _ => none
  | _ + 1, .qReceiver, s => some (false, s)
  | _, _, _ => none

/-- The receiver asks for messages of this type. -/
def suits (s : IpcSys) (m : Msg) (q : ℕ) : Bool :=
  match s.phase q with
  | .rcvWait mtype _ _ => testmsg mtype m.mtype
  | _ => false

/-- The buffer of the receiver is large enough. -/
def roomy (s : IpcSys) (m : Msg) (q : ℕ) : Bool :=
  match s.phase q with
  | .rcvWait _ size _ => m.size ≤ size
  | _ => false

/-- `r_msg` of a receiver, if something was stored there. -/
def rMsg (s : IpcSys) (q : ℕ) : Option (Option Msg) :=
  match s.phase q with
  | .rcvWait _ _ r => r
  | _ => none

end IpcSys

/-- `pre` were visited, `q` got the message, and `rest` were not visited. -/
structure Delivered (s s' : IpcSys) (m : Msg) (pre : List ℕ) (q : Option ℕ) (rest : List ℕ) :
    Prop where
  ring : IsRing s'.links .qReceiver ((pre.filter (fun p => !s.suits m p) ++ rest).map .receiver)
  refused : ∀ p ∈ pre, s.suits m p = true → s'.rMsg p = some none ∧ s'.asleep p = false
  given : ∀ p, q = some p → s'.rMsg p = some (some m) ∧ s'.asleep p = false
  others : ∀ p, p ∉ pre ∨ s.suits m p = false → q ≠ some p →
    s'.phase p = s.phase p ∧ s'.asleep p = s.asleep p

/-- **`pipeline_send` returns**, after a round for each receiver at most: it has given the message
to the first one whom it suits and who has room for it, if there is any. -/
def Delivers (s : IpcSys) (m : Msg) (rcv : List ℕ) : Prop :=
  ∃ fuel ≤ rcv.length + 1, ∃ b s',
    s.pipelineLoop m fuel (s.links.next .qReceiver) = some (b, s') ∧
    (b = true ∧ (∃ pre q rest, rcv = pre ++ q :: rest ∧
        (s.suits m q = true ∧ s.roomy m q = true) ∧
        (∀ p ∈ pre, s.suits m p = false ∨ s.roomy m p = false) ∧
        Delivered s s' m pre (some q) rest) ∨
      b = false ∧ (∀ p ∈ rcv, s.suits m p = false ∨ s.roomy m p = false) ∧
        Delivered s s' m rcv none [])

namespace IpcSys

variable {s s' : IpcSys} {m : Msg} {q fuel : ℕ} {mtype size : ℤ} {r : Option (Option Msg)}

theorem suits_eq (h : s.phase q = .rcvWait mtype size r) :
    s.suits m q = testmsg mtype m.mtype := by
  simp [suits, h]

theorem roomy_eq (h : s.phase q = .rcvWait mtype size r) : s.roomy m q = decide (m.size ≤ size) := by
  simp [roomy, h]

/-- The loop passes a receiver whom the message does not suit. -/
theorem pipelineLoop_pass (h : s.phase q = .rcvWait mtype size r) (hno : s.suits m q = false) :
    s.pipelineLoop m (fuel + 1) (.receiver q) =
      s.pipelineLoop m fuel (s.links.next (.receiver q)) := by
  rw [suits_eq h] at hno
  simp [pipelineLoop, h, hno]

/-- The loop ends at a receiver who can take the message. -/
theorem pipelineLoop_give (h : s.phase q = .rcvWait mtype size r) (hyes : s.suits m q = true)
    (hroom : s.roomy m q = true) : s.pipelineLoop m (fuel + 1) (.receiver q) =
      some (true, ((s.detach (.receiver q)).setPhase q
        (.rcvWait mtype size (some (some m)))).activate q) := by
  rw [suits_eq h] at hyes
  rw [roomy_eq h, decide_eq_true_iff] at hroom
  simp [pipelineLoop, h, hyes, hroom]

/-- **The loop does not get past a receiver whose buffer is too small.** -/
theorem pipelineLoop_spin (h : s.phase q = .rcvWait mtype size r) (hyes : s.suits m q = true)
    (hroom : s.roomy m q = false) (fuel : ℕ) : s.pipelineLoop m fuel (.receiver q) = none := by
  rw [suits_eq h] at hyes
  rw [roomy_eq h, decide_eq_false_iff_not] at hroom
  induction fuel generalizing s r with
  | zero => rfl
  | succ fuel ih =>
      -- the node is detached, so its `next` is the node itself, and it still matches
      set s₁ := ((s.detach (.receiver q)).setPhase q (.rcvWait mtype size (some none))).activate q
        with hs₁
      have hnext : s₁.links.next (.receiver q) = .receiver q := by
        simp [hs₁, Links.detachFromList_eq]
      have hph : s₁.phase q = .rcvWait mtype size (some none) := by simp [hs₁]
      have hrest := ih hph
      simp only [pipelineLoop, h, hyes, if_true]
      rw [if_pos (by omega)]
      change s₁.pipelineLoop m fuel (s₁.links.next (.receiver q)) = none
      rw [hnext]
      exact hrest

/-- The loop passes receivers whom the message does not suit, a round for each. -/
theorem pipelineLoop_walk {a b : IpcNode} {qs : List ℕ}
    (hc : List.IsChain s.links.Link (a :: (qs.map .receiver ++ [b])))
    (hw : ∀ q ∈ qs, ∃ mtype size r, s.phase q = .rcvWait mtype size r)
    (hno : ∀ q ∈ qs, s.suits m q = false) :
    s.pipelineLoop m (qs.length + fuel) (s.links.next a) = s.pipelineLoop m fuel b := by
  induction qs generalizing a with
  | nil =>
      have hlink : s.links.Link a b := by simpa using hc
      rw [hlink.1, List.length_nil, Nat.zero_add]
  | cons q qs ih =>
      rw [List.map_cons, List.cons_append, List.isChain_cons_cons] at hc
      obtain ⟨mtype, size, r, hq⟩ := hw q List.mem_cons_self
      have hrest := ih hc.2 (fun p hp => hw p (List.mem_cons_of_mem _ hp))
        (fun p hp => hno p (List.mem_cons_of_mem _ hp))
      rw [hc.1.1, List.length_cons, Nat.add_right_comm,
        pipelineLoop_pass hq (hno q List.mem_cons_self), hrest]

theorem pipelineLoop_short {a b : IpcNode} {qs : List ℕ}
    (hc : List.IsChain s.links.Link (a :: (qs.map .receiver ++ [b])))
    (hw : ∀ q ∈ qs, ∃ mtype size r, s.phase q = .rcvWait mtype size r)
    (hno : ∀ q ∈ qs, s.suits m q = false) (hfuel : fuel ≤ qs.length) :
    s.pipelineLoop m fuel (s.links.next a) = none := by
  induction qs generalizing a fuel with
  | nil =>
      have : fuel = 0 := by simpa using hfuel
      rw [this]
      cases s.links.next a <;> rfl
  | cons q qs ih =>
      rw [List.map_cons, List.cons_append, List.isChain_cons_cons] at hc
      obtain ⟨mtype, size, r, hq⟩ := hw q List.mem_cons_self
      rw [hc.1.1]
      cases fuel with
      | zero => rfl
      | succ fuel =>
          rw [pipelineLoop_pass hq (hno q List.mem_cons_self)]
          rw [List.length_cons] at hfuel
          exact ih hc.2 (fun p hp => hw p (List.mem_cons_of_mem _ hp))
            (fun p hp => hno p (List.mem_cons_of_mem _ hp)) (by omega)

end IpcSys

/-! ## When `pipeline_send` returns -/

section Delivers

variable {s : IpcSys} {m : Msg} {rcv : List ℕ}

/-- The links from the head to a receiver. -/
theorem chain_to {pre rest : List ℕ} {q : ℕ}
    (hr : IsRing s.links .qReceiver ((pre ++ q :: rest).map .receiver)) :
    List.IsChain s.links.Link (.qReceiver :: (pre.map .receiver ++ [.receiver q])) := by
  have hc := hr.chain
  rw [List.map_append, List.map_cons, List.append_assoc, List.cons_append,
    ← List.cons_append, List.isChain_split] at hc
  exact hc.1

/-- Nobody whom the message suits. -/
theorem delivers_nobody (hr : IsRing s.links .qReceiver (rcv.map .receiver))
    (hw : ∀ q ∈ rcv, ∃ mtype size r, s.phase q = .rcvWait mtype size r)
    (hno : ∀ q ∈ rcv, s.suits m q = false) : Delivers s m rcv := by
  refine ⟨rcv.length + 1, le_refl _, false, s, ?_, .inr ⟨rfl, ?_, ?_⟩⟩
  · rw [IpcSys.pipelineLoop_walk hr.chain hw hno]
    rfl
  · exact fun p hp => .inl (hno p hp)
  · refine ⟨?_, ?_, by simp, fun _ _ _ => ⟨rfl, rfl⟩⟩
    · rw [List.append_nil, List.filter_eq_self.mpr (fun p hp => by simp [hno p hp])]
      exact hr
    · intro p hp hyes
      rw [hno p hp] at hyes
      cases hyes

/-- The first one whom the message suits has room for it. -/
theorem delivers_first {pre rest : List ℕ} {q : ℕ}
    (hr : IsRing s.links .qReceiver ((pre ++ q :: rest).map .receiver))
    (hw : ∀ p ∈ pre ++ q :: rest, ∃ mtype size r, s.phase p = .rcvWait mtype size r)
    (hno : ∀ p ∈ pre, s.suits m p = false) (hyes : s.suits m q = true)
    (hroom : s.roomy m q = true) : Delivers s m (pre ++ q :: rest) := by
  obtain ⟨mtype, size, r, hq⟩ := hw q (by simp)
  have hqpre : ∀ p ∈ pre, p ≠ q := by
    rintro p hp rfl
    rw [hno p hp] at hyes
    cases hyes
  have hchain := chain_to hr
  set s' := ((s.detach (.receiver q)).setPhase q (.rcvWait mtype size (some (some m)))).activate q
    with hs'
  refine ⟨pre.length + 1, by simp, true, s', ?_, .inl ⟨rfl, pre, q, rest, rfl, ⟨hyes, hroom⟩,
    fun p hp => .inl (hno p hp), ?_, ?_, ?_, ?_⟩⟩
  · rw [IpcSys.pipelineLoop_walk hchain (fun p hp => hw p (by simp [hp])) hno,
      IpcSys.pipelineLoop_give hq hyes hroom]
  · rw [List.filter_eq_self.mpr (fun p hp => by simp [hno p hp]), List.map_append]
    rw [List.map_append, List.map_cons] at hr
    exact hr.detach
  · intro p hp hpy
    rw [hno p hp] at hpy
    cases hpy
  · intro p hp
    cases hp
    simp [hs', IpcSys.rMsg, IpcSys.activate]
  · intro p _ hpq
    have hpq : p ≠ q := fun h => hpq (by rw [h])
    simp [hs', IpcSys.activate, IpcSys.setPhase, IpcSys.detach, hpq]

/-- The first receiver whom the message suits, if there is one, has room for it. -/
def FirstFits (s : IpcSys) (m : Msg) (rcv : List ℕ) : Prop :=
  ∀ pre q rest, rcv = pre ++ q :: rest → (∀ p ∈ pre, s.suits m p = false) →
    s.suits m q = true → s.roomy m q = true

/-- **When `pipeline_send` returns.**  It hands the message to the right receiver exactly when the
first one whom the message suits has room for it. -/
theorem delivers_iff (s : IpcSys) (m : Msg) (rcv : List ℕ)
    (hr : IsRing s.links .qReceiver (rcv.map .receiver))
    (hw : ∀ q ∈ rcv, ∃ mtype size r, s.phase q = .rcvWait mtype size r) :
    Delivers s m rcv ↔ FirstFits s m rcv := by
  constructor
  · rintro ⟨fuel, -, b, s', hloop, -⟩ pre q rest rfl hno hyes
    by_contra hroom
    rw [Bool.not_eq_true] at hroom
    obtain ⟨mtype, size, r, hq⟩ := hw q (by simp)
    have hw' : ∀ p ∈ pre, ∃ mtype size r, s.phase p = .rcvWait mtype size r :=
      fun p hp => hw p (by simp [hp])
    have hnone : s.pipelineLoop m fuel (s.links.next .qReceiver) = none := by
      by_cases hfuel : fuel ≤ pre.length
      · exact IpcSys.pipelineLoop_short (chain_to hr) hw' hno hfuel
      · obtain ⟨n, rfl⟩ := Nat.exists_eq_add_of_le (le_of_not_ge hfuel)
        rw [IpcSys.pipelineLoop_walk (chain_to hr) hw' hno]
        exact IpcSys.pipelineLoop_spin hq hyes hroom n
    rw [hnone] at hloop
    cases hloop
  · intro h
    by_cases hall : ∀ q ∈ rcv, s.suits m q = false
    · exact delivers_nobody hr hw hall
    · obtain ⟨q, hq⟩ : ∃ q, rcv.find? (s.suits m) = some q := by
        rw [← Option.isSome_iff_exists, List.find?_isSome]
        simpa using hall
      obtain ⟨hyes, pre, rest, rfl, hpre⟩ := List.find?_eq_some_iff_append.mp hq
      have hno : ∀ p ∈ pre, s.suits m p = false := fun p hp => by simpa using hpre p hp
      exact delivers_first hr hw hno hyes (h pre q rest rfl hno hyes)

/-- Two receivers wait: the first one for type 3, the second one for any, with a buffer of `size`. -/
def twoWaiting (size : ℤ) : IpcSys :=
  let s := ((IpcSys.init 2).append .qReceiver (.receiver 0)).append .qReceiver (.receiver 1)
  (s.setPhase 0 (.rcvWait 3 8 none)).setPhase 1 (.rcvWait 0 size none)

theorem twoWaiting_ring (size : ℤ) :
    IsRing (twoWaiting size).links .qReceiver ([0, 1].map .receiver) := by
  have h₀ : IsRing (IpcSys.init 2).links .qReceiver [] := ⟨by simp, by simp [IpcSys.init, Links.Link]⟩
  have h₁ := h₀.insert (x := IpcNode.receiver 0) (by simp)
  exact h₁.insert (x := IpcNode.receiver 1) (by simp)

theorem twoWaiting_phase (size : ℤ) :
    ∀ q ∈ [0, 1], ∃ mtype sz r, (twoWaiting size).phase q = .rcvWait mtype sz r := by
  simp [twoWaiting]

/-- A message of type 1 goes to the second receiver. -/
theorem delivers_iff_second : Delivers (twoWaiting 8) ⟨0, 1, 8⟩ [0, 1] := by
  refine (delivers_iff _ _ _ (twoWaiting_ring 8) (twoWaiting_phase 8)).mpr ?_
  intro pre q rest heq _ hyes
  have hq : q = 0 ∨ q = 1 := by
    have : q ∈ [0, 1] := heq ▸ by simp
    simpa using this
  rcases hq with rfl | rfl
  · exact absurd hyes (by decide)
  · decide

/-- The second receiver has too small a buffer, and `pipeline_send` does not return. -/
theorem small_receiver_spins : ¬∀ (s : IpcSys) (m : Msg) (rcv : List ℕ),
    IsRing s.links .qReceiver (rcv.map .receiver) →
    (∀ q ∈ rcv, ∃ mtype size r, s.phase q = .rcvWait mtype size r) → Delivers s m rcv := by
  intro h
  obtain ⟨fuel, -, b, s', hloop, -⟩ :=
    h (twoWaiting 4) ⟨0, 1, 8⟩ [0, 1] (twoWaiting_ring 4) (twoWaiting_phase 4)
  have hspin : ∀ n, (twoWaiting 4).pipelineLoop ⟨0, 1, 8⟩ n (.receiver 1) = none :=
    IpcSys.pipelineLoop_spin (by rfl) (by decide) (by decide)
  have hnone : ∀ n, (twoWaiting 4).pipelineLoop ⟨0, 1, 8⟩ n
      ((twoWaiting 4).links.next .qReceiver) = none := by
    intro n
    have hnext : (twoWaiting 4).links.next .qReceiver = .receiver 0 := by decide
    rw [hnext]
    cases n with
    | zero => rfl
    | succ n =>
        have hnext' : (twoWaiting 4).links.next (.receiver 0) = .receiver 1 := by decide
        rw [IpcSys.pipelineLoop_pass (by rfl) (by decide), hnext']
        exact hspin n
  rw [hnone fuel] at hloop
  cases hloop

end Delivers

end OsLab
