import OsLab.Kernel.Mmu

/-!
# The payload of a message

`load_msg` copies a message into a chain of pages and `store_msg` copies it out again.
Both lower the remaining length before they advance the pointer, by the lower of the new
length and the size of a chunk.  So the pointer falls behind as soon as the last chunk
is not a full one: the bytes that do not fit into the first page go to the wrong place.

## Main definitions

* `loadMsg`, `storeMsg` — the two functions.
* `RoundTrip` — what is stored is what was loaded.
* `roundTrip_iff` — that is so for the messages that fit into one page.
-/

namespace OsLab

/-- `MSG_MSGSZ`; `sizeof(msg_msg)` is 32. -/
def msgMsgsz : ℕ := pageSize - 32

/-- `MSG_MSGSEGSZ`; `sizeof(msg_msgseg)` is 8. -/
def msgMsgsegsz : ℕ := pageSize - 8

/-- Some memory, from a pointer on. -/
abbrev Buffer := ℕ → UInt8

/-- `memcpy(dst + d, src + o, n)` -/
def memcpy (dst : Buffer) (d : ℕ) (src : Buffer) (o n : ℕ) : Buffer :=
  fun i => if d ≤ i ∧ i < d + n then src (o + (i - d)) else dst i

/-- The `data` of a `struct msg_msg` and of the segments after it, up to `NULL`. -/
structure Payload where
  data : Buffer
  segs : List Buffer

/-- `struct msgbuf` -/
structure Msgbuf where
  mtype : ℤ
  data : Buffer

/-- The loop of `load_msg`, with `src` advanced to `o`.  The pages that `kalloc_page` can
return are `pages`; at `free_obj` all go back. -/
def loadSegs (src : Buffer) (data : Buffer) : List Buffer → ℕ → ℕ → List Buffer →
    Option Payload × List Buffer
  | pages, _, 0, segs => (some ⟨data, segs⟩, pages)
  | [], _, _ + 1, segs => (none, data :: segs)
  | page :: pages, o, len + 1, segs =>
      let seg := memcpy page 0 src o (min msgMsgsegsz (len + 1))
      let len := len + 1 - min msgMsgsegsz (len + 1)
      loadSegs src data pages (o + min msgMsgsegsz len) len (segs ++ [seg])

/-- `load_msg(src, len)`: the message, if there are enough pages, and the pages left. -/
def loadMsg (pages : List Buffer) (src : Buffer) (len : ℕ) : Option Payload × List Buffer :=
  match pages with
  | [] => (none, [])
  | page :: pages =>
      let data := memcpy page 0 src 0 (min msgMsgsz len)
      let len := len - min msgMsgsz len
      loadSegs src data pages (min msgMsgsz len) len []

/-- The loop of `store_msg`, with `dst` advanced to `d`; it stops at a `NULL` segment. -/
def storeSegs : List Buffer → Buffer → ℕ → ℕ → Option Buffer
  | _, dst, _, 0 => some dst
  | [], _, _, _ + 1 => none
  | sg :: segs, dst, d, n + 1 =>
      let dst := memcpy dst d sg 0 (min (n + 1) msgMsgsegsz)
      let n := n + 1 - min (n + 1) msgMsgsegsz
      storeSegs segs dst (d + min n msgMsgsegsz) n

/-- `store_msg(buf, msg, msgsz)` -/
def storeMsg (mtype : ℤ) (m : Payload) (buf : Msgbuf) (msgsz : ℕ) : Option Msgbuf :=
  let dst := memcpy buf.data 0 m.data 0 (min msgsz msgMsgsz)
  let n := msgsz - min msgMsgsz msgsz
  (storeSegs m.segs dst (min msgMsgsz n) n).map fun dst => ⟨mtype, dst⟩

/-- **The round trip** of the `len` bytes at `src`: the first `msgsz` of them are stored, and
nothing else is. -/
def RoundTrip (len : ℕ) (src : Buffer) : Prop :=
  ∀ pages m, (loadMsg pages src len).1 = some m → ∀ msgsz ≤ len, ∀ mtype buf,
    ∃ buf', storeMsg mtype m buf msgsz = some buf' ∧
      ∀ i, buf'.data i = if i < msgsz then src i else buf.data i

/-! ## The chain has enough segments -/

theorem loadSegs_segs {src data : Buffer} {pages segs : List Buffer} {o len : ℕ} {m : Payload}
    (h : (loadSegs src data pages o len segs).1 = some m) :
    m.data = data ∧ ∃ new, m.segs = segs ++ new ∧ len ≤ new.length * msgMsgsegsz := by
  induction pages generalizing o len segs with
  | nil =>
      cases len with
      | zero =>
          cases h
          exact ⟨rfl, [], by simp, by simp⟩
      | succ len => cases h
  | cons page pages ih =>
      cases len with
      | zero =>
          cases h
          exact ⟨rfl, [], by simp, by simp⟩
      | succ len =>
          obtain ⟨hdata, new, hsegs, hlen⟩ := ih h
          refine ⟨hdata, _ :: new, by rw [hsegs, List.append_assoc]; rfl, ?_⟩
          rw [List.length_cons, Nat.add_mul]
          omega

/-- The segments hold what does not fit into the first page. -/
theorem loadMsg_segs {pages : List Buffer} {src : Buffer} {len : ℕ} {m : Payload}
    (h : (loadMsg pages src len).1 = some m) :
    len ≤ msgMsgsz + m.segs.length * msgMsgsegsz := by
  cases pages with
  | nil => cases h
  | cons page pages =>
      obtain ⟨-, new, hsegs, hlen⟩ := loadSegs_segs h
      rw [hsegs, List.nil_append]
      omega

theorem storeSegs_isSome {segs : List Buffer} {dst : Buffer} {d n : ℕ}
    (h : n ≤ segs.length * msgMsgsegsz) : (storeSegs segs dst d n).isSome := by
  induction segs generalizing dst d n with
  | nil =>
      cases n with
      | zero => rfl
      | succ n => simp at h
  | cons sg segs ih =>
      cases n with
      | zero => rfl
      | succ n =>
          rw [storeSegs]
          apply ih
          rw [List.length_cons, Nat.add_mul] at h
          omega

/-- **`store_msg` never follows `NULL`.** -/
theorem storeMsg_isSome {pages : List Buffer} {src : Buffer} {len msgsz : ℕ} {m : Payload}
    (h : (loadMsg pages src len).1 = some m) (hsz : msgsz ≤ len) (mtype : ℤ) (buf : Msgbuf) :
    (storeMsg mtype m buf msgsz).isSome := by
  have hlen := loadMsg_segs h
  rw [storeMsg, Option.isSome_map]
  apply storeSegs_isSome
  omega

/-! ## Pages -/

/-- A page for each segment that is needed is enough. -/
theorem loadSegs_isSome {src data : Buffer} {pages segs : List Buffer} {o len : ℕ}
    (h : len ≤ pages.length) : (loadSegs src data pages o len segs).1.isSome := by
  induction pages generalizing o len segs with
  | nil =>
      have : len = 0 := by simpa using h
      subst this
      rfl
  | cons page pages ih =>
      cases len with
      | zero => rfl
      | succ len =>
          rw [loadSegs]
          apply ih
          have hpos : 0 < min msgMsgsegsz (len + 1) := lt_min (by decide) (by omega)
          rw [List.length_cons] at h
          omega

theorem loadMsg_isSome (src : Buffer) (len : ℕ) (page : Buffer) :
    (loadMsg (List.replicate (len + 1) page) src len).1.isSome := by
  rw [List.replicate_succ, loadMsg]
  apply loadSegs_isSome
  rw [List.length_replicate]
  omega

theorem loadSegs_failed {src data : Buffer} {pages segs : List Buffer} {o len : ℕ}
    (h : (loadSegs src data pages o len segs).1 = none) :
    (loadSegs src data pages o len segs).2.length = pages.length + segs.length + 1 := by
  induction pages generalizing o len segs with
  | nil =>
      cases len with
      | zero => cases h
      | succ len => simp [loadSegs]
  | cons page pages ih =>
      cases len with
      | zero => cases h
      | succ len =>
          have hrest := ih h
          rw [List.length_append, List.length_singleton] at hrest
          rw [loadSegs, hrest, List.length_cons]
          omega

/-- **A `load_msg` that fails gives back its pages.** -/
theorem loadMsg_failed {pages : List Buffer} {src : Buffer} {len : ℕ}
    (h : (loadMsg pages src len).1 = none) : (loadMsg pages src len).2.length = pages.length := by
  cases pages with
  | nil => rfl
  | cons page pages => exact loadSegs_failed h

/-! ## The round trip -/

/-- A message that fits into the first page. -/
theorem roundTrip_short {len : ℕ} (h : len ≤ msgMsgsz) (src : Buffer) : RoundTrip len src := by
  intro pages m hload msgsz hsz mtype buf
  have hm : m.data = fun i => if i < len then src i else m.data i := by
    cases pages with
    | nil => cases hload
    | cons page pages =>
        obtain ⟨hdata, -⟩ := loadSegs_segs hload
        rw [hdata]
        funext i
        rw [min_eq_right h]
        by_cases hi : i < len
        · simp [memcpy, hi]
        · simp [hi]
  have hmin : min msgsz msgMsgsz = msgsz := min_eq_left (by omega)
  have hleft : msgsz - min msgMsgsz msgsz = 0 := by omega
  refine ⟨⟨mtype, memcpy buf.data 0 m.data 0 msgsz⟩, ?_, ?_⟩
  · rw [storeMsg, hmin, hleft]
    cases m.segs <;> rfl
  · intro i
    by_cases hi : i < msgsz
    · rw [hm]
      simp [memcpy, hi, show i < len by omega]
    · simp [memcpy, hi]

/-- The first byte that is not in the first page is stored near the start of the buffer. -/
theorem storeMsg_lost {m : Payload} (hsegs : m.segs ≠ []) (mtype : ℤ) {buf buf' : Msgbuf}
    (h : storeMsg mtype m buf (msgMsgsz + 1) = some buf') :
    buf'.data msgMsgsz = buf.data msgMsgsz := by
  obtain ⟨sg, segs, hsegs⟩ := List.exists_cons_of_ne_nil hsegs
  have hleft : msgMsgsz + 1 - min msgMsgsz (msgMsgsz + 1) = 1 := by omega
  have hone : min msgMsgsz 1 = 1 := rfl
  rw [storeMsg, hleft, hone, hsegs, storeSegs] at h
  have hchunk : min (0 + 1) msgMsgsegsz = 1 := rfl
  rw [hchunk, Nat.sub_self] at h
  have hdone : ∀ dst d, storeSegs segs dst d 0 = some dst := by
    intro dst d
    cases segs <;> rfl
  rw [hdone, Option.map_some, Option.some.injEq] at h
  rw [← h]
  simp [memcpy, msgMsgsz, pageSize]

/-- **The round trip** holds exactly of the messages that fit into the first page. -/
theorem roundTrip_iff (len : ℕ) (src : Buffer) : RoundTrip len src ↔ len ≤ msgMsgsz := by
  constructor
  · intro h
    by_contra hlen
    obtain ⟨m, hm⟩ := Option.isSome_iff_exists.mp (loadMsg_isSome src len fun _ => 0)
    have hsegs : m.segs ≠ [] := by
      intro hnil
      have := loadMsg_segs hm
      rw [hnil] at this
      simp at this
      omega
    -- a buffer that does not have the byte already
    set buf : Msgbuf := ⟨0, fun i => src i + 1⟩ with hbuf
    obtain ⟨buf', hstore, hdata⟩ := h _ m hm (msgMsgsz + 1) (by omega) 0 buf
    have hlost := storeMsg_lost hsegs 0 hstore
    rw [hdata, if_pos (Nat.lt_succ_self _)] at hlost
    simp [hbuf] at hlost
  · exact fun h => roundTrip_short h src

/-- A message of one byte more than fits into the first page comes out without it. -/
theorem roundTrip_fails : ¬∀ (len : ℕ) (src : Buffer), RoundTrip len src := by
  intro h
  set src : Buffer := fun i => if i = 4064 then 1 else 0 with hsrc
  set page : Buffer := fun _ => 0 with hpage
  set first : Buffer := memcpy page 0 src 0 4064
  set second : Buffer := memcpy page 0 src 1 1
  have hload : (loadMsg [page, page] src 4065).1 = some ⟨first, [second]⟩ := rfl
  obtain ⟨buf', hstore, hdata⟩ := h 4065 src _ _ hload 4065 (le_refl _) 1 ⟨0, fun _ => 0⟩
  have hlost := storeMsg_lost (by simp) 1 hstore
  have h1 : buf'.data 4064 = 0 := hlost
  have h2 : buf'.data 4064 = 1 := by
    rw [hdata]
    simp [hsrc]
  rw [h1] at h2
  cases h2

end OsLab
