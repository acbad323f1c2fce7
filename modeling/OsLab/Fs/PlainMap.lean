import OsLab.Fs.Commit
import OsLab.Fs.Reservation

/-!
# The block cache as a plain map

Clients see the cache through six calls.  In a serialised run each call returns
before the next one starts, operations may overlap, and a client keeps the
pointers `cache_acquire` returned (`World.env`) until it releases them.

The plain map a client has in mind keeps one content for each block number, and a
buffer for each block it holds (`PlainMap`).  `Sim` relates the two: it says where
a content lives.  A number recorded in the log header is pinned in the cache,
every other one is on disk, and a held block's buffer is its cached data.

## Main definitions

* `Call`, `World`, `World.step` — serialised runs of the cache.
* `PlainMap`, `PlainMap.step` — what they should look like.
* `Sim`, `Sim.step` — the simulation, kept by every call.
-/

namespace OsLab

/-- A call of a client, or a change it makes to a block it holds.  An operation is
named by its context, a held block by its number. -/
inductive Call
  | beginOp (ctx : ℕ)
  | endOp (ctx : ℕ)
  | acquire (b : ℕ)
  | modify (b : ℕ) (d : Sector)
  | sync (ctx : Option ℕ) (b : ℕ)
  | release (b : ℕ)

/-- The cache with what its clients keep. -/
structure World where
  cache : Bcache
  /-- the contexts of the outstanding operations, with `ctx->rm` -/
  ctxs : List (ℕ × ℕ)
  /-- the pointer `cache_acquire` returned for a number that is still held -/
  env : ℕ → Option ℕ

/-- `ctx->rm` of an outstanding operation. -/
def World.rm (w : World) (c : ℕ) : Option ℕ := (w.ctxs.find? fun x => x.1 = c).map Prod.snd

/-- One call of a serialised run. -/
def World.step (sb : SuperBlock) (w : World) : Call → Option World
  | .beginOp c =>
      if c ∈ w.ctxs.map Prod.fst then none
      else do
        let (rm, s) ← w.cache.cacheBeginOp
        some { w with cache := s, ctxs := (c, rm) :: w.ctxs }
  | .endOp c => do
      let rm ← w.rm c
      let s ← w.cache.cacheEndOp sb rm
      some { w with cache := s, ctxs := w.ctxs.erase (c, rm) }
  | .acquire b => do
      let (p, s) ← w.cache.cacheAcquire b
      some { w with cache := s, env := Function.update w.env b (some p) }
  | .modify b d => do
      let p ← w.env b
      some { w with cache := w.cache.setData p d }
  | .sync none b => do
      let p ← w.env b
      some { w with cache := w.cache.cacheSyncNull p }
  | .sync (some c) b => do
      let p ← w.env b
      let rm ← w.rm c
      let (rm', s) ← w.cache.cacheSync rm p
      some { w with cache := s, ctxs := (c, rm') :: w.ctxs.erase (c, rm) }
  | .release b => do
      let p ← w.env b
      let s ← w.cache.cacheRelease p
      some { w with cache := s, env := Function.update w.env b none }

/-- The state right after `init_bcache`. -/
def World.start (s : Bcache) : World := ⟨s, [], fun _ => none⟩

/-- The map a client has in mind: the last content synced for each number, and the
buffers of the blocks it holds. -/
structure PlainMap where
  content : ℕ → Sector
  buf : ℕ → Option Sector

/-- What a call does to the plain map. -/
def PlainMap.step (m : PlainMap) : Call → PlainMap
  | .beginOp _ => m
  | .endOp _ => m
  | .acquire b => { m with buf := Function.update m.buf b (some (m.content b)) }
  | .modify b d => { m with buf := Function.update m.buf b (some d) }
  | .sync _ b => { m with content := Function.update m.content b ((m.buf b).getD (m.content b)) }
  | .release b => { m with buf := Function.update m.buf b none }

/-- A block number clients use: a `usize` outside the log area. -/
def SuperBlock.Client (sb : SuperBlock) (b : ℕ) : Prop := ¬ sb.InLog b ∧ b < 2 ^ 64

/-- The client's side of the contract: it keeps out of the log area, and a block it
changed is synced before it is released. -/
def Call.Allowed (sb : SuperBlock) (m : PlainMap) : Call → Prop
  | .acquire b => sb.Client b
  | .release b => m.buf b = some (m.content b)
  | _ => True

/-- The device before `init_bcache`: the log header is one that the cache wrote. -/
structure ValidLog (sb : SuperBlock) (disk : ℕ → Sector) : Prop where
  le : (LogHeader.decode (disk sb.logStart)).numBlocks ≤ logMaxSize
  client : ∀ b ∈ (LogHeader.decode (disk sb.logStart)).entries, sb.Client b

/-- A serialised run from `init_bcache` on, beside the plain map. -/
inductive Serial (sb : SuperBlock) (disk : ℕ → Sector) : World → PlainMap → Prop
  | init {s : Bcache} : Bcache.initBcache sb disk = some s →
      Serial sb disk (World.start s) ⟨s.disk, fun _ => none⟩
  | step {w w' : World} {m : PlainMap} (call : Call) : Serial sb disk w m →
      call.Allowed sb m → w.step sb call = some w' → Serial sb disk w' (m.step call)

/-! ## The simulation -/

/-- Where the contents of the plain map are kept between two calls. -/
structure Sim (sb : SuperBlock) (w : World) (m : PlainMap) : Prop where
  coherent : w.cache.Coherent sb.logStart
  reserved : Reserved w.cache.log w.ctxs
  idle : w.cache.log.committing = false
  env : ∀ b p, w.env b = some p ↔ w.cache.Owns p b
  env_client : ∀ b p, w.env b = some p → sb.Client b
  entry_client : ∀ b ∈ w.cache.log.header.entries, sb.Client b
  pinned : ∀ b, w.cache.abs.pinned b ↔ b ∈ w.cache.log.header.entries
  buf : ∀ b, m.buf b = (w.env b).map fun _ => w.cache.view b
  on_disk : ∀ b, sb.Client b → b ∉ w.cache.log.header.entries → m.content b = w.cache.disk b
  in_cache : ∀ b ∈ w.cache.log.header.entries, w.env b = none → m.content b = w.cache.view b

namespace Sim

variable {sb : SuperBlock} {w w' : World} {m : PlainMap} {b c p rm : ℕ}

theorem held_iff (h : Sim sb w m) : w.cache.abs.held b ↔ ∃ p, w.env b = some p := by
  constructor
  · rintro ⟨p, hp, hb, ha⟩
    exact ⟨p, (h.env b p).mpr ⟨hp, hb, ha⟩⟩
  · rintro ⟨p, hp⟩
    exact ((h.env b p).mp hp).held

/-- **The content of a block that nobody holds is what `cache_acquire` returns.** -/
theorem view_eq (h : Sim sb w m) (hb : sb.Client b) (he : w.env b = none) :
    w.cache.view b = m.content b := by
  by_cases hmem : b ∈ w.cache.log.header.entries
  · exact (h.in_cache b hmem he).symm
  · rw [h.on_disk b hb hmem]
    refine h.coherent.view_eq_disk ?_ (fun hp => hmem ((h.pinned b).mp hp))
    rw [h.held_iff, he]
    simp

theorem client_ne (hb : sb.Client b) (h0 : 0 < sb.numLogBlocks) : b ≠ sb.logStart := by
  rintro rfl
  exact hb.1 ⟨le_refl _, by omega⟩

/-- The content of a held block is what its buffer holds. -/
theorem buf_of_env (h : Sim sb w m) (he : w.env b = some p) :
    m.buf b = some (w.cache.view b) := by
  rw [h.buf b, he]
  rfl

theorem rm_mem (h : w.rm c = some rm) : (c, rm) ∈ w.ctxs := by
  simp only [World.rm, Option.map_eq_some_iff] at h
  obtain ⟨⟨c', rm'⟩, hfind, rfl⟩ := h
  have hc : c' = c := by simpa using List.find?_some hfind
  exact hc ▸ List.mem_of_find?_eq_some hfind

/-- The calls that only rewrite the content, the pin or the device copy of one held block
leave every other part of the simulation as it is. -/
private theorem of_held {s' : Bcache} {m' : PlainMap} {ctxs' : List (ℕ × ℕ)}
    (h : Sim sb w m) (he : w.env b = some p) (hc' : s'.Coherent sb.logStart)
    (hres : Reserved s'.log ctxs') (hidle : s'.log.committing = false)
    (hf : ∀ q c, w.cache.Owns q c → s'.Owns q c) (hheld : s'.abs.held = w.cache.abs.held)
    (hent : ∀ c, c ∈ s'.log.header.entries →
      c ∈ w.cache.log.header.entries ∨ c = b)
    (hent' : ∀ c, c ∈ w.cache.log.header.entries → c ∈ s'.log.header.entries)
    (hpin : ∀ c, s'.abs.pinned c ↔ c ∈ s'.log.header.entries)
    (hview : ∀ c, c ≠ b → s'.view c = w.cache.view c)
    (hdisk : ∀ c, c ≠ b → s'.disk c = w.cache.disk c)
    (hbuf : m'.buf = Function.update m.buf b (some (s'.view b)))
    (hcont : ∀ c, c ≠ b → m'.content c = m.content c)
    (hb : b ∉ s'.log.header.entries → m'.content b = s'.disk b) :
    Sim sb { w with cache := s', ctxs := ctxs' } m' := by
  have henv : ∀ c q, w.env c = some q ↔ s'.Owns q c := by
    intro c q
    rw [h.env c q, Bcache.owns_iff_of_frame hc' (congrFun hheld c) (fun q => hf q c)]
  constructor
  · exact hc'
  · exact hres
  · exact hidle
  · exact henv
  · exact h.env_client
  · intro c hc
    rcases hent c hc with hc | rfl
    · exact h.entry_client c hc
    · exact h.env_client c p he
  · exact hpin
  · intro c
    by_cases hcb : c = b
    · subst hcb
      rw [hbuf, Function.update_self]
      simp [he]
    · rw [hbuf, Function.update_of_ne hcb, h.buf c]
      simp [hview c hcb]
  · intro c hcl hc
    by_cases hcb : c = b
    · subst hcb
      exact hb hc
    · rw [hcont c hcb, hdisk c hcb]
      exact h.on_disk c hcl (fun hc' => hc (hent' c hc'))
  · intro c hc hnone
    have hcb : c ≠ b := by
      rintro rfl
      rw [he] at hnone
      cases hnone
    have hc₀ : c ∈ w.cache.log.header.entries := by
      rcases hent c hc with hc | hc
      · exact hc
      · exact absurd hc hcb
    rw [hcont c hcb, hview c hcb]
    exact h.in_cache c hc₀ hnone

theorem modify (h : Sim sb w m) {d : Sector} (hs : w.step sb (.modify b d) = some w') :
    Sim sb w' (m.step (.modify b d)) := by
  simp only [World.step, Option.bind_eq_bind, Option.bind_eq_some_iff] at hs
  obtain ⟨p, he, hs⟩ := hs
  cases hs
  have ho := (h.env b p).mp he
  obtain ⟨hc', habs, hf⟩ := Bcache.setData_spec h.coherent ho d
  have hlog : (w.cache.setData p d).log = w.cache.log := congrArg Abs.log habs
  have hv : (w.cache.setData p d).view = Function.update w.cache.view b d :=
    congrArg Abs.view habs
  refine of_held h he hc' (by rw [hlog]; exact h.reserved) (by rw [hlog]; exact h.idle) hf
    (by rw [habs]; rfl) (by rw [hlog]; exact fun c hc => Or.inl hc) (by rw [hlog]; exact fun c hc => hc)
    ?_ ?_ ?_ ?_ (fun _ _ => rfl) ?_
  · intro c
    rw [hlog, habs]
    exact h.pinned c
  · intro c hcb
    rw [hv, Function.update_of_ne hcb]
  · intro c _
    rw [← Bcache.abs_disk, habs]
    rfl
  · simp [PlainMap.step, hv]
  · intro hb
    rw [hlog] at hb
    rw [← Bcache.abs_disk, habs]
    exact h.on_disk b (h.env_client b p he) hb

theorem syncNull (h : Sim sb w m) (hs : w.step sb (.sync none b) = some w') :
    Sim sb w' (m.step (.sync none b)) := by
  simp only [World.step, Bcache.cacheSyncNull, Option.bind_eq_bind, Option.bind_eq_some_iff] at hs
  obtain ⟨p, he, hs⟩ := hs
  cases hs
  have ho := (h.env b p).mp he
  obtain ⟨hc', habs, hf⟩ := Bcache.deviceWrite_spec h.coherent ho
  have hlog : (w.cache.deviceWrite p).log = w.cache.log := congrArg Abs.log habs
  have hv : (w.cache.deviceWrite p).view = w.cache.view := congrArg Abs.view habs
  have hd : (w.cache.deviceWrite p).disk =
      Function.update w.cache.disk b (w.cache.view b) := congrArg Abs.disk habs
  refine of_held h he hc' (by rw [hlog]; exact h.reserved) (by rw [hlog]; exact h.idle) hf
    (by rw [habs]; rfl) (by rw [hlog]; exact fun c hc => Or.inl hc) (by rw [hlog]; exact fun c hc => hc)
    ?_ ?_ ?_ ?_ ?_ ?_
  · intro c
    rw [hlog, habs]
    exact h.pinned c
  · intro c _
    rw [hv]
  · intro c hcb
    rw [hd, Function.update_of_ne hcb]
  · rw [hv, ← h.buf_of_env he, Function.update_eq_self]
    rfl
  · intro c hcb
    simp [PlainMap.step, hcb]
  · intro _
    simp [PlainMap.step, hd, h.buf_of_env he]

theorem syncCtx (h : Sim sb w m) (hs : w.step sb (.sync (some c) b) = some w') :
    Sim sb w' (m.step (.sync (some c) b)) := by
  simp only [World.step, Option.bind_eq_bind, Option.bind_eq_some_iff] at hs
  obtain ⟨p, he, rm, hrm, ⟨rm', s'⟩, hsync, hs⟩ := hs
  cases hs
  have ho := (h.env b p).mp he
  simp only [Bcache.cacheSync, Option.bind_eq_bind, Option.bind_eq_some_iff, ho.no] at hsync
  obtain ⟨⟨r, rm'', l⟩, hl, hsync⟩ := hsync
  cases hsync
  obtain ⟨hres, hcom, hbmem, hent, hrec⟩ := h.reserved.sync (rm_mem hrm) hl
  obtain ⟨hc₁, habs₁, hf₁⟩ := Bcache.setLog_spec h.coherent l
  -- whether the number was recorded now or before, the block is pinned afterwards
  obtain ⟨s', hs', hc', habs, hf⟩ : ∃ s', (if r = true then
      ({ w.cache with log := l } : Bcache).setPinned p true else { w.cache with log := l }) = s' ∧
      s'.Coherent sb.logStart ∧ s'.abs = (w.cache.abs.setLog l).pin b True ∧
      ∀ q c, w.cache.Owns q c → s'.Owns q c := by
    cases r with
    | true =>
        obtain ⟨hc₂, habs₂, hf₂⟩ := Bcache.setPinned_spec hc₁ (hf₁ _ _ ho) true
        refine ⟨_, rfl, hc₂, ?_, fun q c ho => hf₂ _ _ (hf₁ _ _ ho)⟩
        rw [if_pos rfl, habs₂, habs₁]
        simp [Abs.pin]
    | false =>
        refine ⟨_, rfl, hc₁, ?_, hf₁⟩
        have hb : w.cache.abs.pinned b := by
          rw [h.pinned b]
          by_contra hb
          exact absurd (hrec.mpr hb) (by simp)
        rw [if_neg (by simp), habs₁]
        ext1
        · rfl
        · rfl
        · simp [hb]
        · rfl
        · rfl
        · rfl
  rw [hs']
  have hlog : s'.log = l := congrArg Abs.log habs
  have hv : s'.view = w.cache.view := congrArg Abs.view habs
  have hd : s'.disk = w.cache.disk := congrArg Abs.disk habs
  refine of_held h he hc' (by rw [hlog]; exact hres) (by rw [hlog, hcom]; exact h.idle) hf
    (by rw [habs]; rfl) ?_ ?_ ?_ ?_ ?_ ?_ ?_ ?_
  · intro x hx
    rw [hlog] at hx
    exact (hent x).mp hx
  · intro x hx
    rw [hlog]
    exact (hent x).mpr (Or.inl hx)
  · intro x
    rw [hlog, hent x, habs]
    by_cases hxb : x = b
    · simp [hxb]
    · simp only [Abs.pin_pinned, Abs.setLog_pinned, Function.update_of_ne hxb, h.pinned x, hxb,
        or_false]
  · intro x _
    rw [hv]
  · intro x _
    rw [hd]
  · rw [hv, ← h.buf_of_env he, Function.update_eq_self]
    rfl
  · intro x hxb
    simp [PlainMap.step, hxb]
  · intro hb
    rw [hlog] at hb
    exact absurd hbmem hb

theorem acquire (h : Sim sb w m) (h0 : 0 < sb.numLogBlocks) (hb : sb.Client b)
    (hs : w.step sb (.acquire b) = some w') : Sim sb w' (m.step (.acquire b)) := by
  simp only [World.step, Option.bind_eq_bind, Option.bind_eq_some_iff] at hs
  obtain ⟨⟨p, s'⟩, hacq, hs⟩ := hs
  cases hs
  obtain ⟨hnot, A⟩ := Bcache.cacheAcquire_spec h.coherent (client_ne hb h0) hacq
  have hnone : w.env b = none := by
    cases he : w.env b with
    | none => rfl
    | some q => exact absurd (h.held_iff.mpr ⟨q, he⟩) hnot
  have hlog : s'.log = w.cache.log := congrArg Abs.log A.abs_eq
  have hv : s'.view = w.cache.view := congrArg Abs.view A.abs_eq
  have hd : s'.disk = w.cache.disk := congrArg Abs.disk A.abs_eq
  constructor
  · exact A.coherent
  · rw [hlog]
    exact h.reserved
  · rw [hlog]
    exact h.idle
  · intro c q
    by_cases hcb : c = b
    · subst hcb
      simp only [Function.update_self, Option.some.injEq]
      constructor
      · rintro rfl
        exact A.owns
      · exact fun ho => A.owns.ptr_inj A.coherent ho
    · simp only [Function.update_of_ne hcb]
      rw [h.env c q, Bcache.owns_iff_of_frame A.coherent _ (fun q => A.frame q c)]
      rw [A.abs_eq, Abs.acquire_held, Function.update_of_ne hcb]
  · intro c q he
    by_cases hcb : c = b
    · subst hcb
      exact hb
    · simp only [Function.update_of_ne hcb] at he
      exact h.env_client c q he
  · rw [hlog]
    exact h.entry_client
  · intro c
    rw [hlog, A.abs_eq]
    exact h.pinned c
  · intro c
    rw [hv]
    by_cases hcb : c = b
    · subst hcb
      simp [PlainMap.step, h.view_eq hb hnone]
    · simp [PlainMap.step, hcb, h.buf c]
  · rw [hlog, hd]
    exact h.on_disk
  · intro c hc he
    rw [hlog] at hc
    have hcb : c ≠ b := by
      rintro rfl
      simp at he
    simp only [Function.update_of_ne hcb] at he
    rw [hv]
    exact h.in_cache c hc he

theorem release (h : Sim sb w m) (hok : m.buf b = some (m.content b))
    (hs : w.step sb (.release b) = some w') : Sim sb w' (m.step (.release b)) := by
  simp only [World.step, Option.bind_eq_bind, Option.bind_eq_some_iff] at hs
  obtain ⟨p, he, s', hrel, hs⟩ := hs
  cases hs
  have ho := (h.env b p).mp he
  have hcontent : w.cache.view b = m.content b := by
    rw [h.buf_of_env he] at hok
    exact Option.some.inj hok
  have hb : sb.Client b := h.env_client b p he
  have hclean : ¬ w.cache.abs.pinned b → w.cache.view b = w.cache.disk b := by
    intro hp
    rw [hcontent]
    exact h.on_disk b hb (fun hmem => hp ((h.pinned b).mpr hmem))
  obtain ⟨s'', hrel', hc', habs, hf⟩ := Bcache.cacheRelease_spec h.coherent ho hclean
  obtain rfl : s'' = s' := Option.some.inj (hrel'.symm.trans hrel)
  have hlog : s''.log = w.cache.log := congrArg Abs.log habs
  have hv : s''.view = w.cache.view := congrArg Abs.view habs
  have hd : s''.disk = w.cache.disk := congrArg Abs.disk habs
  constructor
  · exact hc'
  · rw [hlog]
    exact h.reserved
  · rw [hlog]
    exact h.idle
  · intro c q
    by_cases hcb : c = b
    · subst hcb
      simp only [Function.update_self, reduceCtorEq, false_iff]
      intro ho'
      have := ho'.held
      rw [habs] at this
      simp at this
    · simp only [Function.update_of_ne hcb]
      rw [h.env c q, Bcache.owns_iff_of_frame hc' _ (fun q ho => hf q c ho hcb)]
      rw [habs, Abs.release_held, Function.update_of_ne hcb]
  · intro c q he'
    by_cases hcb : c = b
    · subst hcb
      exact hb
    · simp only [Function.update_of_ne hcb] at he'
      exact h.env_client c q he'
  · rw [hlog]
    exact h.entry_client
  · intro c
    rw [hlog, habs]
    exact h.pinned c
  · intro c
    rw [hv]
    by_cases hcb : c = b
    · subst hcb
      simp [PlainMap.step]
    · simp [PlainMap.step, hcb, h.buf c]
  · rw [hlog, hd]
    exact h.on_disk
  · intro c hc he'
    rw [hlog] at hc
    rw [hv]
    by_cases hcb : c = b
    · subst hcb
      exact hcontent.symm
    · simp only [Function.update_of_ne hcb] at he'
      exact h.in_cache c hc he'

/-- A change of the reservation touches no content. -/
private theorem of_log {l : Log} {ctxs' : List (ℕ × ℕ)} (h : Sim sb w m)
    (hres : Reserved l ctxs') (hidle : l.committing = false)
    (hhdr : l.header = w.cache.log.header) :
    Sim sb { w with cache := { w.cache with log := l }, ctxs := ctxs' } m := by
  obtain ⟨hc', habs, hf⟩ := Bcache.setLog_spec h.coherent l
  refine ⟨hc', hres, hidle, ?_, h.env_client, ?_, ?_, h.buf, ?_, ?_⟩
  · intro b p
    rw [h.env b p]
    exact ⟨fun ho => ⟨ho.mem, ho.no, ho.acquired⟩, fun ho => ⟨ho.mem, ho.no, ho.acquired⟩⟩
  · simp only [hhdr]
    exact h.entry_client
  · simp only [hhdr]
    exact h.pinned
  · simp only [hhdr]
    exact h.on_disk
  · simp only [hhdr]
    exact h.in_cache

theorem beginOp (h : Sim sb w m) (hs : w.step sb (.beginOp c) = some w') :
    Sim sb w' (m.step (.beginOp c)) := by
  simp only [World.step] at hs
  split at hs
  · cases hs
  · rename_i hkey
    simp only [Option.bind_eq_bind, Option.bind_eq_some_iff, Bcache.cacheBeginOp] at hs
    obtain ⟨⟨rm, s'⟩, hbeg, hs⟩ := hs
    cases hs
    split at hbeg
    · rename_i rm' l hadm
      cases hbeg
      obtain ⟨hres, -, -, hidle, hhdr⟩ := h.reserved.beginOp hkey hadm
      exact of_log h hres hidle hhdr
    · cases hbeg

/-- The recorded numbers keep clear of the log blocks a commit uses, provided the log area
is larger than their number. -/
theorem outsideLog (h : Sim sb w m)
    (hroom : w.cache.log.header.numBlocks < sb.numLogBlocks) :
    OutsideLog sb w.cache.log.header := by
  intro i hi
  have := (h.entry_client _ (LogHeader.blockNo_mem hi)).1
  simp only [SuperBlock.InLog] at this
  omega

/-- What the blocks outside the log hold after a commit. -/
theorem commit_view (h : Sim sb w m) (hroom : w.cache.log.header.numBlocks < sb.numLogBlocks)
    (hb : sb.Client b) :
    applyWrites (Bcache.commitWrites sb w.cache.log.header w.cache.view) w.cache.view b =
      w.cache.view b ∧
    applyWrites (Bcache.commitWrites sb w.cache.log.header w.cache.view) w.cache.disk b =
      if b ∈ w.cache.log.header.entries then w.cache.view b else w.cache.disk b := by
  have hb0 : b ≠ sb.logStart := client_ne hb (by omega)
  have hlogs : ∀ x ∈ Bcache.logWrites sb w.cache.log.header w.cache.view, x.1 ≠ b := by
    intro x hx
    obtain ⟨i, hi, rfl⟩ := List.mem_map.mp hx
    have hi' := List.mem_range.mp hi
    have := hb.1
    simp only [SuperBlock.InLog] at this
    simp only [SuperBlock.logBlock]
    omega
  have hstep : ∀ d : ℕ → Sector,
      applyWrites (Bcache.commitWrites sb w.cache.log.header w.cache.view) d b =
        if b ∈ w.cache.log.header.entries then w.cache.view b else d b := by
    intro d
    simp only [Bcache.commitWrites, applyWrites_append, applyWrites_cons, applyWrites_nil,
      Function.update_of_ne hb0]
    by_cases hmem : b ∈ w.cache.log.header.entries
    · obtain ⟨i, hi, hib⟩ := LogHeader.mem_entries.mp hmem
      rw [if_pos hmem, ← hib]
      refine applyWrites_of_mem
        (w := (w.cache.log.header.blockNo i, w.cache.view (w.cache.log.header.blockNo i))) ?_ ?_
      · rw [List.map_map]
        exact h.reserved.nodup
      · exact List.mem_map.mpr ⟨i, List.mem_range.mpr hi, rfl⟩
    · rw [if_neg hmem, applyWrites_of_notMem, Function.update_of_ne hb0,
        applyWrites_of_notMem hlogs]
      intro x hx hxb
      obtain ⟨i, hi, rfl⟩ := List.mem_map.mp hx
      exact hmem (hxb ▸ LogHeader.blockNo_mem (List.mem_range.mp hi))
  refine ⟨?_, hstep _⟩
  rw [hstep]
  exact ite_self _

/-- The last operation of a group commits: the recorded blocks go home, the others stay. -/
private theorem of_commit {l : Log} {ctxs' : List (ℕ × ℕ)} {s' : Bcache} (h : Sim sb w m)
    (hres : Reserved l ctxs') (hhdr : l.header = w.cache.log.header)
    (hroom : w.cache.log.header.numBlocks < sb.numLogBlocks)
    (hcommit : Bcache.commit sb { w.cache with log := l } = some s') :
    Sim sb { w with
      cache := { s' with log := { s'.log with committing := false } }, ctxs := ctxs' } m := by
  by_cases hn : 0 < l.header.numBlocks
  · obtain ⟨hc₁, habs₁, hf₁⟩ := Bcache.setLog_spec h.coherent l
    have hout : OutsideLog sb l.header := by
      rw [hhdr]
      exact h.outsideLog hroom
    have hfree := Bcache.unheld_of_commit hc₁ hout hn hcommit
    obtain ⟨s'', hs'', hc₂, habs₂, hf₂⟩ := Bcache.commit_spec hc₁ hout hn hfree
    obtain rfl : s'' = s' := Option.some.inj (hs''.symm.trans hcommit)
    obtain ⟨hc₃, habs₃, hf₃⟩ := Bcache.setLog_spec hc₂ { s''.log with committing := false }
    obtain ⟨s, hs⟩ : ∃ t : Bcache, { s'' with log := { s''.log with committing := false } } = t :=
      ⟨_, rfl⟩
    rw [hs] at hc₃ habs₃ hf₃ ⊢
    rw [habs₂] at habs₃
    have hlog : s.log = { l with header := l.header.clear, committing := false } := by
      rw [← hs, show s''.log = _ from congrArg Abs.log habs₂]
      rfl
    have hview : s.view = applyWrites
        (Bcache.commitWrites sb w.cache.log.header w.cache.view) w.cache.view := by
      rw [← Bcache.abs_view, habs₃, ← hhdr]
      rfl
    have hdisk : s.disk = applyWrites
        (Bcache.commitWrites sb w.cache.log.header w.cache.view) w.cache.disk := by
      rw [← Bcache.abs_disk, habs₃, ← hhdr]
      rfl
    have hheld : s.abs.held = w.cache.abs.held := by
      rw [habs₃]
      rfl
    have hpin : ∀ b, ¬ s.abs.pinned b := by
      intro b hb
      rw [habs₃] at hb
      refine hb.2 ?_
      have := (h.pinned b).mp hb.1
      rwa [← hhdr] at this
    have henv : ∀ b p, w.env b = some p ↔ s.Owns p b := by
      intro b p
      rw [h.env b p, Bcache.owns_iff_of_frame hc₃ (congrFun hheld b)
        (fun q ho => hf₃ q b (hf₂ q b (hf₁ q b ho)))]
    have hnone : s.log.header.entries = [] := by
      rw [hlog]
      rfl
    constructor
    · exact hc₃
    · rw [hlog]
      exact hres.clear.setCommitting false
    · rw [hlog]
    · exact henv
    · exact h.env_client
    · simp [hnone]
    · simp [hnone, hpin]
    · intro b
      rw [h.buf b]
      cases he : w.env b with
      | none => rfl
      | some p =>
          rw [Option.map_some, Option.map_some, hview,
            (h.commit_view hroom (h.env_client b p he)).1]
    · intro b hb _
      rw [hdisk, (h.commit_view hroom hb).2]
      split
      · rename_i hmem
        -- a recorded block is not held, or the commit would not have returned
        have he : w.env b = none := by
          cases he : w.env b with
          | none => rfl
          | some p =>
              obtain ⟨i, hi, hib⟩ := LogHeader.mem_entries.mp hmem
              rw [← hhdr] at hi hib
              have := (hfree i hi).2
              rw [habs₁] at this
              refine absurd (h.held_iff.mpr ⟨p, he⟩) ?_
              rw [← hib]
              exact this
        exact h.in_cache b hmem he
      · rename_i hmem
        exact h.on_disk b hb hmem
    · simp [hnone]
  · rw [Bcache.commit, if_neg hn] at hcommit
    cases hcommit
    exact of_log h (hres.setCommitting false) rfl hhdr

theorem endOp (h : Sim sb w m) (hroom : w.cache.log.header.numBlocks < sb.numLogBlocks)
    (hs : w.step sb (.endOp c) = some w') : Sim sb w' (m.step (.endOp c)) := by
  simp only [World.step, Option.bind_eq_bind, Option.bind_eq_some_iff, Bcache.cacheEndOp] at hs
  obtain ⟨rm, hrm, s', hend, hs⟩ := hs
  cases hs
  split at hend
  · rename_i l hl
    obtain ⟨hres, hhdr, -, -⟩ := h.reserved.endOp (rm_mem hrm) hl
    simp only [Option.bind_eq_some_iff] at hend
    obtain ⟨s'', hcommit, hend⟩ := hend
    cases hend
    exact of_commit h hres hhdr hroom hcommit
  · rename_i l hl
    obtain ⟨hres, hhdr, -, hcom⟩ := h.reserved.endOp (rm_mem hrm) hl
    cases hend
    exact of_log h hres (by rw [hcom rfl]; exact h.idle) hhdr

/-- **Every call keeps the simulation**, provided a commit finds the log area large enough. -/
theorem step {call : Call} (h : Sim sb w m) (h0 : 0 < sb.numLogBlocks)
    (hroom : ∀ c, call = .endOp c → w.cache.log.header.numBlocks < sb.numLogBlocks)
    (hok : call.Allowed sb m) (hs : w.step sb call = some w') : Sim sb w' (m.step call) := by
  cases call with
  | beginOp c => exact h.beginOp hs
  | endOp c => exact h.endOp (hroom c rfl) hs
  | acquire b => exact h.acquire h0 hok hs
  | modify b d => exact h.modify hs
  | sync ctx b =>
      cases ctx with
      | none => exact h.syncNull hs
      | some c => exact h.syncCtx hs
  | release b => exact h.release hok hs

/-- A header read from a valid device keeps clear of the part of the log in use. -/
theorem outsideLog_of_valid {disk : ℕ → Sector} (hv : ValidLog sb disk)
    (hroom : (LogHeader.decode (disk sb.logStart)).numBlocks < sb.numLogBlocks) :
    OutsideLog sb (LogHeader.decode (disk sb.logStart)) := by
  intro i hi
  have := (hv.client _ (LogHeader.blockNo_mem hi)).1
  simp only [SuperBlock.InLog] at this
  omega

/-- **`init_bcache` starts the simulation** with the contents it has recovered. -/
theorem init {disk : ℕ → Sector} {s : Bcache} (hv : ValidLog sb disk)
    (hroom : (LogHeader.decode (disk sb.logStart)).numBlocks < sb.numLogBlocks)
    (hs : Bcache.initBcache sb disk = some s) :
    Sim sb (World.start s) ⟨s.disk, fun _ => none⟩ := by
  obtain ⟨t, ht, hc, -, -, hview, hheld, hpin, hlog⟩ := initBcache_spec (outsideLog_of_valid hv hroom)
  obtain rfl : t = s := Option.some.inj (ht.symm.trans hs)
  have hent : t.log.header.entries = [] := by
    rw [hlog]
    rfl
  constructor
  · exact hc
  · simp only [World.start]
    rw [hlog]
    exact ⟨by simp, rfl, rfl, by simp, by simp⟩
  · simp only [World.start]
    rw [hlog]
  · intro b p
    simp only [World.start, reduceCtorEq, false_iff]
    intro ho
    exact hheld b ho.held
  · simp [World.start]
  · simp [World.start, hent]
  · simp [World.start, hent, hpin]
  · simp [World.start]
  · simp [World.start]
  · simp [World.start, hent]

end Sim

end OsLab
