import OsLab.Fs.Cache

/-!
# What the cache calls do to the contents

Pointers, list order and eviction decide where a content is kept, not what it
is.  `Bcache.abs` forgets them: it keeps the content `cache_acquire` would return
for each block number, which numbers are held and which are pinned, the log and
the device.  Every primitive of the cache is then an equation on `abs`, with the
well-formedness `Coherent` kept and the pointers of other holders left alone.

The one invariant that makes eviction harmless is `Coherent.clean`: a number
that is neither held nor pinned has the same content in the cache as on disk.

## Main definitions

* `Abs`, `Bcache.abs` — the contents, without the pointers.
* `Bcache.Owns s p b` — the pointer `p` is a held block with number `b`.
* `Bcache.Coherent` — the well-formedness every call keeps.
-/

namespace OsLab

/-- A `Bcache` without its pointers. -/
@[ext] structure Abs where
  /-- the content `cache_acquire` returns for a block number -/
  view : ℕ → Sector
  held : ℕ → Prop
  pinned : ℕ → Prop
  log : Log
  disk : ℕ → Sector
  writes : List (ℕ × Sector)

namespace Abs

/-- A number becomes held. -/
@[simps -fullyApplied] def acquire (a : Abs) (b : ℕ) : Abs := { a with held := Function.update a.held b True }

/-- A number is no longer held. -/
@[simps -fullyApplied] def release (a : Abs) (b : ℕ) : Abs := { a with held := Function.update a.held b False }

/-- The holder of a block changes its data in place. -/
@[simps -fullyApplied] def store (a : Abs) (b : ℕ) (d : Sector) : Abs :=
  { a with view := Function.update a.view b d }

/-- A block is pinned or unpinned. -/
@[simps -fullyApplied] def pin (a : Abs) (b : ℕ) (v : Prop) : Abs :=
  { a with pinned := Function.update a.pinned b v }

/-- The content of a cached block is written to its place on the device. -/
@[simps -fullyApplied] def flush (a : Abs) (b : ℕ) : Abs :=
  { a with disk := Function.update a.disk b (a.view b), writes := a.writes ++ [(b, a.view b)] }

/-- A block that is not cached is written. -/
@[simps -fullyApplied] def devWrite (a : Abs) (b : ℕ) (d : Sector) : Abs :=
  { a with
    view := Function.update a.view b d
    disk := Function.update a.disk b d
    writes := a.writes ++ [(b, d)] }

@[simps -fullyApplied] def setLog (a : Abs) (l : Log) : Abs := { a with log := l }

end Abs

namespace Bcache

/-- The content of a block number: the cached copy if there is one. -/
def view (s : Bcache) (b : ℕ) : Sector :=
  match s.lookup b with
  | some p => (s.mem p).data
  | none => s.disk b

/-- The contents, the held and the pinned numbers, the log and the device. -/
def abs (s : Bcache) : Abs where
  view := s.view
  held b := ∃ p ∈ s.head, (s.mem p).blockNo = b ∧ (s.mem p).acquired = true
  pinned b := ∃ p ∈ s.head, (s.mem p).blockNo = b ∧ (s.mem p).pinned = true
  log := s.log
  disk := s.disk
  writes := s.writes

/-- `p` points to a block that is acquired and has number `b`. -/
structure Owns (s : Bcache) (p b : ℕ) : Prop where
  mem : p ∈ s.head
  no : (s.mem p).blockNo = b
  acquired : (s.mem p).acquired = true

/-- The lock of a block whose `acquired` flag is `a`, with nobody asleep on it. -/
def lockOf (a : Bool) : Semaphore := ⟨if a then 0 else 1, []⟩

/-- Well-formedness between two calls of a serialised run.  `ls` is the number of
the log header's block, which is read and written past the cache. -/
structure Coherent (ls : ℕ) (s : Bcache) : Prop where
  nodup : s.head.Nodup
  lt_brk : ∀ p ∈ s.head, p < s.brk
  inj : ∀ p ∈ s.head, ∀ q ∈ s.head, (s.mem p).blockNo = (s.mem q).blockNo → p = q
  lock : ∀ p ∈ s.head, (s.mem p).lock = lockOf (s.mem p).acquired
  ne_log : ∀ p ∈ s.head, (s.mem p).blockNo ≠ ls
  clean : ∀ p ∈ s.head, (s.mem p).pinned = false → (s.mem p).acquired = false →
    (s.mem p).data = s.disk (s.mem p).blockNo

variable {ls : ℕ} {s s' : Bcache} {p q b c : ℕ}

@[simp] theorem abs_view (s : Bcache) : s.abs.view = s.view := rfl
@[simp] theorem abs_log (s : Bcache) : s.abs.log = s.log := rfl
@[simp] theorem abs_disk (s : Bcache) : s.abs.disk = s.disk := rfl
@[simp] theorem abs_writes (s : Bcache) : s.abs.writes = s.writes := rfl

@[simp] theorem set_mem_self (s : Bcache) (p : ℕ) (blk : Block) : (s.set p blk).mem p = blk := by
  simp [set]

theorem set_mem_of_ne (s : Bcache) (blk : Block) (h : q ≠ p) :
    (s.set p blk).mem q = s.mem q := by
  simp [set, h]

@[simp] theorem set_head (s : Bcache) (p : ℕ) (blk : Block) : (s.set p blk).head = s.head := rfl
@[simp] theorem set_brk (s : Bcache) (p : ℕ) (blk : Block) : (s.set p blk).brk = s.brk := rfl
@[simp] theorem set_log (s : Bcache) (p : ℕ) (blk : Block) : (s.set p blk).log = s.log := rfl
@[simp] theorem set_disk (s : Bcache) (p : ℕ) (blk : Block) : (s.set p blk).disk = s.disk := rfl
@[simp] theorem set_writes (s : Bcache) (p : ℕ) (blk : Block) :
    (s.set p blk).writes = s.writes := rfl

theorem lookup_eq_none : s.lookup b = none ↔ ∀ p ∈ s.head, (s.mem p).blockNo ≠ b := by
  simp [lookup]

theorem mem_of_lookup (h : s.lookup b = some p) : p ∈ s.head ∧ (s.mem p).blockNo = b := by
  refine ⟨List.mem_of_find?_eq_some h, ?_⟩
  simpa using List.find?_some h

theorem lookup_of_mem (hinj : ∀ p ∈ s.head, ∀ q ∈ s.head,
    (s.mem p).blockNo = (s.mem q).blockNo → p = q) (hp : p ∈ s.head)
    (hb : (s.mem p).blockNo = b) : s.lookup b = some p := by
  cases h : s.lookup b with
  | none => exact absurd hb (lookup_eq_none.mp h p hp)
  | some q =>
      obtain ⟨hq, hqb⟩ := mem_of_lookup h
      rw [hinj p hp q hq (hb.trans hqb.symm)]

theorem mem_of_victim (h : s.victim = some p) :
    p ∈ s.head ∧ (s.mem p).pinned = false ∧ (s.mem p).acquired = false := by
  refine ⟨by simpa using List.mem_of_find?_eq_some h, ?_⟩
  simpa using List.find?_some h

theorem view_of_uncached (h : ∀ p ∈ s.head, (s.mem p).blockNo ≠ b) : s.view b = s.disk b := by
  rw [view, lookup_eq_none.mpr h]

namespace Coherent

theorem view_eq (h : Coherent ls s) (hp : p ∈ s.head) (hb : (s.mem p).blockNo = b) :
    s.view b = (s.mem p).data := by
  rw [view, lookup_of_mem h.inj hp hb]

theorem not_held (h : Coherent ls s) (hp : p ∈ s.head) (hb : (s.mem p).blockNo = b)
    (ha : (s.mem p).acquired = false) : ¬ s.abs.held b := by
  rintro ⟨q, hq, hqb, hqa⟩
  rw [h.inj p hp q hq (hb.trans hqb.symm)] at ha
  simp [ha] at hqa

theorem pinned_eq (h : Coherent ls s) (hp : p ∈ s.head) (hb : (s.mem p).blockNo = b) :
    s.abs.pinned b = ((s.mem p).pinned = true) := by
  refine propext ⟨?_, fun hpin => ⟨p, hp, hb, hpin⟩⟩
  rintro ⟨q, hq, hqb, hpin⟩
  rwa [h.inj p hp q hq (hb.trans hqb.symm)]

/-- A number neither held nor pinned may be read again from disk. -/
theorem view_eq_disk (h : Coherent ls s) (hh : ¬ s.abs.held b) (hp : ¬ s.abs.pinned b) :
    s.view b = s.disk b := by
  cases hl : s.lookup b with
  | none => exact view_of_uncached (lookup_eq_none.mp hl)
  | some p =>
      obtain ⟨hmem, hno⟩ := mem_of_lookup hl
      have ha : (s.mem p).acquired = false := by
        by_contra hc
        exact hh ⟨p, hmem, hno, by simpa using hc⟩
      have hpin : (s.mem p).pinned = false := by
        by_contra hc
        exact hp ⟨p, hmem, hno, by simpa using hc⟩
      rw [h.view_eq hmem hno, h.clean p hmem hpin ha, hno]

end Coherent

theorem Owns.held (h : Owns s p b) : s.abs.held b := ⟨p, h.mem, h.no, h.acquired⟩

/-- The data a pointer sees is the content of its number. -/
theorem Owns.data (hc : Coherent ls s) (h : Owns s p b) : (s.mem p).data = s.view b :=
  (hc.view_eq h.mem h.no).symm

theorem Owns.ptr_inj (hc : Coherent ls s) (h : Owns s p b) (h' : Owns s q b) : p = q :=
  hc.inj p h.mem q h'.mem (h.no.trans h'.no.symm)

theorem held_iff_owns : s.abs.held b ↔ ∃ p, Owns s p b := by
  constructor
  · rintro ⟨p, hp, hb, ha⟩
    exact ⟨p, hp, hb, ha⟩
  · rintro ⟨p, hp⟩
    exact hp.held

/-- A number whose holder is left alone has the same holder afterwards. -/
theorem owns_iff_of_frame (hc' : Coherent ls s') (hheld : s'.abs.held c = s.abs.held c)
    (hf : ∀ q, Owns s q c → Owns s' q c) : Owns s' q c ↔ Owns s q c := by
  refine ⟨?_, hf q⟩
  intro h
  obtain ⟨r, hr⟩ := held_iff_owns.mp (hheld ▸ h.held)
  rwa [h.ptr_inj hc' (hf r hr)]

/-! ## Storing one cached block -/

theorem set_set (s : Bcache) (p : ℕ) (blk blk' : Block) :
    (s.set p blk).set p blk' = s.set p blk' := by
  simp [set]

/-- Rewriting a cached block under its number changes the content and the flags of
that number only. -/
theorem abs_set (hc : Coherent ls s) (hp : p ∈ s.head) (hb : (s.mem p).blockNo = b) {blk : Block}
    (hno : blk.blockNo = b) :
    (s.set p blk).abs = ⟨Function.update s.view b blk.data,
      Function.update s.abs.held b (blk.acquired = true),
      Function.update s.abs.pinned b (blk.pinned = true), s.log, s.disk, s.writes⟩ := by
  have hnos : ∀ q, ((s.set p blk).mem q).blockNo = (s.mem q).blockNo := by
    intro q
    by_cases hq : q = p
    · subst hq
      rw [set_mem_self, hno, hb]
    · rw [set_mem_of_ne s blk hq]
  have hlook : ∀ c, (s.set p blk).lookup c = s.lookup c := by
    intro c
    simp only [lookup, set_head, hnos]
  have hflag : ∀ (f : Block → Bool) (c : ℕ),
      (∃ q ∈ s.head, ((s.set p blk).mem q).blockNo = c ∧ f ((s.set p blk).mem q) = true) ↔
        Function.update (fun c => ∃ q ∈ s.head, (s.mem q).blockNo = c ∧ f (s.mem q) = true)
          b (f blk = true) c := by
    intro f c
    by_cases hcb : c = b
    · subst hcb
      rw [Function.update_self]
      constructor
      · rintro ⟨q, hq, hqc, hf⟩
        have : q = p := hc.inj q hq p hp (((hnos q).symm.trans hqc).trans hb.symm)
        subst this
        simpa using hf
      · intro hf
        exact ⟨p, hp, by simpa using hno, by simpa using hf⟩
    · rw [Function.update_of_ne hcb]
      refine exists_congr fun q => and_congr_right fun hq => ?_
      by_cases hqp : q = p
      · subst hqp
        simp [hno, hb, Ne.symm hcb]
      · rw [set_mem_of_ne s blk hqp]
  ext1
  · funext c
    simp only [abs_view, view, hlook]
    by_cases hcb : c = b
    · subst hcb
      simp [lookup_of_mem hc.inj hp hb]
    · rw [Function.update_of_ne hcb]
      cases hl : s.lookup c with
      | none => simp [view, hl]
      | some q =>
          have hqp : q ≠ p := by
            rintro rfl
            exact hcb ((mem_of_lookup hl).2.symm.trans hb)
          simp [view, hl, set_mem_of_ne s blk hqp]
  · funext c
    exact propext (hflag Block.acquired c)
  · funext c
    exact propext (hflag Block.pinned c)
  · rfl
  · rfl
  · rfl

/-- A stored block that is as a block between two calls has to be keeps the cache
well formed. -/
theorem coherent_set (hc : Coherent ls s) (hp : p ∈ s.head) (hb : (s.mem p).blockNo = b)
    {blk : Block} (hno : blk.blockNo = b) (hlock : blk.lock = lockOf blk.acquired)
    (hclean : blk.pinned = false → blk.acquired = false → blk.data = s.disk b) :
    Coherent ls (s.set p blk) := by
  have hmem : ∀ (P : Block → Prop), P blk → ∀ q ∈ s.head, P (s.mem q) → P ((s.set p blk).mem q) := by
    intro P hblk q _ hq
    by_cases hqp : q = p
    · subst hqp
      simpa using hblk
    · rwa [set_mem_of_ne s blk hqp]
  have hnos : ∀ q, ((s.set p blk).mem q).blockNo = (s.mem q).blockNo := by
    intro q
    by_cases hq : q = p
    · subst hq
      rw [set_mem_self, hno, hb]
    · rw [set_mem_of_ne s blk hq]
  constructor
  · exact hc.nodup
  · exact hc.lt_brk
  · intro q hq r hr h
    rw [hnos, hnos] at h
    exact hc.inj q hq r hr h
  · intro q hq
    exact hmem (fun k => k.lock = lockOf k.acquired) hlock q hq (hc.lock q hq)
  · intro q hq
    rw [hnos]
    exact hc.ne_log q hq
  · intro q hq
    exact hmem (fun k => k.pinned = false → k.acquired = false → k.data = s.disk k.blockNo)
      (by rw [hno]; exact hclean) q hq (hc.clean q hq)

theorem owns_set_of_ne {blk : Block} (h : Owns s q c) (hqp : q ≠ p) : Owns (s.set p blk) q c := by
  constructor
  · exact h.mem
  · rw [set_mem_of_ne s blk hqp]
    exact h.no
  · rw [set_mem_of_ne s blk hqp]
    exact h.acquired

/-- The order of the list does not matter to the contents. -/
theorem abs_head_perm (hc : Coherent ls s) {l : List ℕ} (hl : l.Perm s.head) :
    ({ s with head := l } : Bcache).abs = s.abs := by
  ext1
  · funext b
    cases h : s.lookup b with
    | none =>
        rw [abs_view, abs_view, view_of_uncached (lookup_eq_none.mp h), view_of_uncached]
        intro p hp
        exact lookup_eq_none.mp h p (hl.mem_iff.mp hp)
    | some p =>
        obtain ⟨hp, hb⟩ := mem_of_lookup h
        have hlook : ({ s with head := l } : Bcache).lookup b = some p := by
          refine lookup_of_mem ?_ (hl.mem_iff.mpr hp) hb
          intro q hq r hr
          exact hc.inj q (hl.mem_iff.mp hq) r (hl.mem_iff.mp hr)
        simp only [abs_view, view, h, hlook]
  · funext b
    simp only [abs, hl.mem_iff]
  · funext b
    simp only [abs, hl.mem_iff]
  · rfl
  · rfl
  · rfl

theorem coherent_head_perm (hc : Coherent ls s) {l : List ℕ} (hl : l.Perm s.head) :
    Coherent ls { s with head := l } where
  nodup := hl.nodup_iff.mpr hc.nodup
  lt_brk p hp := hc.lt_brk p (hl.mem_iff.mp hp)
  inj p hp q hq := hc.inj p (hl.mem_iff.mp hp) q (hl.mem_iff.mp hq)
  lock p hp := hc.lock p (hl.mem_iff.mp hp)
  ne_log p hp := hc.ne_log p (hl.mem_iff.mp hp)
  clean p hp := hc.clean p (hl.mem_iff.mp hp)

/-! ## Acquiring -/

/-- What a successful `cache_acquire(b)` does. -/
structure Acquired (ls : ℕ) (s : Bcache) (b p : ℕ) (s' : Bcache) : Prop where
  coherent : Coherent ls s'
  owns : Owns s' p b
  abs_eq : s'.abs = s.abs.acquire b
  frame : ∀ q c, Owns s q c → Owns s' q c

private theorem acquired_hit (hc : Coherent ls s) (hp : p ∈ s.head) (hb : (s.mem p).blockNo = b)
    (ha : (s.mem p).acquired = false) :
    Acquired ls s b p (s.set p { s.mem p with acquired := true, lock := lockOf true }) := by
  constructor
  · refine coherent_set hc hp hb hb rfl ?_
    intro _ h
    cases h
  · exact ⟨hp, by simp [hb], by simp⟩
  · have hv : s.view b = (s.mem p).data := hc.view_eq hp hb
    rw [abs_set hc hp hb (by exact hb)]
    ext1
    · simp [← hv]
    · simp
    · simp [← hc.pinned_eq hp hb]
    · rfl
    · rfl
    · rfl
  · intro q c h
    have hqp : q ≠ p := by
      rintro rfl
      exact absurd h.acquired (by simp [ha])
    exact owns_set_of_ne h hqp

/-- Taking over a clean block for a number that is not cached. -/
private theorem acquired_evict (hc : Coherent ls s) (hbl : b ≠ ls)
    (hb : ∀ q ∈ s.head, (s.mem q).blockNo ≠ b) (hp : p ∈ s.head)
    (hpin : (s.mem p).pinned = false) (ha : (s.mem p).acquired = false) :
    Acquired ls s b p (s.set p { s.mem p with
      blockNo := b, acquired := true, lock := lockOf true, data := s.disk b }) := by
  set blk : Block := { s.mem p with
    blockNo := b, acquired := true, lock := lockOf true, data := s.disk b } with hblk
  have hinj : ∀ q ∈ s.head, ∀ r ∈ s.head,
      ((s.set p blk).mem q).blockNo = ((s.set p blk).mem r).blockNo → q = r := by
    intro q hq r hr h
    by_cases hqp : q = p <;> by_cases hrp : r = p
    · rw [hqp, hrp]
    · subst hqp
      rw [set_mem_self, set_mem_of_ne s blk hrp] at h
      exact absurd h.symm (hb r hr)
    · subst hrp
      rw [set_mem_self, set_mem_of_ne s blk hqp] at h
      exact absurd h (hb q hq)
    · rw [set_mem_of_ne s blk hqp, set_mem_of_ne s blk hrp] at h
      exact hc.inj q hq r hr h
  have hcoh : Coherent ls (s.set p blk) := by
    refine ⟨hc.nodup, hc.lt_brk, hinj, ?_, ?_, ?_⟩
    · intro q hq
      by_cases hqp : q = p
      · subst hqp
        simp [hblk]
      · rw [set_mem_of_ne s blk hqp]
        exact hc.lock q hq
    · intro q hq
      by_cases hqp : q = p
      · subst hqp
        simpa [hblk] using hbl
      · rw [set_mem_of_ne s blk hqp]
        exact hc.ne_log q hq
    · intro q hq
      by_cases hqp : q = p
      · subst hqp
        simp [hblk]
      · rw [set_mem_of_ne s blk hqp]
        exact hc.clean q hq
  refine ⟨hcoh, ⟨hp, by simp [hblk], by simp [hblk]⟩, ?_, ?_⟩
  · have hviewb : s.view b = s.disk b := view_of_uncached hb
    ext1
    · funext c
      simp only [abs_view, Abs.acquire_view]
      by_cases hcb : c = b
      · subst hcb
        rw [hcoh.view_eq (p := p) hp (by simp [hblk]), hviewb]
        simp [hblk]
      · cases hl : s.lookup c with
        | none =>
            have hnone := lookup_eq_none.mp hl
            rw [view_of_uncached hnone, view_of_uncached]
            · rfl
            · intro q hq
              by_cases hqp : q = p
              · subst hqp
                simpa [hblk] using Ne.symm hcb
              · rw [set_mem_of_ne s blk hqp]
                exact hnone q hq
        | some q =>
            obtain ⟨hq, hqc⟩ := mem_of_lookup hl
            by_cases hqp : q = p
            · subst hqp
              rw [hc.view_eq hq hqc, hc.clean q hq hpin ha, hqc, view_of_uncached]
              · rfl
              · intro r hr
                by_cases hrq : r = q
                · subst hrq
                  simpa [hblk] using Ne.symm hcb
                · rw [set_mem_of_ne s blk hrq]
                  intro hrc
                  exact hrq (hc.inj r hr q hq (hrc.trans hqc.symm))
            · rw [hc.view_eq hq hqc, hcoh.view_eq (p := q) hq
                (by rw [set_mem_of_ne s blk hqp]; exact hqc), set_mem_of_ne s blk hqp]
    · funext c
      refine propext ?_
      by_cases hcb : c = b
      · subst hcb
        simp only [Abs.acquire_held, Function.update_self, iff_true]
        exact ⟨p, hp, by simp [hblk], by simp [hblk]⟩
      · rw [Abs.acquire_held, Function.update_of_ne hcb]
        refine exists_congr fun q => and_congr_right fun hq => ?_
        by_cases hqp : q = p
        · subst hqp
          simp [hblk, Ne.symm hcb, ha]
        · rw [set_mem_of_ne s blk hqp]
    · funext c
      refine propext (exists_congr fun q => and_congr_right fun hq => ?_)
      by_cases hqp : q = p
      · subst hqp
        simp [hblk, hpin]
      · rw [set_mem_of_ne s blk hqp]
    · rfl
    · rfl
    · rfl
  · intro q c h
    have hqp : q ≠ p := by
      rintro rfl
      exact absurd h.acquired (by simp [ha])
    exact owns_set_of_ne h hqp

/-- Linking a new block for a number that is not cached. -/
private theorem acquired_fresh (hc : Coherent ls s) (hbl : b ≠ ls)
    (hb : ∀ q ∈ s.head, (s.mem q).blockNo ≠ b) (blk : Block) (hno : blk.blockNo = b)
    (ha : blk.acquired = true) (hpin : blk.pinned = false) (hlock : blk.lock = lockOf true)
    (hdata : blk.data = s.disk b) :
    Acquired ls s b s.brk { s.set s.brk blk with head := s.brk :: s.head, brk := s.brk + 1 } := by
  have hnew : s.brk ∉ s.head := fun h => absurd (hc.lt_brk _ h) (lt_irrefl _)
  have hold : ∀ q ∈ s.head, (s.set s.brk blk).mem q = s.mem q := by
    intro q hq
    refine set_mem_of_ne s blk ?_
    rintro rfl
    exact hnew hq
  set t : Bcache := { s.set s.brk blk with head := s.brk :: s.head, brk := s.brk + 1 } with ht
  have hself : t.mem s.brk = blk := by simp [ht]
  have hmem : ∀ q ∈ s.head, t.mem q = s.mem q := hold
  have hcoh : Coherent ls t := by
    constructor
    · exact List.nodup_cons.mpr ⟨hnew, hc.nodup⟩
    · intro q hq
      rcases List.mem_cons.mp hq with rfl | hq
      · exact Nat.lt_succ_self _
      · exact Nat.lt_succ_of_lt (hc.lt_brk q hq)
    · intro q hq r hr h
      rcases List.mem_cons.mp hq with rfl | hq <;> rcases List.mem_cons.mp hr with rfl | hr
      · rfl
      · rw [hself, hmem r hr, hno] at h
        exact absurd h.symm (hb r hr)
      · rw [hself, hmem q hq, hno] at h
        exact absurd h (hb q hq)
      · rw [hmem q hq, hmem r hr] at h
        exact hc.inj q hq r hr h
    · intro q hq
      rcases List.mem_cons.mp hq with rfl | hq
      · rw [hself, hlock, ha]
      · rw [hmem q hq]
        exact hc.lock q hq
    · intro q hq
      rcases List.mem_cons.mp hq with rfl | hq
      · rw [hself, hno]
        exact hbl
      · rw [hmem q hq]
        exact hc.ne_log q hq
    · intro q hq
      rcases List.mem_cons.mp hq with rfl | hq
      · rw [hself, ha]
        intro _ h
        cases h
      · rw [hmem q hq]
        exact hc.clean q hq
  refine ⟨hcoh, ⟨List.mem_cons_self, by rw [hself, hno], by rw [hself, ha]⟩, ?_, ?_⟩
  · ext1
    · funext c
      simp only [abs_view, Abs.acquire_view]
      by_cases hcb : c = b
      · subst hcb
        rw [hcoh.view_eq (p := s.brk) List.mem_cons_self (by rw [hself, hno]), hself, hdata,
          view_of_uncached hb]
      · cases hl : s.lookup c with
        | none =>
            have hnone := lookup_eq_none.mp hl
            rw [view_of_uncached hnone, view_of_uncached]
            · rfl
            · intro q hq
              rcases List.mem_cons.mp hq with rfl | hq
              · rw [hself, hno]
                exact Ne.symm hcb
              · rw [hmem q hq]
                exact hnone q hq
        | some q =>
            obtain ⟨hq, hqc⟩ := mem_of_lookup hl
            rw [hc.view_eq hq hqc, hcoh.view_eq (p := q) (List.mem_cons_of_mem _ hq)
              (by rw [hmem q hq, hqc]), hmem q hq]
    · funext c
      refine propext ?_
      by_cases hcb : c = b
      · subst hcb
        simp only [Abs.acquire_held, Function.update_self, iff_true]
        exact ⟨s.brk, List.mem_cons_self, by rw [hself, hno], by rw [hself, ha]⟩
      · rw [Abs.acquire_held, Function.update_of_ne hcb]
        constructor
        · rintro ⟨q, hq, hqc, hqa⟩
          rcases List.mem_cons.mp hq with rfl | hq
          · rw [hself, hno] at hqc
            exact absurd hqc.symm hcb
          · rw [hmem q hq] at hqc hqa
            exact ⟨q, hq, hqc, hqa⟩
        · rintro ⟨q, hq, hqc, hqa⟩
          exact ⟨q, List.mem_cons_of_mem _ hq, by rw [hmem q hq, hqc], by rw [hmem q hq, hqa]⟩
    · funext c
      refine propext ⟨?_, ?_⟩
      · rintro ⟨q, hq, hqc, hqp⟩
        rcases List.mem_cons.mp hq with rfl | hq
        · rw [hself, hpin] at hqp
          cases hqp
        · rw [hmem q hq] at hqc hqp
          exact ⟨q, hq, hqc, hqp⟩
      · rintro ⟨q, hq, hqc, hqp⟩
        exact ⟨q, List.mem_cons_of_mem _ hq, by rw [hmem q hq, hqc], by rw [hmem q hq, hqp]⟩
    · rfl
    · rfl
    · rfl
  · intro q c h
    exact ⟨List.mem_cons_of_mem _ h.mem, by rw [hmem q h.mem, h.no],
      by rw [hmem q h.mem, h.acquired]⟩

theorem waitLock_free (h : (s.mem p).lock = lockOf false) :
    s.waitLock p = some (s.set p { s.mem p with lock := lockOf true }) := by
  rw [waitLock, h]
  rfl

theorem waitLock_taken (h : (s.mem p).lock = lockOf true) : s.waitLock p = none := by
  rw [waitLock, h]
  rfl

/-- A number nobody holds can be acquired, whether it is cached or not and
whatever has to be evicted. -/
theorem cacheAcquire_of_not_held (hc : Coherent ls s) (hb : b ≠ ls) (hh : ¬ s.abs.held b) :
    ∃ p s', s.cacheAcquire b = some (p, s') ∧ Acquired ls s b p s' := by
  cases hl : s.lookup b with
  | some p =>
      obtain ⟨hp, hno⟩ := mem_of_lookup hl
      have ha : (s.mem p).acquired = false := by
        by_contra h
        exact hh ⟨p, hp, hno, by simpa using h⟩
      refine ⟨p, _, ?_, acquired_hit hc hp hno ha⟩
      have hlock : ((s.set p { s.mem p with acquired := true }).mem p).lock = lockOf false := by
        rw [set_mem_self, ← ha]
        exact hc.lock p hp
      simp only [cacheAcquire, acquireLocked, hl, waitLock_free hlock, Option.map_some, set_set,
        set_mem_self]
  | none =>
      have hnone := lookup_eq_none.mp hl
      cases hv : if s.getNumCachedBlocks ≥ evictionThreshold then s.victim else none with
      | some p =>
          have hvic : s.victim = some p := by
            by_cases ht : s.getNumCachedBlocks ≥ evictionThreshold
            · rwa [if_pos ht] at hv
            · rw [if_neg ht] at hv
              cases hv
          obtain ⟨hp, hpin, ha⟩ := mem_of_victim hvic
          refine ⟨p, _, ?_, acquired_evict hc hb hnone hp hpin ha⟩
          have hlock : ((s.set p { s.mem p with blockNo := b, acquired := true }).mem p).lock =
              lockOf false := by
            rw [set_mem_self, ← ha]
            exact hc.lock p hp
          simp only [cacheAcquire, acquireLocked, hl, hv, waitLock_free hlock, Option.map_some,
            deviceRead, set_set, set_mem_self, set_disk]
      | none =>
          refine ⟨s.brk, _, ?_, acquired_fresh hc hb hnone (freshBlock b (s.disk b)) rfl rfl rfl
            rfl rfl⟩
          simp only [cacheAcquire, acquireLocked, hl, hv]

/-- A call of `cache_acquire` on a held block does not return. -/
theorem cacheAcquire_of_held (hc : Coherent ls s) (hh : s.abs.held b) :
    s.cacheAcquire b = none := by
  obtain ⟨p, hp, hno, ha⟩ := hh
  have hlock : ((s.set p { s.mem p with acquired := true }).mem p).lock = lockOf true := by
    rw [set_mem_self, ← ha]
    exact hc.lock p hp
  simp only [cacheAcquire, acquireLocked, lookup_of_mem hc.inj hp hno, waitLock_taken hlock,
    Option.map_none]

/-- **What `cache_acquire` does when it returns.** -/
theorem cacheAcquire_spec (hc : Coherent ls s) (hb : b ≠ ls)
    (h : s.cacheAcquire b = some (p, s')) : ¬ s.abs.held b ∧ Acquired ls s b p s' := by
  have hh : ¬ s.abs.held b := by
    intro hh
    rw [cacheAcquire_of_held hc hh] at h
    cases h
  obtain ⟨q, t, hq, hspec⟩ := cacheAcquire_of_not_held hc hb hh
  rw [h] at hq
  cases hq
  exact ⟨hh, hspec⟩

/-! ## Releasing -/

/-- **What `cache_release` does**: a held block whose data is on disk, or that is
pinned, can be given back. -/
theorem cacheRelease_spec (hc : Coherent ls s) (ho : Owns s p b)
    (hclean : ¬ s.abs.pinned b → s.view b = s.disk b) :
    ∃ s', s.cacheRelease p = some s' ∧ Coherent ls s' ∧ s'.abs = s.abs.release b ∧
      ∀ q c, Owns s q c → c ≠ b → Owns s' q c := by
  set blk : Block := { s.mem p with acquired := false, lock := lockOf false } with hblk
  have hno : blk.blockNo = b := ho.no
  have hperm : (p :: (s.set p blk).head.erase p).Perm (s.set p blk).head :=
    (List.perm_cons_erase ho.mem).symm
  have hcl : blk.pinned = false → blk.acquired = false → blk.data = s.disk b := by
    intro hpin _
    have hnp : ¬ s.abs.pinned b := by
      rw [hc.pinned_eq ho.mem ho.no]
      simpa [hblk] using hpin
    exact (ho.data hc).trans (hclean hnp)
  have hset : Coherent ls (s.set p blk) := coherent_set hc ho.mem ho.no hno rfl hcl
  refine ⟨{ s.set p blk with head := p :: (s.set p blk).head.erase p }, ?_, ?_, ?_, ?_⟩
  · have hlock : (s.mem p).lock = lockOf true := by rw [hc.lock p ho.mem, ho.acquired]
    have hpost : ((s.releaseLocked p).mem p).lock.postSem = some (none, lockOf false) := by
      simp only [releaseLocked, set_mem_self, hlock]
      rfl
    rw [cacheRelease, postLock, hpost]
    simp only [releaseLocked, set, Option.map_some, Function.update_self, Function.update_idem,
      hblk]
  · exact coherent_head_perm hset hperm
  · rw [abs_head_perm hset hperm, abs_set hc ho.mem ho.no hno]
    have hv : s.view b = (s.mem p).data := hc.view_eq ho.mem ho.no
    ext1
    · simp [hblk, ← hv]
    · simp [hblk]
    · simp [hblk, ← hc.pinned_eq ho.mem ho.no]
    · rfl
    · rfl
    · rfl
  · intro q c h hcb
    have hqp : q ≠ p := by
      rintro rfl
      exact hcb (h.no.symm.trans ho.no)
    have : Owns (s.set p blk) q c := owns_set_of_ne h hqp
    exact ⟨hperm.mem_iff.mpr this.mem, this.no, this.acquired⟩

/-! ## What a holder does with its block -/

theorem view_devWrite (s : Bcache) (b c : ℕ) (d : Sector) :
    (s.devWrite b d).view c = match s.lookup c with
      | some q => (s.mem q).data
      | none => Function.update s.disk b d c := rfl

section Holder

variable (hc : Coherent ls s) (ho : Owns s p b)
include hc ho

/-- Rewriting a held block without touching its number, flag or lock. -/
private theorem set_held (blk : Block) (hno : blk.blockNo = b) (ha : blk.acquired = true)
    (hlock : blk.lock = (s.mem p).lock) :
    Coherent ls (s.set p blk) ∧ ∀ q c, Owns s q c → Owns (s.set p blk) q c := by
  constructor
  · refine coherent_set hc ho.mem ho.no hno ?_ ?_
    · rw [hlock, hc.lock p ho.mem, ho.acquired, ha]
    · intro _ h
      rw [ha] at h
      cases h
  · intro q c h
    by_cases hqp : q = p
    · subst hqp
      exact ⟨h.mem, by rw [set_mem_self, hno, ← h.no, ho.no], by rw [set_mem_self, ha]⟩
    · exact owns_set_of_ne h hqp

theorem setData_spec (d : Sector) : Coherent ls (s.setData p d) ∧
    (s.setData p d).abs = s.abs.store b d ∧ ∀ q c, Owns s q c → Owns (s.setData p d) q c := by
  have hset := set_held hc ho { s.mem p with data := d } ho.no ho.acquired rfl
  refine ⟨hset.1, ?_, hset.2⟩
  rw [setData, abs_set hc ho.mem ho.no (by exact ho.no)]
  ext1
  · simp
  · simp [ho.acquired, ho.held]
  · simp [← hc.pinned_eq ho.mem ho.no]
  · rfl
  · rfl
  · rfl

theorem setPinned_spec (v : Bool) : Coherent ls (s.setPinned p v) ∧
    (s.setPinned p v).abs = s.abs.pin b (v = true) ∧
    ∀ q c, Owns s q c → Owns (s.setPinned p v) q c := by
  have hset := set_held hc ho { s.mem p with pinned := v } ho.no ho.acquired rfl
  refine ⟨hset.1, ?_, hset.2⟩
  rw [setPinned, abs_set hc ho.mem ho.no (by exact ho.no)]
  ext1
  · simp [ho.data hc]
  · simp [ho.acquired, ho.held]
  · simp
  · rfl
  · rfl
  · rfl

/-- Writing a held block to the device. -/
theorem deviceWrite_spec : Coherent ls (s.deviceWrite p) ∧
    (s.deviceWrite p).abs = s.abs.flush b ∧ ∀ q c, Owns s q c → Owns (s.deviceWrite p) q c := by
  have hd : (s.mem p).data = s.view b := ho.data hc
  have hw : s.deviceWrite p = s.devWrite b (s.view b) := by rw [deviceWrite, hd, ho.no]
  rw [hw]
  refine ⟨?_, ?_, fun q c h => ⟨h.mem, h.no, h.acquired⟩⟩
  · refine ⟨hc.nodup, hc.lt_brk, hc.inj, hc.lock, hc.ne_log, ?_⟩
    intro q hq hpin ha
    have hqb : (s.mem q).blockNo ≠ b := fun h => hc.not_held hq h ha ho.held
    simp only [devWrite, Function.update_of_ne hqb]
    exact hc.clean q hq hpin ha
  · ext1
    · funext c
      rw [abs_view, view_devWrite, Abs.flush_view, abs_view]
      cases hl : s.lookup c with
      | some q => simp [view, hl]
      | none =>
          have hcb : c ≠ b := by
            rintro rfl
            exact lookup_eq_none.mp hl p ho.mem ho.no
          simp [view, hl, Function.update_of_ne hcb]
    · rfl
    · rfl
    · rfl
    · rfl
    · rfl

end Holder

/-! ## The log header's block -/

/-- The header's block is never cached, so writing it is seen at once. -/
theorem writeHeader_spec {sb : SuperBlock} (hc : Coherent sb.logStart s) :
    Coherent sb.logStart (s.writeHeader sb) ∧
    (s.writeHeader sb).abs = s.abs.devWrite sb.logStart s.log.header.encode ∧
    ∀ q c, Owns s q c → Owns (s.writeHeader sb) q c := by
  refine ⟨?_, ?_, fun q c h => ⟨h.mem, h.no, h.acquired⟩⟩
  · refine ⟨hc.nodup, hc.lt_brk, hc.inj, hc.lock, hc.ne_log, ?_⟩
    intro q hq hpin ha
    have hq' : (s.mem q).blockNo ≠ sb.logStart := hc.ne_log q hq
    simp only [writeHeader, devWrite, Function.update_of_ne hq']
    exact hc.clean q hq hpin ha
  · ext1
    · funext c
      rw [abs_view, writeHeader, view_devWrite, Abs.devWrite_view, abs_view]
      by_cases hcl : c = sb.logStart
      · subst hcl
        rw [lookup_eq_none.mpr hc.ne_log]
        simp
      · rw [Function.update_of_ne hcl, Function.update_of_ne hcl, view]
    · rfl
    · rfl
    · rfl
    · rfl
    · rfl

/-- A change of the log state touches no block. -/
theorem setLog_spec (hc : Coherent ls s) (l : Log) : Coherent ls { s with log := l } ∧
    ({ s with log := l } : Bcache).abs = s.abs.setLog l ∧
    ∀ q c, Owns s q c → Owns { s with log := l } q c :=
  ⟨⟨hc.nodup, hc.lt_brk, hc.inj, hc.lock, hc.ne_log, hc.clean⟩, rfl,
    fun _ _ h => ⟨h.mem, h.no, h.acquired⟩⟩

end Bcache

end OsLab
