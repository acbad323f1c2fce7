import OsLab.Kernel.PageMap
import OsLab.Fs.Swap

/-!
# Page faults and swapping

`swapout`, `swapin`, `alloc_page_for_user` and `pgfault` of `kernel/paging.c`, with
`write_page_to_disk` and `read_page_from_disk` of `kernel/mem.c`, by one CPU that is
not disturbed.  Memory and page tables are those of `PtSys`: every access goes through
`get_pte`, a pointer it has returned, `vmmap` or the page allocator.

A loop over the pages of a section runs from `begin` to `end` inclusive, as in the
source.  The processes that `get_offline_proc` will find are a field of the state, and
a call of `swapout` that would wait for a process to go offline, or a failed `ASSERT`,
is `none`.

## Main definitions

* `Section`, `Machine` — the state.
* `Machine.swapout`, `Machine.swapin`, `Machine.allocPageForUser`, `Machine.pgfault`.
* `Machine.page` — the page a process sees at an address.
-/

namespace OsLab

/-- `ST_FILE` -/
def stFile : ℕ := 1

/-- `ST_SWAP` -/
def stSwap : ℕ := 1 <<< 1

/-- `PTE_RO` -/
def pteRo : ℕ := 1 <<< 7

/-- `PTE_RW` -/
def pteRw : ℕ := 0 <<< 7

/-- `PTE_USER_DATA`: `PTE_USER`, `PTE_NORMAL` and `PTE_PAGE`. -/
def pteUserData : ℕ := 1 <<< 6 ||| (0x1 <<< 2 ||| 1 <<< 10 ||| 2 <<< 8) ||| 0x3

/-- `REVERSED_PAGES` -/
def reversedPages : ℕ := 1024

/-- `~PTE_VALID` -/
def notValid : ℕ := 2 ^ 64 - 1 - pteValid

/-- `struct section`, from `start` to `stop`. -/
structure Section where
  flags : ℕ
  start : ℕ
  stop : ℕ
  deriving DecidableEq, Repr

/-- The memory, the page directories and the swap area. -/
structure Machine where
  /-- the end of the kernel image -/
  image : ℕ
  pt : PtSys
  /-- the directory of `thisproc()` -/
  cur : ℕ
  /-- the sections of each directory -/
  sections : ℕ → List Section
  online : ℕ → Bool
  /-- the flags of the swap blocks -/
  swapValid : ℕ → Bool
  /-- the swap blocks, as the block cache shows them -/
  disk : ℕ → Bytes 512
  /-- the directories of the processes that `get_offline_proc` will find -/
  offline : List ℕ

namespace Machine

/-- A call of the page tables or of the allocator. -/
def call (s : Machine) (c : PtCall) : Option Machine :=
  (s.pt.step c).map fun pt => { s with pt := pt }

/-- The contents of the page at a kernel address. -/
def mem (s : Machine) (p : ℕ) : Bytes 4096 := s.pt.sys.m.mem p

/-- `*pte` -/
def entry (s : Machine) (slot : ℕ × ℕ) : ℕ := s.pt.sys.m.pte slot.1 slot.2

/-- `pte_p = get_pte(pd, va, FALSE)`, and `f` on the slot if `pte_p != NULL && *pte_p != 0`. -/
def onEntry (f : Machine → ℕ × ℕ → Option Machine) (s : Machine) (pd va : ℕ) : Option Machine := do
  let (slot, _) ← s.pt.lookup pd va
  let s ← s.call (.getPte pd va false)
  match slot with
  | none => some s
  | some slot => if s.entry slot = 0 then some s else f s slot

/-- A loop over the pages of a section, `end` included. -/
def forPages (f : Machine → ℕ → Option Machine) (st : Section) (s : Machine) : Option Machine :=
  iterM (fun k s => f s (st.start + k * pageSize))
    (if st.start ≤ st.stop then (st.stop - st.start) / pageSize + 1 else 0) s

/-- The section `j` of directory `pd` gets new flags. -/
def setFlags (s : Machine) (pd j flags : ℕ) : Machine :=
  { s with
    sections := Function.update s.sections pd
      ((s.sections pd).modify j fun st => { st with flags := flags }) }

/-- One round of `write_page_to_disk`: the memory at the start of the page that the *current*
process maps at `va` goes to block `bno`. -/
def writeBlock (bno va : ℕ) (s : Machine) : Option Machine :=
  s.onEntry (fun s slot => some { s with
    disk := Function.update s.disk bno
      (Bytes.ofFn fun i => (s.mem (p2k (pteAddress (s.entry slot)))).get i) }) s.cur va

def writePageToDisk (s : Machine) (ka : ℕ) : Option (ℕ × Machine) := do
  let (firstBno, valid) ← findAndSet8Blocks s.swapValid
  let s ← iterM (fun i => writeBlock (firstBno + i) (ka + i * 512)) 8 { s with swapValid := valid }
  some (firstBno, s)

def readPageFromDisk (s : Machine) (ka bno : ℕ) : Option Machine :=
  if ka &&& kspaceMask = 0 then none
  else iterM (fun i s => s.call (.page (.write ka ((s.mem ka).splice (i * 512)
    ((s.disk (bno + i)).slice 0 512))))) 8 s

/-- The first loop of `swapout`: the entry becomes invalid. -/
def hide (pd : ℕ) (s : Machine) (va : ℕ) : Option Machine :=
  s.onEntry (fun s slot => s.call (.write slot (s.entry slot &&& notValid))) pd va

/-- The second loop of `swapout`: the page goes to the disk. -/
def pageOut (pd : ℕ) (s : Machine) (p : ℕ) : Option Machine :=
  s.onEntry (fun s slot => do
    let (bno, s) ← s.writePageToDisk p
    let s ← s.call (.page (.kfreePage (p2k (pteAddress (s.entry slot)))))
    s.call (.write slot (bno <<< 12 &&& notValid))) pd p

/-- `swapout(pd, st)` for section `j` of directory `pd`. -/
def swapout (s : Machine) (pd j : ℕ) : Option Machine := do
  let st ← (s.sections pd)[j]?
  if pd ≠ s.cur ∧ s.online pd = true then none
  else if st.flags &&& stSwap ≠ 0 then none
  else do
    let s ← forPages (hide pd) st (s.setFlags pd j (st.flags ||| stSwap))
    if st.flags &&& stFile = 0 then forPages (pageOut pd) st s else some s

/-- The loop of `alloc_page_for_user`: other processes are swapped out as long as pages are short.
`fuel` bounds the rounds; the last section of a process is taken. -/
def reclaim : ℕ → Machine → Option Machine
  | 0, _ => none
  | fuel + 1, s =>
      if s.pt.sys.m.leftPageCnt s.image ≤ reversedPages then
        match s.offline with
        | [] => none
        | pd :: rest =>
            let s := { s with offline := rest }
            if (s.sections pd).length = 0 then reclaim fuel s
            else do
              let s ← s.swapout pd ((s.sections pd).length - 1)
              reclaim fuel s
      else some s

def allocPageForUser (s : Machine) : Option (ℕ × Machine) := do
  let s ← s.reclaim (s.offline.length + 1)
  let s ← s.call (.page .kallocPage)
  let page ← s.pt.sys.held.head?
  some (page, s)

/-- The first loop of `swapin`: the page comes back from the disk. -/
def pageIn (pd : ℕ) (s : Machine) (p : ℕ) : Option Machine :=
  s.onEntry (fun s slot => do
    let (page, s) ← s.allocPageForUser
    let s ← s.readPageFromDisk page (s.entry slot >>> 12)
    let s := { s with swapValid := release8Blocks s.swapValid (s.entry slot >>> 12) }
    s.call (.vmmap pd p page pteUserData)) pd p

/-- The second loop of `swapin`: the entry becomes valid. -/
def reveal (pd : ℕ) (s : Machine) (va : ℕ) : Option Machine :=
  s.onEntry (fun s slot => s.call (.write slot (s.entry slot ||| pteValid))) pd va

/-- `swapin(pd, st)` for section `j` of directory `pd`. -/
def swapin (s : Machine) (pd j : ℕ) : Option Machine := do
  let st ← (s.sections pd)[j]?
  if st.flags &&& stSwap = 0 then none
  else do
    let s ← forPages (pageIn pd) st s
    let s ← forPages (reveal pd) st s
    some (s.setFlags pd j (st.flags &&& (2 ^ 64 - 1 - stSwap)))

/-- A fresh page for the address of a fault. -/
def mapFresh (s : Machine) (addr : ℕ) : Option Machine := do
  let (page, s) ← s.allocPageForUser
  s.call (.vmmap s.cur addr page (pteUserData ||| pteRw))

/-- `pgfault` at `addr`, with its return value. -/
def pgfault (s : Machine) (addr : ℕ) : Option (ℤ × Machine) := do
  let j ← (s.sections s.cur).findIdx? fun st => st.start ≤ addr ∧ addr < st.stop
  let st ← (s.sections s.cur)[j]?
  let (slot, _) ← s.pt.lookup s.cur addr
  let s ← s.call (.getPte s.cur addr false)
  let pte := (slot.map s.entry).getD 0
  if pte = 0 then
    if st.flags &&& stSwap ≠ 0 then (s.swapin s.cur j).map ((0, ·))
    else (s.mapFresh addr).map ((0, ·))
  else if pte &&& pteRo ≠ 0 then do
    let s ← s.call (.page (.kfreePage (p2k (pteAddress pte))))
    (s.mapFresh addr).map ((0, ·))
  else if pte &&& pteValid = 0 then
    if st.flags &&& stSwap ≠ 0 then (s.swapin s.cur j).map ((0, ·))
    else (s.mapFresh addr).map ((0, ·))
  else some (-1, s)

/-- The page that directory `pd` shows at `va`, if its entry there is valid. -/
def page (s : Machine) (pd va : ℕ) : Option (Bytes 4096) := do
  let (slot, _) ← s.pt.lookup pd va
  let slot ← slot
  if s.entry slot &&& pteValid = 0 then none
  else some (s.mem (p2k (pteAddress (s.entry slot))))

end Machine

/-! ## Every function is a sequence of calls -/

/-- The calls of the page tables and of the allocator that swapping out makes: none of them takes
a page. -/
def PtCall.Frees : PtCall → Prop
  | .getPte _ _ alloc => alloc = false
  | .write _ _ => True
  | .page (.kfreePage _) => True
  | _ => False

/-- `s'` is `s` after some calls of the page tables and of the allocator by the same process, all
of them in `P`. -/
structure EvolvesBy (P : PtCall → Prop) (s s' : Machine) : Prop where
  cur : s'.cur = s.cur
  image : s'.image = s.image
  calls : ∃ cs, (∀ c ∈ cs, P c) ∧ runs PtSys.step s.pt cs = some s'.pt

namespace EvolvesBy

variable {P Q : PtCall → Prop} {s s' t u : Machine} {pd va : ℕ}

theorem of_eq (hpt : s'.pt = s.pt) (hcur : s'.cur = s.cur) (himage : s'.image = s.image) :
    EvolvesBy P s s' :=
  ⟨hcur, himage, [], by simp, by rw [hpt]; rfl⟩

theorem refl (s : Machine) : EvolvesBy P s s := of_eq rfl rfl rfl

theorem mono (h : EvolvesBy P s t) (hPQ : ∀ c, P c → Q c) : EvolvesBy Q s t := by
  obtain ⟨cs, hP, hcs⟩ := h.calls
  exact ⟨h.cur, h.image, cs, fun c hc => hPQ c (hP c hc), hcs⟩

theorem trans (h : EvolvesBy P s t) (h' : EvolvesBy P t u) : EvolvesBy P s u := by
  obtain ⟨cs, hP, hcs⟩ := h.calls
  obtain ⟨ds, hP', hds⟩ := h'.calls
  refine ⟨h'.cur.trans h.cur, h'.image.trans h.image, cs ++ ds, ?_, ?_⟩
  · intro c hc
    exact (List.mem_append.mp hc).elim (hP c) (hP' c)
  · rw [runs_append, hcs]
    exact hds

theorem call {c : PtCall} (h : s.call c = some s') (hc : P c) : EvolvesBy P s s' := by
  rw [Machine.call, Option.map_eq_some_iff] at h
  obtain ⟨pt, hpt, rfl⟩ := h
  exact ⟨rfl, rfl, [c], by simpa using hc, by rw [runs_cons, hpt]; rfl⟩

theorem onEntry {f : Machine → ℕ × ℕ → Option Machine}
    (hf : ∀ s slot s', f s slot = some s' → EvolvesBy PtCall.Frees s s')
    (h : s.onEntry f pd va = some s') : EvolvesBy PtCall.Frees s s' := by
  simp only [Machine.onEntry, Option.bind_eq_bind, Option.bind_eq_some_iff] at h
  obtain ⟨⟨slot, rest⟩, hl, t, ht, h⟩ := h
  have hget : EvolvesBy PtCall.Frees s t := call ht rfl
  apply hget.trans
  cases slot with
  | none =>
      cases h
      exact refl _
  | some slot =>
      simp only at h
      split_ifs at h
      · cases h
        exact refl _
      · exact hf _ _ _ h

theorem iterM {f : ℕ → Machine → Option Machine} {n : ℕ}
    (hf : ∀ i s s', f i s = some s' → EvolvesBy P s s') (h : OsLab.iterM f n s = some s') :
    EvolvesBy P s s' := by
  refine iterM_induction (fun _ t => EvolvesBy P s t) h (refl _) ?_
  intro i t t' _ ht hstep
  exact ht.trans (hf i t t' hstep)

theorem writePageToDisk {ka bno : ℕ} (h : s.writePageToDisk ka = some (bno, s')) :
    EvolvesBy PtCall.Frees s s' := by
  simp only [Machine.writePageToDisk, Option.bind_eq_bind, Option.bind_eq_some_iff] at h
  obtain ⟨r, -, t, ht, h⟩ := h
  cases h
  have hset : EvolvesBy PtCall.Frees s { s with swapValid := r.2 } := of_eq rfl rfl rfl
  apply hset.trans
  apply iterM _ ht
  intro i u u' hu
  apply onEntry _ hu
  intro v slot v' hv
  cases hv
  exact of_eq rfl rfl rfl

theorem hide (h : s.hide pd va = some s') : EvolvesBy PtCall.Frees s s' :=
  onEntry (fun _ slot _ (ht : Machine.call _ (.write slot _) = _) => call ht trivial) h

theorem pageOut (h : s.pageOut pd va = some s') : EvolvesBy PtCall.Frees s s' := by
  apply onEntry _ h
  intro t slot t' ht
  simp only [Option.bind_eq_bind, Option.bind_eq_some_iff] at ht
  obtain ⟨⟨bno, u⟩, hu, v, hv, ht⟩ := ht
  exact ((writePageToDisk hu).trans (call hv trivial)).trans (call ht trivial)

theorem swapout {j : ℕ} (h : s.swapout pd j = some s') : EvolvesBy PtCall.Frees s s' := by
  simp only [Machine.swapout, Option.bind_eq_bind, Option.bind_eq_some_iff] at h
  obtain ⟨st, -, h⟩ := h
  have hset : EvolvesBy PtCall.Frees s (s.setFlags pd j (st.flags ||| stSwap)) := of_eq rfl rfl rfl
  split_ifs at h
  all_goals
    rw [Option.bind_eq_some_iff] at h
    obtain ⟨t, ht, h⟩ := h
    have hhide := hset.trans (iterM (fun _ _ _ => hide) ht)
  · exact hhide.trans (iterM (fun _ _ _ => pageOut) h)
  · cases h
    exact hhide

theorem reclaim (fuel : ℕ) {s : Machine} (h : s.reclaim fuel = some s') :
    EvolvesBy PtCall.Frees s s' := by
  induction fuel generalizing s with
  | zero => cases h
  | succ fuel ih =>
      rw [Machine.reclaim] at h
      split_ifs at h
      · split at h
        · cases h
        · rename_i pd rest hoff
          have hrest : EvolvesBy PtCall.Frees s { s with offline := rest } := of_eq rfl rfl rfl
          apply hrest.trans
          simp only at h
          split_ifs at h
          · exact ih h
          · rw [Option.bind_eq_bind, Option.bind_eq_some_iff] at h
            obtain ⟨t, ht, h⟩ := h
            exact (swapout ht).trans (ih h)
      · cases h
        exact refl _

end EvolvesBy

/-! ## When swapping out ends -/

namespace Machine

variable {s s' : Machine}

theorem reclaim_self (h : reversedPages < s.pt.sys.m.leftPageCnt s.image) (fuel : ℕ) :
    s.reclaim (fuel + 1) = some s := by
  rw [reclaim, if_neg (not_le.mpr h)]

theorem reclaim_left {fuel : ℕ} (h : s.reclaim fuel = some s') :
    reversedPages < s'.pt.sys.m.leftPageCnt s'.image := by
  induction fuel generalizing s with
  | zero => cases h
  | succ fuel ih =>
      rw [reclaim] at h
      split_ifs at h with hleft
      · split at h
        · cases h
        · simp only at h
          split_ifs at h
          · exact ih h
          · rw [Option.bind_eq_bind, Option.bind_eq_some_iff] at h
            obtain ⟨t, -, h⟩ := h
            exact ih h
      · cases h
        exact not_le.mp hleft

end Machine

end OsLab
