import OsLab.Kernel.PageView
import OsLab.Fs.SwapRuns

/-!
# One page out, one page in

What one round of each loop of `swapout` and `swapin` shows.  `write_page_to_disk` puts
the same 512 bytes into all the eight blocks of its run, as every round finds the same
page and copies from its start.

## Main definitions

* `firstBlock`, `joined` — the first block of a page, and a page made of eight blocks.
* `View.writeOut` — what `write_page_to_disk` shows.
* `Machine.hide_goes`, `Machine.pageOut_goes`, `Machine.pageIn_goes`, `Machine.reveal_goes`.
-/

namespace OsLab

/-- The first 512 bytes of a page. -/
def firstBlock (c : Bytes 4096) : Bytes 512 := Bytes.ofFn fun i => c.get i

/-- The page whose blocks are those from `bno` on. -/
def joined (disk : ℕ → Bytes 512) (bno : ℕ) : Bytes 4096 :=
  Bytes.ofFn fun i => (disk (bno + i / 512)).get (i % 512)

/-- The page that an entry leads to. -/
def entryPage (e : ℕ) : ℕ := p2k (pteAddress e)

namespace View

/-- Block `b` of the run from `bno` on after `write_page_to_disk` for page number `x`. -/
def outBlock (v : View) (x b : ℕ) : Bytes 512 :=
  if v.entry v.cur x = 0 then v.disk b else firstBlock (v.mem (entryPage (v.entry v.cur x)))

/-- The first `k` blocks from `bno` on are written for page number `x`. -/
def writeOut (v : View) (x bno k : ℕ) : View :=
  { v with disk := fun b => if bno ≤ b ∧ b < bno + k then v.outBlock x b else v.disk b }

@[simp] theorem store_self (v : View) (pd x : ℕ) : v.store pd x (v.entry pd x) = v := by
  refine View.ext rfl rfl rfl ?_ rfl rfl rfl rfl rfl rfl rfl
  funext pd' x'
  simp only [store]
  split_ifs with h
  · rw [h.1, h.2]
  · rfl

end View

/-- The blocks of a page all lie in that page. -/
theorem vpn_block {ka i : ℕ} (ha : ka % pageSize = 0) (hi : i < 8) :
    vpn (ka + i * 512) = vpn ka := by
  simp only [vpn, pageSize] at *
  omega

theorem and_notValid_lt (e : ℕ) : e &&& notValid < 2 ^ 64 := by
  have hlt : notValid < 2 ^ 64 := by decide
  exact lt_of_le_of_lt Nat.and_le_right hlt

theorem GoodPage.and_kspaceMask {p : ℕ} (h : GoodPage p) : ¬ p &&& kspaceMask = 0 := by
  intro h0
  have hbit : (p &&& kspaceMask).testBit 63 = true := by
    obtain ⟨n, hn, rfl⟩ := h
    rw [Nat.testBit_and, Nat.testBit_eq_decide_div_mod_eq]
    have hone : (kspaceMask + 4096 * n) / 2 ^ 63 % 2 = 1 := by
      simp only [kspaceMask]
      omega
    rw [hone]
    decide
  rw [h0] at hbit
  simp at hbit

namespace Machine

variable {all : List ℕ} {T : TableMap} {s : Machine} {pd va ka x p e bno : ℕ}

/-! ## Pages and blocks -/

/-- One block is written. -/
theorem writeBlock_goes (h : PtOk all T s.pt) (va : ℕ)
    (hleaf : (s.view T).entry s.cur (vpn va) ≠ 0 →
      ¬ IsLeaf T (entryPage ((s.view T).entry s.cur (vpn va)))) (b : ℕ) :
    ∃ s', writeBlock b va s = some s' ∧ Goes all T s s' { s.view T with
      disk := Function.update (s.view T).disk b ((s.view T).outBlock (vpn va) b) } := by
  by_cases h0 : (s.view T).entry s.cur (vpn va) = 0
  · obtain ⟨s', hs', hg⟩ := onEntry_zero h h0
    refine ⟨s', hs' _, hg.ok, hg.ptrs, hg.view.trans ?_⟩
    have hout : (s.view T).outBlock (vpn va) b = (s.view T).disk b := if_pos h0
    rw [hout, Function.update_eq_self]
  · obtain ⟨t, u, -, hu, hg, hptr⟩ := onEntry_ne h h0
    refine ⟨_, hu _, hg.ok, hg.ptrs, ?_⟩
    have hentry := entry_eq hg.ok hptr
    rw [hg.view] at hentry
    have hmem : u.mem (entryPage ((s.view T).entry s.cur (vpn va))) =
        (s.view T).mem (entryPage ((s.view T).entry s.cur (vpn va))) := by
      rw [← view_mem (hleaf h0), hg.view]
    have hout : (s.view T).outBlock (vpn va) b =
        firstBlock (u.mem (entryPage ((s.view T).entry s.cur (vpn va)))) := by
      rw [hmem]
      exact if_neg h0
    rw [hentry, hout, ← hg.view]
    rfl

/-- **`write_page_to_disk`** writes the same block eight times. -/
theorem writePageToDisk_goes (h : PtOk all T s.pt) (ha : ka % pageSize = 0)
    (hleaf : (s.view T).entry s.cur (vpn ka) ≠ 0 →
      ¬ IsLeaf T (entryPage ((s.view T).entry s.cur (vpn ka))))
    {valid : ℕ → Bool} (hf : findAndSet8Blocks s.swapValid = some (bno, valid)) :
    ∃ s', s.writePageToDisk ka = some (bno, s') ∧
      Goes all T s s' { (s.view T).writeOut (vpn ka) bno 8 with swapValid := valid } := by
  set w : Machine := { s with swapValid := valid }
  have hrun : ∃ s', iterM (fun i => writeBlock (bno + i) (ka + i * 512)) 8 w = some s' ∧
      Goes all T w s' ((w.view T).writeOut (vpn ka) bno 8) := by
    refine iterM_progress 8 (fun i t => Goes all T w t ((w.view T).writeOut (vpn ka) bno i)) ?_ ?_
    · refine ⟨h, List.Subset.refl _, View.ext rfl rfl rfl rfl rfl rfl rfl rfl rfl rfl ?_⟩
      funext b
      exact (if_neg (by omega)).symm
    intro i t hi hP
    have hcur : t.cur = s.cur := congrArg View.cur hP.view
    have hentry : (t.view T).entry t.cur (vpn ka) = (s.view T).entry s.cur (vpn ka) := by
      rw [hcur, hP.view]
      rfl
    have hvpn := vpn_block ha hi
    obtain ⟨t', ht', hg⟩ := writeBlock_goes hP.ok (ka + i * 512)
      (by rw [hvpn, hentry]; exact hleaf) (bno + i)
    refine ⟨t', ht', hP.trans ⟨hg.ok, hg.ptrs, hg.view.trans ?_⟩⟩
    rw [hvpn, hP.view]
    refine View.ext rfl rfl rfl rfl rfl rfl rfl rfl rfl rfl ?_
    funext b
    simp only [Function.update_apply, View.writeOut]
    by_cases hb : b = bno + i
    · subst hb
      rw [if_pos rfl, if_pos (by omega)]
      -- the block that is written is not one of those before
      have hnot : ¬ (bno ≤ bno + i ∧ bno + i < bno + i) := by omega
      simp only [View.outBlock, if_neg hnot]
    · rw [if_neg hb]
      congr 1
      rw [eq_iff_iff]
      omega
  obtain ⟨s', hs', hg⟩ := hrun
  refine ⟨s', ?_, hg.ok, hg.ptrs, hg.view⟩
  rw [writePageToDisk, hf]
  simp only [Option.bind_eq_bind, Option.bind_some]
  rw [hs']
  rfl

/-- **`read_page_from_disk`** makes a page of eight blocks. -/
theorem readPageFromDisk_goes (h : PtOk all T s.pt) (hp : p ∈ (s.view T).held) (bno : ℕ) :
    ∃ s', s.readPageFromDisk p bno = some s' ∧
      Goes all T s s' ((s.view T).fill p (joined s.disk bno)) := by
  have hgood : GoodPage p := h.good p (h.acct.held p hp).1
  have hrun : ∃ s', iterM (fun i t => t.call (.page (.write p
      ((t.mem p).splice (i * 512) ((t.disk (bno + i)).slice 0 512))))) 8 s = some s' ∧
      ∃ c, Goes all T s s' ((s.view T).fill p c) ∧
        ∀ j, j < 8 * 512 → c.get j = (joined s.disk bno).get j := by
    refine iterM_progress 8 (fun i t => ∃ c, Goes all T s t ((s.view T).fill p c) ∧
      ∀ j, j < i * 512 → c.get j = (joined s.disk bno).get j) ?_ ?_
    · refine ⟨(s.view T).mem p, ?_, fun j hj => by omega⟩
      have hself : (s.view T).fill p ((s.view T).mem p) = s.view T := by
        simp only [View.fill, Function.update_eq_self]
      rw [hself]
      exact Goes.refl h
    intro i t hi hP
    obtain ⟨c, hg, hc⟩ := hP
    have hheld : p ∈ (t.view T).held := by
      rw [hg.view]
      exact hp
    have hdisk : t.disk = s.disk := congrArg View.disk hg.view
    have hmem : t.mem p = c := by
      rw [← view_mem (hg.ok.not_isLeaf hheld), hg.view]
      exact Function.update_self _ _ _
    obtain ⟨t', ht', hg'⟩ := call_fill hg.ok hheld
      ((t.mem p).splice (i * 512) ((t.disk (bno + i)).slice 0 512))
    refine ⟨t', ht', (t.mem p).splice (i * 512) ((t.disk (bno + i)).slice 0 512),
      hg.trans ⟨hg'.ok, hg'.ptrs, hg'.view.trans ?_⟩, ?_⟩
    · rw [hg.view]
      simp only [View.fill, Function.update_idem]
    · intro j hj
      rw [hmem, hdisk]
      by_cases hlt : j < i * 512
      · rw [Bytes.get_splice_of_notMem _ (Or.inl hlt)]
        exact hc j hlt
      · rw [Bytes.get_splice_of_mem _ (by omega) (by rw [Bytes.length_slice]; omega) (by omega),
          Bytes.getD_slice _ _ (by omega), joined, Bytes.get_ofFn _ (by omega)]
        congr 2 <;> omega
  obtain ⟨s', hs', c, hg, hc⟩ := hrun
  refine ⟨s', ?_, hg.ok, hg.ptrs, hg.view.trans ?_⟩
  · rw [readPageFromDisk, if_neg hgood.and_kspaceMask]
    exact hs'
  · have heq : c = joined s.disk bno := Bytes.ext_get fun j hj => hc j (by omega)
    rw [heq]

/-- With enough pages `alloc_page_for_user` takes the first one of the queue. -/
theorem allocPageForUser_goes (h : PtOk all T s.pt) {ps : List ℕ}
    (hleft : reversedPages < s.pt.sys.m.leftPageCnt s.image) (hp : (s.view T).free = p :: ps) :
    ∃ s', s.allocPageForUser = some (p, s') ∧ Goes all T s s' ((s.view T).take p ps) := by
  obtain ⟨s', hs', hg, hhead⟩ := call_kalloc h hp
  refine ⟨s', ?_, hg⟩
  have hreclaim : s.reclaim (s.offline.length + 1) = some s := by
    rw [reclaim, if_neg (by omega)]
  simp only [allocPageForUser, hreclaim, hs', Option.bind_eq_bind, Option.bind_some, hhead]

theorem view_setSwapValid (s : Machine) (valid : ℕ → Bool) :
    ({ s with swapValid := valid } : Machine).view T = { s.view T with swapValid := valid } := rfl

/-! ## The rounds of the loops -/

/-- A round of the first loop of `swapout`. -/
theorem hide_goes (h : PtOk all T s.pt) (pd va : ℕ) : ∃ s', s.hide pd va = some s' ∧
    Goes all T s s'
      ((s.view T).store pd (vpn va) ((s.view T).entry pd (vpn va) &&& notValid)) := by
  by_cases h0 : (s.view T).entry pd (vpn va) = 0
  · have hsame : (s.view T).store pd (vpn va) ((s.view T).entry pd (vpn va) &&& notValid) =
        s.view T := by
      conv_rhs => rw [← View.store_self (s.view T) pd (vpn va)]
      rw [h0, Nat.zero_and]
    rw [hsame]
    obtain ⟨s', hs', hg⟩ := onEntry_zero h h0
    exact ⟨s', hs' _, hg⟩
  · obtain ⟨t, u, -, hu, hg, hptr⟩ := onEntry_ne h h0
    obtain ⟨s', hs', hg'⟩ := call_write hg.ok hptr (u.entry (t, vaPart3 va) &&& notValid)
    refine ⟨s', (hu _).trans hs', hg.trans ⟨hg'.ok, hg'.ptrs, hg'.view.trans ?_⟩⟩
    rw [Nat.mod_eq_of_lt (and_notValid_lt _), entry_eq hg.ok hptr, hg.view]

/-- A round of the second loop of `swapin`. -/
theorem reveal_goes (h : PtOk all T s.pt) (pd va : ℕ)
    (hv : (s.view T).entry pd (vpn va) ≠ 0 →
      ((s.view T).entry pd (vpn va) ||| pteValid) % 2 ^ 64 = (s.view T).entry pd (vpn va)) :
    ∃ s', s.reveal pd va = some s' ∧ Goes all T s s' (s.view T) := by
  by_cases h0 : (s.view T).entry pd (vpn va) = 0
  · obtain ⟨s', hs', hg⟩ := onEntry_zero h h0
    exact ⟨s', hs' _, hg⟩
  · obtain ⟨t, u, -, hu, hg, hptr⟩ := onEntry_ne h h0
    obtain ⟨s', hs', hg'⟩ := call_write hg.ok hptr (u.entry (t, vaPart3 va) ||| pteValid)
    refine ⟨s', (hu _).trans hs', hg.trans ⟨hg'.ok, hg'.ptrs, hg'.view.trans ?_⟩⟩
    rw [entry_eq hg.ok hptr, hg.view, hv h0, View.store_self]

/-- **A round of the second loop of `swapout`** for a page that is somebody's. -/
theorem pageOut_goes (h : PtOk all T s.pt) (pd va : ℕ) (ha : va % pageSize = 0)
    (h0 : (s.view T).entry pd (vpn va) ≠ 0)
    (hheld : entryPage ((s.view T).entry pd (vpn va)) ∈ (s.view T).held)
    (hz : (s.view T).zeroPage ≠ some (entryPage ((s.view T).entry pd (vpn va))))
    (hleaf : (s.view T).entry s.cur (vpn va) ≠ 0 →
      ¬ IsLeaf T (entryPage ((s.view T).entry s.cur (vpn va))))
    {valid : ℕ → Bool} (hf : findAndSet8Blocks s.swapValid = some (bno, valid)) :
    ∃ s', s.pageOut pd va = some s' ∧ Goes all T s s'
      (({ (s.view T).writeOut (vpn va) bno 8 with swapValid := valid }.giveBack
        (entryPage ((s.view T).entry pd (vpn va)))).store pd (vpn va) (bno <<< 12 &&& notValid)) := by
  obtain ⟨t, u, -, hu, hg, hptr⟩ := onEntry_ne h h0
  have hcur : u.cur = s.cur := congrArg View.cur hg.view
  have hfu : findAndSet8Blocks u.swapValid = some (bno, valid) := by
    rw [show u.swapValid = s.swapValid from congrArg View.swapValid hg.view, hf]
  obtain ⟨w, hw, hgw⟩ := writePageToDisk_goes hg.ok ha (by rwa [hcur, hg.view]) hfu
  rw [hg.view] at hgw
  have hptrw := hgw.ptrs hptr
  have hentry : w.entry (t, vaPart3 va) = (s.view T).entry pd (vpn va) := by
    rw [entry_eq hgw.ok hptrw, hgw.view]
    rfl
  obtain ⟨y, hy, hgy⟩ := call_kfreePage (p := p2k (pteAddress (w.entry (t, vaPart3 va)))) hgw.ok
    (by rw [hgw.view, hentry]; exact hheld) (by rw [hgw.view, hentry]; exact hz)
  obtain ⟨s', hs', hgs⟩ := call_write hgy.ok (hgy.ptrs hptrw) (bno <<< 12 &&& notValid)
  refine ⟨s', ?_, ((hg.trans hgw).trans hgy).trans ⟨hgs.ok, hgs.ptrs, hgs.view.trans ?_⟩⟩
  · rw [pageOut, hu]
    simp only [Option.bind_eq_bind, hw, Option.bind_some, hy, hs']
  · rw [Nat.mod_eq_of_lt (and_notValid_lt _), hgy.view, hgw.view, hentry]
    rfl

/-- **A round of the first loop of `swapin`** for a page that is on the disk. -/
theorem pageIn_goes (h : PtOk all T s.pt) (pd va : ℕ)
    (h0 : (s.view T).entry pd (vpn va) ≠ 0) {ps : List ℕ}
    (hleft : reversedPages < s.pt.sys.m.leftPageCnt s.image) (hp : (s.view T).free = p :: ps) :
    ∃ s', s.pageIn pd va = some s' ∧ Goes all T s s'
      ({ ((s.view T).take p ps).fill p
          (joined s.disk ((s.view T).entry pd (vpn va) >>> 12)) with
        swapValid := release8Blocks s.swapValid ((s.view T).entry pd (vpn va) >>> 12) }.store pd
          (vpn va) ((k2p p ||| pteUserData ||| pteValid) % 2 ^ 64)) := by
  obtain ⟨t, u, ht, hu, hg, hptr⟩ := onEntry_ne h h0
  have hleft' : reversedPages < u.pt.sys.m.leftPageCnt u.image := by
    have hcnt : u.pt.sys.m.allocPageCnt = s.pt.sys.m.allocPageCnt :=
      congrArg View.allocPageCnt hg.view
    have himage : u.image = s.image := congrArg View.image hg.view
    rw [PageMem.leftPageCnt, hcnt, himage]
    exact hleft
  obtain ⟨a, ha, hga⟩ := allocPageForUser_goes hg.ok hleft' (by rw [hg.view]; exact hp)
  have hptra := hga.ptrs hptr
  have hentrya : a.entry (t, vaPart3 va) = (s.view T).entry pd (vpn va) := by
    rw [entry_eq hga.ok hptra, hga.view, hg.view]
    rfl
  obtain ⟨b, hb, hgb⟩ := readPageFromDisk_goes hga.ok (p := p)
    (by rw [hga.view]; exact List.mem_cons_self) (a.entry (t, vaPart3 va) >>> 12)
  have hentryb : b.entry (t, vaPart3 va) = (s.view T).entry pd (vpn va) := by
    rw [entry_eq hgb.ok (hgb.ptrs hptra), hgb.view, hga.view, hg.view]
    rfl
  set c : Machine := { b with
    swapValid := release8Blocks b.swapValid (b.entry (t, vaPart3 va) >>> 12) } with hc
  have hok : PtOk all T c.pt := hgb.ok
  obtain ⟨s', hs', hgs⟩ := call_vmmap hok ht p pteUserData
  refine ⟨s', ?_, ((hg.trans hga).trans hgb).trans ⟨hgs.ok, hgs.ptrs, hgs.view.trans ?_⟩⟩
  · rw [pageIn, hu]
    simp only [Option.bind_eq_bind, ha, Option.bind_some, hb]
    exact hs'
  · have hview := view_setSwapValid (T := T) b
      (release8Blocks b.swapValid (b.entry (t, vaPart3 va) >>> 12))
    have hvalid : b.swapValid = s.swapValid := by
      have := congrArg View.swapValid hgb.view
      rw [hga.view, hg.view] at this
      exact this
    have hdisk : a.disk = s.disk := by
      have := congrArg View.disk hga.view
      rw [hg.view] at this
      exact this
    rw [hview, hgb.view, hga.view, hg.view, hvalid, hentryb, hentrya, hdisk]

end Machine

end OsLab
