import OsLab.Fs.ClientProg
import OsLab.Fs.CrashSafety
import OsLab.Lib.Trace

/-!
# The file system over the block cache

The inode tree of `fs/inode.c` on the block cache of `fs/cache.c`: every call of the tree is a
program whose calls the cache answers, with its list of blocks, its evictions, its pins and its
log.  Operations may overlap, and each call of the tree runs in one of them.

What callers see is the inode tree over a plain disk (`files_refine`): between two calls each
block that clients may use reads as the plain disk has it, wherever the cache keeps it.

## Main definitions

* `World.answer` — the cache answers the calls of a program.
* `FsState`, `FsState.answer` — the file system.
* `InodeTree.answer` — the tree over a plain disk, with the results of its calls.
* `FsRun`, `TreeRun` — their runs.
-/

namespace OsLab

/-! ## The system -/

/-- The call of a program in the operation `c`. -/
def CacheCall.toCall (c : ℕ) : CacheCall → Call
  | .acquire b => .acquire b
  | .store b d => .modify b d
  | .sync ctx b => .sync (if ctx then some c else none) b
  | .release b => .release b

/-- What a caller reads through the pointer to a block that it holds. -/
def World.data (w : World) (b : ℕ) : Sector :=
  match w.env b with
  | some p => (w.cache.mem p).data
  | none => Bytes.zero

/-- What a call has returned. -/
def World.reply (w : World) : (call : CacheCall) → call.Res
  | .acquire b => w.data b
  | .store _ _ => ()
  | .sync _ _ => ()
  | .release _ => ()

/-- The block cache answers a call of a program in the operation `c`. -/
def World.answer (sb : SuperBlock) (c : ℕ) (w : World) (call : CacheCall) :
    Option (call.Res × World) :=
  (w.step sb (call.toCall c)).map fun w => (w.reply call, w)

/-- The file system: the block cache and the in-memory inodes. -/
structure FsState where
  world : World
  inodes : Inodes

/-- A call of the file system. -/
inductive FsCall
  | beginOp (c : ℕ)
  | endOp (c : ℕ)
  | call (c : ℕ) (call : InodeCall)

namespace FsState

/-- After `init_bcache`, with the empty list of `init_inodes`; the `inodes.get(ROOT_INODE_NO)` that
`init_inodes` makes is a call of the run. -/
def start (s : Bcache) : FsState := ⟨World.start s, ⟨[], 0⟩⟩

/-- One call, with its result. -/
def answer (sb : SuperBlock) (s : FsState) : FsCall → Option (InodeRes × FsState)
  | .beginOp c => (s.world.step sb (.beginOp c)).map fun w => (.done, { s with world := w })
  | .endOp c => (s.world.step sb (.endOp c)).map fun w => (.done, { s with world := w })
  | .call c call =>
      ((CacheProg.inodeCall sb true s.inodes call).exec (World.answer sb c) s.world).map fun r =>
        (r.1.1, ⟨r.2, r.1.2⟩)

/-- The tree over the contents of the blocks. -/
def tree (s : FsState) : InodeTree := s.inodes.tree s.world.cache.view

end FsState

namespace InodeTree

/-- One call of the tree over a plain disk, with its result. -/
def answer (sb : SuperBlock) (t : InodeTree) : FsCall → Option (InodeRes × InodeTree)
  | .beginOp _ => some (.done, t)
  | .endOp _ => some (.done, t)
  | .call _ call => do
      let r ← t.result (bcacheAlloc sb) sb call
      let t ← t.step (bcacheAlloc sb) sb call
      some (r, t)

/-- What callers promise. -/
def Promised (sb : SuperBlock) (t : InodeTree) : FsCall → Prop
  | .call _ call => Legal sb t call
  | _ => True

end InodeTree

/-- A run of the file system from `init_bcache` on the device `d`. -/
def FsRun (sb : SuperBlock) (d : Disk) (l : List (FsCall × InodeRes)) (s : FsState) : Prop :=
  ∃ s₀, Bcache.initBcache sb d = some s₀ ∧
    Trace (FsState.answer sb) (fun s => InodeTree.Promised sb s.tree) (FsState.start s₀) l s

/-- A run of the inode tree over the plain disk `m`. -/
def TreeRun (sb : SuperBlock) (m : Disk) (l : List (FsCall × InodeRes)) (t : InodeTree) : Prop :=
  Trace (InodeTree.answer sb) (InodeTree.Promised sb) (InodeTree.init m) l t

/-! ## A call of the cache -/

/-- What a program relies on, beside the cache in the middle of a call. -/
structure Tracks (sb : SuperBlock) (w : World) (pm : PlainMap) (g : Hand) : Prop where
  disk : ∀ b, sb.Client b → g.disk b = (pm.buf b).getD (pm.content b)
  synced : ∀ b, sb.Client b → b ∉ g.unsynced → g.disk b = pm.content b
  held : ∀ b, b ∈ g.held ↔ w.env b ≠ none
  nodup : g.held.Nodup

namespace Tracks

variable {sb : SuperBlock} {w w' : World} {pm : PlainMap} {g : Hand} {b c p : ℕ}

/-- The buffer of a block that is held. -/
theorem buf (h : Tracks sb w pm g) (hsim : Sim sb w pm) (hp : w.env b = some p) :
    sb.Client b ∧ pm.buf b = some (g.disk b) := by
  have hcl := hsim.env_client b p hp
  refine ⟨hcl, ?_⟩
  rw [h.disk b hcl, hsim.buf_of_env hp]
  rfl

theorem acquire (h : Tracks sb w pm g) (hsim : Sim sb w pm) (h0 : 0 < sb.numLogBlocks)
    (hb : sb.Client b) (hs : w.step sb (.acquire b) = some w') :
    CacheCall.alone (g.held, g.disk) (.acquire b) = some (w'.data b, b :: g.held, g.disk) ∧
      Tracks sb w' (pm.step (.acquire b)) ⟨b :: g.held, g.disk, g.unsynced⟩ := by
  simp only [World.step, Option.bind_eq_bind, Option.bind_eq_some_iff] at hs
  obtain ⟨⟨p, s'⟩, hacq, hs⟩ := hs
  cases hs
  obtain ⟨hnot, A⟩ := Bcache.cacheAcquire_spec hsim.coherent (Sim.client_ne hb h0) hacq
  have hfree : w.env b = none := by
    by_contra he
    obtain ⟨q, hq⟩ := Option.ne_none_iff_exists'.mp he
    exact hnot (hsim.held_iff.mpr ⟨q, hq⟩)
  have hmem : b ∉ g.held := fun hmem => (h.held b).mp hmem hfree
  have hcontent : g.disk b = pm.content b := by
    rw [h.disk b hb, hsim.buf b, hfree]
    rfl
  have hdata : (s'.mem p).data = g.disk b := by
    have hview : s'.view = w.cache.view := congrArg Abs.view A.abs_eq
    rw [A.owns.data A.coherent, hview, hsim.view_eq hb hfree, hcontent]
  refine ⟨?_, ⟨?_, h.synced, ?_, List.nodup_cons.mpr ⟨hmem, h.nodup⟩⟩⟩
  · simp only [CacheCall.alone, if_neg hmem, World.data, Function.update_self, hdata]
  · intro x hx
    by_cases hxb : x = b
    · subst hxb
      simp [PlainMap.step, hcontent]
    · simp [PlainMap.step, hxb, h.disk x hx]
  · intro x
    by_cases hxb : x = b
    · simp [hxb]
    · simp [hxb, h.held x]

theorem store (h : Tracks sb w pm g) {d : Sector} (hs : w.step sb (.modify b d) = some w') :
    Tracks sb w' (pm.step (.modify b d))
      ⟨g.held, Function.update g.disk b d, insert b g.unsynced⟩ := by
  simp only [World.step, Option.bind_eq_bind, Option.bind_eq_some_iff] at hs
  obtain ⟨p, -, hs⟩ := hs
  cases hs
  refine ⟨?_, ?_, h.held, h.nodup⟩
  · intro x hx
    by_cases hxb : x = b
    · simp [PlainMap.step, hxb]
    · simp [PlainMap.step, hxb, h.disk x hx]
  · intro x hx hmem
    obtain ⟨hxb, hmem⟩ := not_or.mp hmem
    exact (Function.update_of_ne hxb ..).trans (h.synced x hx hmem)

theorem sync (h : Tracks sb w pm g) (hs : w.step sb (.sync (some c) b) = some w') :
    Tracks sb w' (pm.step (.sync (some c) b)) ⟨g.held, g.disk, g.unsynced \ {b}⟩ := by
  simp only [World.step, Option.bind_eq_bind, Option.bind_eq_some_iff] at hs
  obtain ⟨p, -, rm, -, ⟨rm', s'⟩, -, hs⟩ := hs
  cases hs
  refine ⟨?_, ?_, h.held, h.nodup⟩
  · intro x hx
    by_cases hxb : x = b
    · subst hxb
      simp only [PlainMap.step, Function.update_self, h.disk x hx]
      cases pm.buf x <;> rfl
    · simp [PlainMap.step, hxb, h.disk x hx]
  · intro x hx hmem
    by_cases hxb : x = b
    · subst hxb
      simp [PlainMap.step, h.disk x hx]
    · simp only [PlainMap.step, Function.update_of_ne hxb]
      exact h.synced x hx fun hin => hmem ⟨hin, hxb⟩

theorem release (h : Tracks sb w pm g) (hsim : Sim sb w pm) (hb : b ∉ g.unsynced)
    (hs : w.step sb (.release b) = some w') : pm.buf b = some (pm.content b) ∧
      Tracks sb w' (pm.step (.release b)) ⟨g.held.erase b, g.disk, g.unsynced⟩ := by
  simp only [World.step, Option.bind_eq_bind, Option.bind_eq_some_iff] at hs
  obtain ⟨p, hp, s', -, hs⟩ := hs
  cases hs
  obtain ⟨hcl, hbuf⟩ := h.buf hsim hp
  rw [h.synced b hcl hb] at hbuf
  refine ⟨hbuf, ⟨?_, h.synced, ?_, h.nodup.erase b⟩⟩
  · intro x hx
    by_cases hxb : x = b
    · subst hxb
      simp [PlainMap.step, h.synced x hx hb]
    · simp [PlainMap.step, hxb, h.disk x hx]
  · intro x
    rw [h.nodup.mem_erase_iff, h.held x]
    by_cases hxb : x = b
    · simp [hxb]
    · simp [hxb]

end Tracks

/-- The cache in the middle of a call, in a run that has written `ws`. -/
structure Serving (sb : SuperBlock) (d c : Disk) (hist : List Disk) (ws : List (ℕ × Sector))
    (w : World) (g : Hand) : Prop where
  tracks : ∃ pm, Logged sb d c w pm hist ∧ Tracks sb w pm g
  writes : w.cache.writes = ws

/-- **The block cache keeps to its side of the contract.** -/
theorem Serving.answer {sb : SuperBlock} {d m : Disk} {hist : List Disk} {ws : List (ℕ × Sector)}
    {w w' : World} {g : Hand} {c : ℕ} {call : CacheCall} {r : call.Res}
    (hsb : logMaxSize < sb.numLogBlocks) (hr : RecoversTo sb d m)
    (h : Serving sb d m hist ws w g) (hpre : (clientContract sb).pre g call)
    (hs : w.answer sb c call = some (r, w')) :
    ∃ g', (clientContract sb).post g call r g' ∧ Serving sb d m hist ws w' g' := by
  obtain ⟨⟨pm, hlog, htracks⟩, hws⟩ := h
  have h0 : 0 < sb.numLogBlocks := by omega
  have hsim := (hlog.inv hsb hr).sim
  simp only [World.answer, Option.map_eq_some_iff, Prod.mk.injEq] at hs
  obtain ⟨w'', hstep, hreply, rfl⟩ := hs
  -- a call that the cache allows, and that ends no operation, extends the run and writes nothing
  have hrun : ∀ i : Call, i.InOp → i.Allowed sb pm → (∀ c, i ≠ .endOp c) →
      w.step sb i = some w'' →
      Logged sb d m w'' (pm.step i) hist ∧ w''.cache.writes = ws := by
    intro i hin hok hne hi
    have hlog' := Logged.step i hlog hin hok hi
    have hcommits : w.commits i = false := by
      cases i with
      | endOp c => exact absurd rfl (hne c)
      | _ => rfl
    rw [hcommits, if_neg Bool.false_ne_true] at hlog'
    exact ⟨hlog', (hsim.writes_of_ne h0 hin hok hne hi).1.trans hws⟩
  cases call with
  | acquire b =>
      obtain ⟨hlog', hws'⟩ := hrun (.acquire b) trivial hpre nofun hstep
      obtain ⟨halone, htracks'⟩ := htracks.acquire hsim h0 hpre hstep
      obtain rfl : w''.data b = r := hreply
      exact ⟨⟨b :: g.held, g.disk, g.unsynced⟩, ⟨halone, rfl⟩, ⟨_, hlog', htracks'⟩, hws'⟩
  | store b x =>
      obtain ⟨hlog', hws'⟩ := hrun (.modify b x) trivial trivial nofun hstep
      exact ⟨⟨g.held, Function.update g.disk b x, insert b g.unsynced⟩, ⟨rfl, rfl⟩,
        ⟨_, hlog', htracks.store hstep⟩, hws'⟩
  | sync ctx b =>
      obtain rfl : ctx = true := hpre
      obtain ⟨hlog', hws'⟩ := hrun (.sync (some c) b) trivial trivial nofun hstep
      exact ⟨⟨g.held, g.disk, g.unsynced \ {b}⟩, ⟨rfl, rfl⟩, ⟨_, hlog', htracks.sync hstep⟩, hws'⟩
  | release b =>
      obtain ⟨hbuf, htracks'⟩ := htracks.release hsim hpre hstep
      obtain ⟨hlog', hws'⟩ := hrun (.release b) trivial hbuf nofun hstep
      exact ⟨⟨g.held.erase b, g.disk, g.unsynced⟩, ⟨rfl, rfl⟩, ⟨_, hlog', htracks'⟩, hws'⟩

/-! ## A call of the tree -/

/-- Where the log lies before the inodes, it is apart from the blocks of files. -/
theorem SuperBlock.WellLaid.logApart {sb : SuperBlock} (hw : sb.WellLaid)
    (hlog : sb.logStart + sb.numLogBlocks ≤ sb.inodeStart) : sb.LogApart sb.metaBlocks := by
  have hin := hw.inodes
  have hstart : sb.inodeStart ≤ sb.toBlockNo sb.numInodes := Nat.le_add_right _ _
  have hsize : sb.numBlocks < 2 ^ 32 := sb.isU32 _ (by simp)
  have hdata : sb.dataStart ≤ sb.numBlocks := Nat.sub_le _ _
  have hclient : ∀ b, sb.inodeStart ≤ b → b < sb.numBlocks → sb.Client b := by
    intro b hge hlt
    simp only [SuperBlock.Client, SuperBlock.InLog]
    omega
  have hbit : ∀ b, b < sb.numBlocks → sb.bitmapStart ≤ sb.bblock b ∧ sb.bblock b < sb.dataStart :=
    fun b hb => ⟨Nat.le_add_left _ _, hw.bitmap b hb⟩
  refine ⟨hw.layout, ?_, ?_⟩
  · intro b hb
    obtain ⟨hge, hlt⟩ := hbit b hb
    exact hclient _ (by omega) (by omega)
  · intro b hb hK
    refine hclient b ?_ hb
    by_cases harea : b ∈ sb.inodeBlocks
    · obtain ⟨no, -, rfl⟩ := harea
      exact Nat.le_add_right _ _
    · have hge : ¬ b < sb.dataStart := fun hlt => hK ⟨hlt, harea⟩
      obtain ⟨hge', hlt'⟩ := hbit 0 hw.pos
      omega

/-- **What callers see**: between two calls no block is held, each block has the contents it has
on the plain disk of the tree, and the in-memory inodes are those of the tree. -/
structure Shown (sb : SuperBlock) (d m : Disk) (hist : List Disk) (s : FsState) (t : InodeTree) :
    Prop where
  logged : ∃ pm, Logged sb d m s.world pm hist ∧ ∀ b, sb.Client b → pm.content b = t.disk b
  idle : ∀ b, s.world.env b = none
  inodes : t = s.inodes.tree t.disk

section Call

variable {sb : SuperBlock} {K : Set ℕ} {d m : Disk} {hist : List Disk} {s s' : FsState}
  {t : InodeTree} {c : ℕ} {r : InodeRes}

/-- A block reads as the plain disk has it. -/
theorem Shown.view (hsb : logMaxSize < sb.numLogBlocks) (hr : RecoversTo sb d m)
    (h : Shown sb d m hist s t) {b : ℕ} (hb : sb.Client b) :
    s.world.cache.view b = t.disk b := by
  obtain ⟨pm, hlog, hagree⟩ := h.logged
  rw [← hagree b hb]
  exact (hlog.inv hsb hr).sim.view_eq hb (h.idle b)

/-- What the callers promise of the file system they promise of the tree. -/
theorem Shown.promised {call : InodeCall} (hsb : logMaxSize < sb.numLogBlocks) (hr : RecoversTo sb d m)
    (hL : sb.LogApart K) (h : Shown sb d m hist s t)
    (hlegal : InodeTree.Promised sb s.tree (.call c call))
    (hs : s.answer sb (.call c call) = some (r, s')) :
    InodeTree.Promised sb t (.call c call) := by
  cases call with
  | get no =>
      have hno : no < sb.numInodes := by
        by_contra hno
        simp [FsState.answer, CacheProg.inodeCall, CacheProg.inodeGet, hno] at hs
      have hentry : sb.diskEntry s.tree.disk no = sb.diskEntry t.disk no :=
        SuperBlock.diskEntry_congr (h.view hsb hr (CacheProg.client_inode hL hno.le))
      have hne : (sb.diskEntry s.tree.disk no).type ≠ inodeInvalid := hlegal
      rw [hentry] at hne
      exact hne
  | read id offset count => exact hlegal
  | write id offset src => exact hlegal
  | _ => trivial

/-- **A call of the tree through the cache** is one over the plain disk, and it writes nothing to
the device. -/
theorem Shown.answer_call {call : InodeCall} (hsb : logMaxSize < sb.numLogBlocks) (hr : RecoversTo sb d m)
    (hL : sb.LogApart K) (h : Shown sb d m hist s t) (hI : InodeTree.Inv sb K t)
    (hlegal : InodeTree.Promised sb t (.call c call))
    (hs : s.answer sb (.call c call) = some (r, s')) :
    s'.world.cache.writes = s.world.cache.writes ∧
      ∃ t', t.answer sb (.call c call) = some (r, t') ∧ Shown sb d m hist s' t' := by
  obtain ⟨pm, hlog, hagree⟩ := h.logged
  obtain ⟨disk, head, next⟩ := t
  have htree : (⟨disk, head, next⟩ : InodeTree) = s.inodes.tree disk := h.inodes
  rw [htree] at hI hlegal ⊢
  -- the program relies on the plain disk
  have htracks : Tracks sb s.world pm ⟨[], disk, ∅⟩ := by
    have hbuf : ∀ b, pm.buf b = none := by
      intro b
      rw [(hlog.inv hsb hr).sim.buf b, h.idle b]
      rfl
    refine ⟨?_, fun b hb _ => (hagree b hb).symm, ?_, List.nodup_nil⟩
    · intro b hb
      rw [hbuf b]
      exact (hagree b hb).symm
    · intro b
      simp [h.idle b]
  simp only [FsState.answer, Option.map_eq_some_iff, Prod.mk.injEq] at hs
  obtain ⟨⟨⟨r', inodes'⟩, w'⟩, hexec, rfl, rfl⟩ := hs
  have hserved : Serving sb d m hist s.world.cache.writes s.world ⟨[], disk, ∅⟩ :=
    ⟨⟨pm, hlog, htracks⟩, rfl⟩
  have htidy := (CacheProg.tidy_inodeCall (H := []) hL hI hlegal).exec
  obtain ⟨⟨H', m', U⟩, ⟨hU, -, halone⟩, ⟨pm', hlog', htracks'⟩, hws⟩ :=
    Prog.Meets.exec htidy hserved (fun _ _ _ _ _ hserved => hserved.answer hsb hr) hexec
  obtain rfl : U = ∅ := hU
  obtain ⟨hH, hstep, hres⟩ := CacheProg.alone_inodeCall halone
  obtain rfl : H' = [] := hH
  refine ⟨hws, inodes'.tree m', ?_, ⟨⟨pm', hlog', ?_⟩, ?_, rfl⟩⟩
  · simp only [InodeTree.answer, hres, hstep, Option.bind_eq_bind, Option.bind_some]
  · intro b hb
    exact (htracks'.synced b hb (Set.notMem_empty b)).symm
  · intro b
    by_contra he
    exact absurd ((htracks'.held b).mpr he) List.not_mem_nil

/-- `init_bcache` leaves on the device what its log recovers to. -/
theorem RecoversTo.start_disk (hsb : logMaxSize < sb.numLogBlocks) (hr : RecoversTo sb d m)
    {s₀ : Bcache} (hs : Bcache.initBcache sb d = some s₀) {b : ℕ} (hb : sb.Client b) :
    s₀.disk b = m b := by
  have hinv := hr.initBcache hsb hs
  have hcut := hinv.cut s₀.writes.length
  have hdisk : s₀.disk = applyWrites s₀.writes d := hinv.disk_eq
  have hidx : sb.commitsIn s₀.writes = 0 := by
    have := hinv.length_eq
    simpa [World.start] using this
  simp only [World.start] at hcut
  rw [List.take_length, ← hdisk, hidx] at hcut
  exact hcut.eq_of_empty hinv.empty hb

theorem Shown.start (hsb : logMaxSize < sb.numLogBlocks) (hr : RecoversTo sb d m) {s₀ : Bcache}
    (hs : Bcache.initBcache sb d = some s₀) :
    Shown sb d m [m] (FsState.start s₀) (InodeTree.init m) where
  logged := ⟨_, Logged.init hs, fun _ hb => hr.start_disk hsb hs hb⟩
  idle := fun _ => rfl
  inodes := rfl

/-- What a call that leaves the tree `t` adds to the writes of the run and to its history. -/
inductive Grows (sb : SuperBlock) (t : InodeTree) (s s' : FsState) (hist : List Disk) :
    List Disk → Prop
  | same : s'.world.cache.writes = s.world.cache.writes → Grows sb t s s' hist hist
  /-- A group commit saves the contents, and leaves no operation open. -/
  | commit (x : Disk) : s'.world.ctxs = [] →
      s.world.cache.writes <+: s'.world.cache.writes → (∀ b, sb.Client b → x b = t.disk b) →
      Grows sb t s s' hist (hist ++ [x])

theorem Shown.endOp (hsb : logMaxSize < sb.numLogBlocks) (hr : RecoversTo sb d m)
    (h : Shown sb d m hist s t) (hs : s.answer sb (.endOp c) = some (r, s')) :
    r = .done ∧ ∃ hist', Grows sb t s s' hist hist' ∧ Shown sb d m hist' s' t := by
  obtain ⟨pm, hlog, hagree⟩ := h.logged
  simp only [FsState.answer, Option.map_eq_some_iff, Prod.mk.injEq] at hs
  obtain ⟨w', hstep, rfl, rfl⟩ := hs
  have hsim := (hlog.inv hsb hr).sim
  have hroom := lt_of_le_of_lt hsim.reserved.numBlocks_le hsb
  have hlog' := Logged.step (.endOp c) hlog trivial trivial hstep
  have hsim' := (hlog'.inv hsb hr).sim
  have hwrites := hsim.writes_endOp hroom hstep
  have henv : w'.env = s.world.env := by
    simp only [World.step, Option.bind_eq_bind, Option.bind_eq_some_iff] at hstep
    obtain ⟨rm, -, s'', -, hstep⟩ := hstep
    cases hstep
    rfl
  refine ⟨rfl, _, ?_, ⟨⟨_, hlog', hagree⟩, ?_, h.inodes⟩⟩
  · split_ifs at hwrites ⊢ with hcommits
    · refine Grows.commit _ ?_ ?_ hagree
      · -- the operation was the only one
        simp only [World.commits, Bool.and_eq_true, decide_eq_true_eq] at hcommits
        simp only [World.step, Option.bind_eq_bind, Option.bind_eq_some_iff] at hstep
        obtain ⟨rm, hrm, s'', -, hstep⟩ := hstep
        cases hstep
        have hlen := hsim.reserved.outstanding
        rw [hcommits.1] at hlen
        refine List.eq_nil_of_length_eq_zero ?_
        rw [List.length_erase_of_mem (Sim.rm_mem hrm), ← hlen]
      · rw [hwrites.1]
        exact List.prefix_append _ _
    · exact Grows.same hwrites.1
  · intro b
    rw [henv]
    exact h.idle b

theorem Shown.beginOp (hsb : logMaxSize < sb.numLogBlocks) (hr : RecoversTo sb d m)
    (h : Shown sb d m hist s t) (hs : s.answer sb (.beginOp c) = some (r, s')) :
    r = .done ∧ s'.world.cache.writes = s.world.cache.writes ∧ Shown sb d m hist s' t := by
  obtain ⟨pm, hlog, hagree⟩ := h.logged
  simp only [FsState.answer, Option.map_eq_some_iff, Prod.mk.injEq] at hs
  obtain ⟨w', hstep, rfl, rfl⟩ := hs
  have hsim := (hlog.inv hsb hr).sim
  have hin : (Call.beginOp c).InOp := trivial
  have hlog' := Logged.step (.beginOp c) hlog hin trivial hstep
  have hwrites := hsim.writes_of_ne (by omega) hin trivial nofun hstep
  have henv : w'.env = s.world.env := by
    simp only [World.step] at hstep
    split at hstep
    · cases hstep
    · obtain ⟨_, -, hstep⟩ := Option.bind_eq_some_iff.mp hstep
      cases hstep
      rfl
  refine ⟨rfl, hwrites.1, ⟨_, hlog', hagree⟩, ?_, h.inodes⟩
  intro b
  rw [henv]
  exact h.idle b

/-- **Every call of the file system is one of the tree**, with the same result. -/
theorem Shown.answer {i : FsCall} (hsb : logMaxSize < sb.numLogBlocks) (hr : RecoversTo sb d m)
    (hL : sb.LogApart K) (h : Shown sb d m hist s t) (hI : InodeTree.Inv sb K t)
    (hlegal : InodeTree.Promised sb s.tree i) (hs : s.answer sb i = some (r, s')) :
    InodeTree.Promised sb t i ∧ ∃ t' hist', t.answer sb i = some (r, t') ∧
      InodeTree.Inv sb K t' ∧ Grows sb t' s s' hist hist' ∧ Shown sb d m hist' s' t' := by
  cases i with
  | beginOp c =>
      obtain ⟨rfl, hwrites, h'⟩ := h.beginOp hsb hr hs
      exact ⟨trivial, t, hist, rfl, hI, .same hwrites, h'⟩
  | endOp c =>
      obtain ⟨rfl, hist', hgrows, h'⟩ := h.endOp hsb hr hs
      exact ⟨trivial, t, hist', rfl, hI, hgrows, h'⟩
  | call c call =>
      have hlegal' := h.promised hsb hr hL hlegal hs
      obtain ⟨hwrites, t', ht', h'⟩ := h.answer_call hsb hr hL hI hlegal' hs
      refine ⟨hlegal', t', hist, ht', ?_, .same hwrites, h'⟩
      obtain ⟨r', -, hstep⟩ := Option.bind_eq_some_iff.mp ht'
      obtain ⟨t'', hstep, heq⟩ := Option.bind_eq_some_iff.mp hstep
      cases heq
      exact hI.step hL.toLayout hlegal' hstep

end Call

/-- **The file system is an inode tree over a plain disk.**  On a device whose log recovers to the
sound image `m`, every run of the file system is a run of the inode tree over `m`: every call
returns what it returns there, whatever operations are open and wherever the cache keeps the
blocks.  The image stays sound, the in-memory inodes are the same, and every block outside the log
reads as the plain disk has it. -/
theorem files_refine {sb : SuperBlock} {d m : Disk} {l : List (FsCall × InodeRes)} {s : FsState}
    (hw : sb.WellLaid) (hsb : logMaxSize < sb.numLogBlocks)
    (hlog : sb.logStart + sb.numLogBlocks ≤ sb.inodeStart) (hr : RecoversTo sb d m)
    (hO : Owned sb m) (h : FsRun sb d l s) :
    ∃ t, TreeRun sb m l t ∧ Owned sb t.disk ∧ t = s.inodes.tree t.disk ∧
      ∀ b, sb.Client b → s.world.cache.view b = t.disk b := by
  have hL := hw.logApart hlog
  obtain ⟨s₀, hs₀, htrace⟩ := h
  obtain ⟨t, ht, hist, hshown, hI⟩ := htrace.simulate
    (R := fun s t => ∃ hist, Shown sb d m hist s t ∧ InodeTree.Inv sb sb.metaBlocks t)
    ⟨[m], Shown.start hsb hr hs₀, InodeTree.Inv.init ((owned_iff hw).mp hO)⟩ (by
      rintro s t i r s' ⟨hist, hshown, hI⟩ hlegal hs
      obtain ⟨hlegal', t', hist', ht', hI', -, hshown'⟩ := hshown.answer hsb hr hL hI hlegal hs
      exact ⟨hlegal', t', ht', hist', hshown', hI'⟩)
  exact ⟨t, ht, (owned_iff hw).mpr hI.image, hshown.inodes, fun b hb => hshown.view hsb hr hb⟩

instance (sb : SuperBlock) (t : InodeTree) :
    (i : FsCall) → Decidable (InodeTree.Promised sb t i)
  | .beginOp _ => isTrue trivial
  | .endOp _ => isTrue trivial
  | .call _ call => inferInstanceAs (Decidable (InodeTree.Legal sb t call))

/-- A list of calls, each of which keeps the promises. -/
def FsState.play (sb : SuperBlock) (d : Disk) (is : List FsCall) :
    Option (List (FsCall × InodeRes) × FsState) :=
  (Bcache.initBcache sb d).bind fun s =>
    Trace.play (FsState.answer sb) (fun s i => decide (InodeTree.Promised sb s.tree i))
      (FsState.start s) is

theorem FsRun.of_play {sb : SuperBlock} {d : Disk} {is : List FsCall}
    {l : List (FsCall × InodeRes)} {s : FsState} (h : FsState.play sb d is = some (l, s)) :
    FsRun sb d l s := by
  obtain ⟨s₀, hs₀, hp⟩ := Option.bind_eq_some_iff.mp h
  refine ⟨s₀, hs₀, ?_⟩
  exact Trace.init.of_play (fun _ _ hi => of_decide_eq_true hi) is hp

namespace Wide

/-- A log area with room for every group, an inode block, a bitmap block and three data blocks. -/
def sb : SuperBlock where
  numBlocks := 71
  numDataBlocks := 3
  numInodes := 3
  numLogBlocks := 64
  logStart := 2
  inodeStart := 66
  bitmapStart := 67
  isU32 := by decide

/-- Inode 1 is an empty file. -/
def disk : Disk := fun b =>
  if b = 66 then
    Bytes.zero.putEntry 1 { InodeEntry.zero with type := inodeRegular, numLinks := 1 }
  else if b = 67 then (List.range 68).foldl Bytes.setBit Bytes.zero
  else Bytes.zero

/-- It gets a byte. -/
def calls : List FsCall := [.beginOp 0, .call 0 (.get 1), .call 0 (.write 0 0 [7]), .endOp 0]

theorem wellLaid : sb.WellLaid where
  pos := by decide
  boot := by decide
  inodes := by decide
  bitmap := by decide

theorem recoversTo : RecoversTo sb disk disk :=
  RecoversTo.of_empty (by decide +kernel) fun _ _ => rfl

theorem owned : Owned sb disk := by
  have hvalid : ∀ no ∈ sb.validInodes disk, no = 1 := by
    rintro no ⟨h1, hle, ht⟩
    have hle' : no ≤ 3 := hle
    obtain rfl | rfl | rfl : no = 1 ∨ no = 2 ∨ no = 3 := by omega
    · rfl
    · exact absurd (by decide +kernel) ht
    · exact absurd (by decide +kernel) ht
  have hslot : ∀ no ∈ sb.validInodes disk, ∀ i, i ≤ inodeMaxBlocks →
      slot disk (sb.diskEntry disk no) i = 0 := by
    intro no hno i hi
    have h₁ : ∀ i, i < 141 → slot disk (sb.diskEntry disk 1) i = 0 := by decide +kernel
    rw [inodeMaxBlocks_eq] at hi
    rw [hvalid no hno]
    exact h₁ i (by omega)
  have hbits : ∀ b, b < 71 → (sb.used disk b = true ↔ b < 68) := by decide +kernel
  refine ⟨?_, ?_, ?_, ?_, ?_⟩
  · intro no hno
    rw [hvalid no hno]
    exact ⟨by decide +kernel, by unfold Mapped; decide +kernel⟩
  · intro b hb
    have hb' : b < 68 := hb
    exact (hbits b (by omega)).mpr hb'
  · rintro no hno b ⟨h0, i, hi, rfl⟩
    exact absurd (hslot no hno i hi) h0
  · intro b hge hlt
    have hge' : 68 ≤ b := hge
    rw [hbits b hlt]
    refine iff_of_false (by omega) ?_
    rintro ⟨no, hno, i, hi, rfl⟩
    rw [hslot no hno i hi] at hge'
    omega
  · intro no hno no' hno' i j hi hj hij h0
    exact absurd (hslot no hno i hi) h0

end Wide

/-- An empty file gets a byte. -/
theorem files_refine_byte : ∃ l s t, FsRun Wide.sb Wide.disk l s ∧
    l.map Prod.snd = [.done, .value 0, .value 1, .done] ∧ TreeRun Wide.sb Wide.disk l t ∧
    Owned Wide.sb t.disk := by
  have hplay : ((FsState.play Wide.sb Wide.disk Wide.calls).map fun x => x.1.map Prod.snd) =
      some [.done, .value 0, .value 1, .done] := by decide +kernel
  obtain ⟨⟨l, s⟩, hs, hl⟩ := Option.map_eq_some_iff.mp hplay
  have hrun := FsRun.of_play hs
  obtain ⟨t, ht, hO, -⟩ :=
    files_refine Wide.wellLaid (by decide) (by decide) Wide.recoversTo Wide.owned hrun
  exact ⟨l, s, t, hrun, hl, ht, hO⟩

end OsLab
