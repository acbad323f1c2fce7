import OsLab.Fs.InodeSys

/-!
# References to in-memory inodes

The invariant of `OsLab.Fs.InodeSys` in the runs in which `inode_get` is not called for the number
of an inode that a thread is freeing.  It says of each inode what holds of it alone, so that a step
has to be looked at for the inode that it works on only; the others keep what they have
(`Fine.moves`).

## Main definitions

* `Fine`, `Refs` — the invariant, of one inode and of the system.
* `Moves` — what a step that works on one inode leaves alone.
* `Fine.works` — who works on an inode.
-/

namespace OsLab

namespace InodePc

/-- The inode a thread works on. -/
def inode : InodePc → Option ℕ
  | getLock ip _ | load ip _ | loaded ip _ | put ip | putLock ip | clear ip _ | table ip _
  | cleared ip | invalid ip | unlock ip | detach ip | drop ip => some ip
  | _ => none

/-- The thread has the spinlock. -/
def Locking : InodePc → Prop
  | getLock _ _ | load _ _ | loaded _ _ | putLock _ => True
  | _ => False

/-- The thread works on no other inode. -/
def On (ip : ℕ) (q : InodePc) : Prop := ∀ jp, q.inode = some jp → jp = ip

variable {q : InodePc} {ip : ℕ}

theorem on_idle (ip : ℕ) : idle.On ip := nofun

theorem on_of_inode (h : q.inode = some ip) : q.On ip := fun _ hjp =>
  Option.some.inj (hjp.symm.trans h)

theorem inode_of_taking (h : q.taking = some ip) : q.inode = some ip := by
  cases q
  all_goals first | exact h | cases h

theorem locking_of_taking (h : q.taking = some ip) : q.Locking := by
  cases q
  all_goals trivial

theorem not_locking_of_freeing (h : q.freeing = some ip) : ¬ q.Locking := by
  cases q
  all_goals first | exact id | cases h

theorem not_locking_of_none (h : q.inode = none) : ¬ q.Locking := by
  cases q
  all_goals first | exact id | cases h

theorem inode_of_freeing (h : q.freeing = some ip) : q.inode = some ip := by
  cases q
  all_goals first | exact h | cases h

end InodePc

/-! ## Counting references -/

namespace InodeSys

variable {s : InodeSys} {t u ip : ℕ}

theorem refCount_pos (h : (t, ip) ∈ s.refs) : 0 < s.refCount ip :=
  List.countP_pos_iff.mpr ⟨_, h, by simp⟩

/-- A single reference is one thread's. -/
theorem eq_of_refCount_one (h1 : s.refCount ip = 1) (ht : (t, ip) ∈ s.refs)
    (hu : (u, ip) ∈ s.refs) : u = t := by
  by_contra hne
  have hmem : (u, ip) ∈ s.refs.erase (t, ip) :=
    (List.mem_erase_of_ne fun heq => hne (congrArg Prod.fst heq)).mpr hu
  have hpos : 0 < (s.refs.erase (t, ip)).countP fun r => r.2 = ip :=
    List.countP_pos_iff.mpr ⟨_, hmem, by simp⟩
  rw [List.countP_erase, if_pos ⟨ht, by simp⟩] at hpos
  rw [refCount] at h1
  omega

end InodeSys

/-! ## The invariant -/

/-- A valid inode with the entry of its number. -/
structure Ready (sb : SuperBlock) (s : InodeSys) (ip : ℕ) : Prop where
  valid : (s.mem ip).valid = true
  entry : (s.mem ip).entry = sb.diskEntry s.disk (s.mem ip).inodeNo
  allocated : (sb.diskEntry s.disk (s.mem ip).inodeNo).type ≠ inodeInvalid

theorem Ready.congr {sb : SuperBlock} {s s' : InodeSys} {ip : ℕ} (h : Ready sb s ip)
    (hvalid : (s'.mem ip).valid = (s.mem ip).valid) (hentry : (s'.mem ip).entry = (s.mem ip).entry)
    (hno : (s'.mem ip).inodeNo = (s.mem ip).inodeNo) (hdisk : s'.disk = s.disk) :
    Ready sb s' ip where
  valid := hvalid.trans h.valid
  entry := by
    rw [hentry, hno, hdisk]
    exact h.entry
  allocated := by
    rw [hno, hdisk]
    exact h.allocated

/-- An inode that `inode_get(no)` has taken. -/
structure Taken (sb : SuperBlock) (s : InodeSys) (ip no : ℕ) : Prop where
  mem_head : ip ∈ s.head
  inodeNo : (s.mem ip).inodeNo = no
  rc : (s.mem ip).rc = 1
  refCount : s.refCount ip = 0
  allocated : (sb.diskEntry s.disk no).type ≠ inodeInvalid

/-- The only reference to an inode is that of thread `t`, which is freeing it. -/
structure Last (s : InodeSys) (t ip : ℕ) : Prop where
  mem_refs : (t, ip) ∈ s.refs
  refCount : s.refCount ip = 1

/-- What a thread knows of the inode it works on. -/
def Knows (sb : SuperBlock) (s : InodeSys) (t : ℕ) : InodePc → Prop
  | .getLock ip no | .load ip no => Taken sb s ip no ∧ (s.mem ip).valid = false
  | .loaded ip no => Taken sb s ip no ∧ Ready sb s ip
  | .put ip => (t, ip) ∈ s.refs
  | .putLock ip | .clear ip _ | .table ip _ | .cleared ip | .invalid ip | .unlock ip
  | .detach ip => Last s t ip ∧ ip ∈ s.head
  | .drop ip => Last s t ip ∧ ip ∉ s.head
  | .idle | .probe _ _ => True

/-- **The invariant of one inode.** -/
structure Fine (sb : SuperBlock) (s : InodeSys) (ip : ℕ) : Prop where
  heap : ip ∈ s.head → ip ∈ s.heap
  linked : ip ∈ s.heap → ip ∈ s.head ∨ ∃ t, s.pc t = .drop ip
  range : ip ∈ s.head → 0 < (s.mem ip).rc → (s.mem ip).inodeNo < sb.numInodes
  refs : ∀ t, (t, ip) ∈ s.refs → (ip ∈ s.head ∨ s.pc t = .drop ip) ∧ ip ∈ s.heap
  counts : ip ∈ s.heap → (∀ t, (s.pc t).taking ≠ some ip) → (s.mem ip).rc = s.refCount ip
  ready : ip ∈ s.head → 0 < (s.mem ip).rc → (∀ t, (s.pc t).taking ≠ some ip) →
    (∀ t, (s.pc t).freeing ≠ some ip) → Ready sb s ip
  threads : ∀ t, (s.pc t).inode = some ip → Knows sb s t (s.pc t)

/-- **The invariant.** -/
structure Refs (sb : SuperBlock) (s : InodeSys) : Prop where
  lock : ∀ t, (s.pc t).Locking ↔ s.lock = some t
  nodup : s.head.Nodup
  nodupHeap : s.heap.Nodup
  unique : ∀ ip ∈ s.heap, ∀ jp ∈ s.heap, 0 < (s.mem ip).rc → 0 < (s.mem jp).rc →
    (s.mem ip).inodeNo = (s.mem jp).inodeNo → ip = jp
  fine : ∀ ip, Fine sb s ip

/-! ## What a step leaves alone -/

/-- A step of thread `t` that works on inode `ip` only. -/
structure Moves (sb : SuperBlock) (s s' : InodeSys) (t ip : ℕ) : Prop where
  pc : ∀ u, u ≠ t → s'.pc u = s.pc u
  before : (s.pc t).On ip
  after : (s'.pc t).On ip
  mem : ∀ jp, jp ≠ ip → s'.mem jp = s.mem jp
  refs : ∀ u jp, jp ≠ ip → ((u, jp) ∈ s'.refs ↔ (u, jp) ∈ s.refs)
  refCount : ∀ jp, jp ≠ ip → s'.refCount jp = s.refCount jp
  head : ∀ jp, jp ≠ ip → (jp ∈ s'.head ↔ jp ∈ s.head)
  heap : ∀ jp, jp ≠ ip → (jp ∈ s'.heap ↔ jp ∈ s.heap)
  disk : ∀ jp ∈ s.head, jp ≠ ip → 0 < (s.mem jp).rc →
    (sb.diskEntry s.disk (s.mem jp).inodeNo).type ≠ inodeInvalid →
    sb.diskEntry s'.disk (s.mem jp).inodeNo = sb.diskEntry s.disk (s.mem jp).inodeNo

section Moves

variable {sb : SuperBlock} {s s' : InodeSys} {t u ip jp no : ℕ}

theorem Moves.ready (hm : Moves sb s s' t ip) (hne : jp ≠ ip) (hhead : jp ∈ s.head)
    (hrc : 0 < (s.mem jp).rc) (h : Ready sb s jp) : Ready sb s' jp := by
  have hdisk := hm.disk jp hhead hne hrc h.allocated
  constructor
  · rw [hm.mem jp hne]
    exact h.valid
  · rw [hm.mem jp hne, hdisk]
    exact h.entry
  · rw [hm.mem jp hne, hdisk]
    exact h.allocated

theorem Moves.taken (hm : Moves sb s s' t ip) (hne : jp ≠ ip) (h : Taken sb s jp no) :
    Taken sb s' jp no := by
  have hrc : 0 < (s.mem jp).rc := by
    rw [h.rc]
    decide
  have hdisk := hm.disk jp h.mem_head hne hrc (by rw [h.inodeNo]; exact h.allocated)
  rw [h.inodeNo] at hdisk
  constructor
  · exact (hm.head jp hne).mpr h.mem_head
  · rw [hm.mem jp hne]
    exact h.inodeNo
  · rw [hm.mem jp hne]
    exact h.rc
  · rw [hm.refCount jp hne]
    exact h.refCount
  · rw [hdisk]
    exact h.allocated

theorem Moves.last (hm : Moves sb s s' t ip) (hne : jp ≠ ip) (h : Last s u jp) : Last s' u jp :=
  ⟨(hm.refs u jp hne).mpr h.mem_refs, (hm.refCount jp hne).trans h.refCount⟩

/-- What another thread knows of another inode. -/
theorem Moves.knows (hm : Moves sb s s' t ip) (hne : jp ≠ ip) {q : InodePc}
    (hq : q.inode = some jp) (h : Knows sb s u q) : Knows sb s' u q := by
  cases q with
  | idle | probe => trivial
  | getLock jp no | load jp no =>
      cases hq
      refine ⟨hm.taken hne h.1, ?_⟩
      rw [hm.mem _ hne]
      exact h.2
  | loaded jp no =>
      cases hq
      have hrc : 0 < (s.mem jp).rc := by
        rw [h.1.rc]
        decide
      exact ⟨hm.taken hne h.1, hm.ready hne h.1.mem_head hrc h.2⟩
  | put jp =>
      cases hq
      exact (hm.refs _ _ hne).mpr h
  | putLock jp | clear jp k | table jp k | cleared jp | invalid jp | unlock jp | detach jp =>
      cases hq
      exact ⟨hm.last hne h.1, (hm.head _ hne).mpr h.2⟩
  | drop jp =>
      cases hq
      exact ⟨hm.last hne h.1, fun hin => h.2 ((hm.head _ hne).mp hin)⟩

/-- **The other inodes stay as they are.** -/
theorem Fine.moves (h : Fine sb s jp) (hm : Moves sb s s' t ip) (hne : jp ≠ ip) : Fine sb s' jp := by
  -- thread `t` works on `ip` before and after
  have hoff : (s.pc t).inode ≠ some jp := fun heq => hne (hm.before jp heq)
  have hback : ∀ {f : InodePc → Option ℕ}, (∀ q, f q = some jp → q.inode = some jp) →
      (∀ u, f (s'.pc u) ≠ some jp) → ∀ u, f (s.pc u) ≠ some jp := by
    intro f hf hall u hu
    by_cases hut : u = t
    · rw [hut] at hu
      exact hoff (hf _ hu)
    · exact hall u (hm.pc u hut ▸ hu)
  constructor
  · intro hin
    exact (hm.heap jp hne).mpr (h.heap ((hm.head jp hne).mp hin))
  · intro hin
    rcases h.linked ((hm.heap jp hne).mp hin) with hhead | ⟨u, hdrop⟩
    · exact Or.inl ((hm.head jp hne).mpr hhead)
    · have hut : u ≠ t := by
        rintro rfl
        exact hoff (by rw [hdrop]; rfl)
      exact Or.inr ⟨u, (hm.pc u hut).trans hdrop⟩
  · intro hin hrc
    rw [hm.mem jp hne] at hrc ⊢
    exact h.range ((hm.head jp hne).mp hin) hrc
  · intro u hu
    obtain ⟨hwhere, hheap⟩ := h.refs u ((hm.refs u jp hne).mp hu)
    refine ⟨?_, (hm.heap jp hne).mpr hheap⟩
    rcases hwhere with hin | hdrop
    · exact Or.inl ((hm.head jp hne).mpr hin)
    · have hut : u ≠ t := by
        rintro rfl
        exact hoff (by rw [hdrop]; rfl)
      exact Or.inr ((hm.pc u hut).trans hdrop)
  · intro hin htake
    rw [hm.mem jp hne, hm.refCount jp hne]
    exact h.counts ((hm.heap jp hne).mp hin) (hback (fun _ => InodePc.inode_of_taking) htake)
  · intro hin hrc htake hfree
    rw [hm.mem jp hne] at hrc
    have hin' := (hm.head jp hne).mp hin
    exact hm.ready hne hin' hrc (h.ready hin' hrc
      (hback (fun _ => InodePc.inode_of_taking) htake)
      (hback (fun _ => InodePc.inode_of_freeing) hfree))
  · intro u hu
    by_cases hut : u = t
    · rw [hut] at hu
      exact absurd (hm.after jp hu) hne
    · rw [hm.pc u hut] at hu ⊢
      exact hm.knows hne hu (h.threads u hu)

end Moves

/-! ## References that come and go -/

section Lists

variable {l : List (ℕ × ℕ)} {t u ip jp : ℕ}

theorem mem_cons_ref (h : jp ≠ ip) : (u, jp) ∈ (t, ip) :: l ↔ (u, jp) ∈ l := by
  rw [List.mem_cons]
  exact or_iff_right fun heq => h (congrArg Prod.snd heq)

theorem mem_erase_ref (h : jp ≠ ip) : (u, jp) ∈ l.erase (t, ip) ↔ (u, jp) ∈ l :=
  List.mem_erase_of_ne fun heq => h (congrArg Prod.snd heq)

theorem countP_cons_ref : ((t, ip) :: l).countP (fun r => r.2 = jp) =
    l.countP (fun r => r.2 = jp) + if jp = ip then 1 else 0 := by
  rw [List.countP_cons]
  simp only [decide_eq_true_eq, eq_comm (a := ip)]

theorem countP_erase_ref (hmem : (t, ip) ∈ l) : l.countP (fun r => r.2 = jp) =
    (l.erase (t, ip)).countP (fun r => r.2 = jp) + if jp = ip then 1 else 0 := by
  rw [← countP_cons_ref (t := t), (List.perm_cons_erase hmem).countP_eq]

end Lists

/-! ## A step on one inode -/

section Steps

variable {sb : SuperBlock} {s s' : InodeSys} {t u ip jp no : ℕ}

/-- The lock in a step that leaves it alone, -/
theorem lock_same (h : Refs sb s) (hpc : ∀ u, u ≠ t → s'.pc u = s.pc u) (hlock : s'.lock = s.lock)
    (hq : (s'.pc t).Locking ↔ (s.pc t).Locking) : ∀ u, (s'.pc u).Locking ↔ s'.lock = some u := by
  intro u
  rw [hlock]
  by_cases hut : u = t
  · rw [hut, hq]
    exact h.lock t
  · rw [hpc u hut]
    exact h.lock u

/-- that acquires it, -/
theorem lock_acquired (h : Refs sb s) (hpc : ∀ u, u ≠ t → s'.pc u = s.pc u) (hnone : s.lock = none)
    (hlock : s'.lock = some t) (hq : (s'.pc t).Locking) :
    ∀ u, (s'.pc u).Locking ↔ s'.lock = some u := by
  intro u
  rw [hlock]
  by_cases hut : u = t
  · rw [hut]
    exact iff_of_true hq rfl
  · rw [hpc u hut, h.lock u, hnone]
    exact iff_of_false (by simp) fun heq => hut (Option.some.inj heq).symm

/-- and that releases it. -/
theorem lock_released (h : Refs sb s) (hpc : ∀ u, u ≠ t → s'.pc u = s.pc u)
    (hlocking : (s.pc t).Locking) (hlock : s'.lock = none) (hq : ¬ (s'.pc t).Locking) :
    ∀ u, (s'.pc u).Locking ↔ s'.lock = some u := by
  intro u
  rw [hlock]
  by_cases hut : u = t
  · rw [hut]
    exact iff_of_false hq (by simp)
  · rw [hpc u hut, h.lock u, (h.lock t).mp hlocking]
    exact iff_of_false (fun heq => hut (Option.some.inj heq).symm) (by simp)

/-- Nobody is in `inode_get` where nobody has the spinlock. -/
theorem Refs.not_taking (h : Refs sb s) (hnone : s.lock = none) (u ip : ℕ) :
    (s.pc u).taking ≠ some ip := by
  intro htake
  have hlocking := (h.lock u).mp (InodePc.locking_of_taking htake)
  rw [hnone] at hlocking
  cases hlocking

/-- A step that works on `ip`. -/
theorem Refs.moves (h : Refs sb s) (hm : Moves sb s s' t ip)
    (hlock : ∀ u, (s'.pc u).Locking ↔ s'.lock = some u) (hnodup : s'.head.Nodup)
    (hnodupHeap : s'.heap.Nodup)
    (hunique : ∀ jp ∈ s.heap, jp ≠ ip → ip ∈ s'.heap → 0 < (s'.mem ip).rc → 0 < (s.mem jp).rc →
      (s'.mem ip).inodeNo ≠ (s.mem jp).inodeNo) (hfine : Fine sb s' ip) : Refs sb s' where
  lock := hlock
  nodup := hnodup
  nodupHeap := hnodupHeap
  unique := by
    intro jp hjp kp hkp hrc hrc' heq
    by_cases hj : jp = ip
    · by_cases hk : kp = ip
      · rw [hj, hk]
      · subst hj
        rw [hm.mem kp hk] at hrc' heq
        exact absurd heq (hunique kp ((hm.heap kp hk).mp hkp) hk hjp hrc hrc')
    · rw [hm.mem jp hj] at hrc heq
      by_cases hk : kp = ip
      · subst hk
        exact absurd heq.symm (hunique jp ((hm.heap jp hj).mp hjp) hj hkp hrc' hrc)
      · rw [hm.mem kp hk] at hrc' heq
        exact h.unique jp ((hm.heap jp hj).mp hjp) kp ((hm.heap kp hk).mp hkp) hrc hrc' heq
  fine := by
    intro jp
    by_cases hj : jp = ip
    · exact hj ▸ hfine
    · exact (h.fine jp).moves hm hj

/-- A step on an inode that stays in the list under its number. -/
theorem Refs.kept (h : Refs sb s) (hm : Moves sb s s' t ip)
    (hlock : ∀ u, (s'.pc u).Locking ↔ s'.lock = some u) (hin : ip ∈ s.head)
    (hhead : s'.head = s.head) (hheap : s'.heap = s.heap)
    (hno : (s'.mem ip).inodeNo = (s.mem ip).inodeNo)
    (hpos : 0 < (s'.mem ip).rc → 0 < (s.mem ip).rc)
    (hcounts : (∀ u, (s'.pc u).taking ≠ some ip) → (s'.mem ip).rc = s'.refCount ip)
    (hready : 0 < (s'.mem ip).rc → (∀ u, (s'.pc u).freeing ≠ some ip) → Ready sb s' ip)
    (hthreads : ∀ u, (s'.pc u).inode = some ip → Knows sb s' u (s'.pc u)) : Refs sb s' := by
  have hheap' : ip ∈ s'.heap := hheap ▸ (h.fine ip).heap hin
  refine h.moves hm hlock (hhead ▸ h.nodup) (hheap ▸ h.nodupHeap) ?_ ?_
  · intro jp hjp hne _ hrc hrcj heq
    exact hne (h.unique jp hjp ip ((h.fine ip).heap hin) hrcj (hpos hrc) (heq.symm.trans hno))
  · refine ⟨fun _ => hheap', fun _ => Or.inl (hhead ▸ hin), ?_, ?_, fun _ => hcounts,
      fun _ hrc _ => hready hrc, hthreads⟩
    · intro _ hrc
      rw [hno]
      exact (h.fine ip).range hin (hpos hrc)
    · intro u _
      exact ⟨Or.inl (hhead ▸ hin), hheap'⟩

/-- A step that works on no inode. -/
theorem Refs.moves_none (h : Refs sb s) (hm : ∀ ip, Moves sb s s' t ip) (hhead : s'.head = s.head)
    (hheap : s'.heap = s.heap) (hmem : s'.mem = s.mem) (hlock : ∀ u, (s'.pc u).Locking ↔ s'.lock = some u) : Refs sb s' where
  lock := hlock
  nodup := hhead ▸ h.nodup
  nodupHeap := hheap ▸ h.nodupHeap
  unique := by
    rw [hheap, hmem]
    exact h.unique
  fine := fun ip => (h.fine ip).moves (hm (ip + 1)) (Nat.ne_of_lt (Nat.lt_succ_self ip))

/-- A step that takes a reference to `ip`, drops one, or does neither. -/
theorem Moves.quiet (hpc : ∀ u, u ≠ t → s'.pc u = s.pc u)
    (hbefore : (s.pc t).On ip) (hafter : (s'.pc t).On ip)
    (hmem : ∀ jp, jp ≠ ip → s'.mem jp = s.mem jp)
    (hrefs : s'.refs = s.refs ∨ s'.refs = (t, ip) :: s.refs ∨
      (t, ip) ∈ s.refs ∧ s'.refs = s.refs.erase (t, ip))
    (hhead : s'.head = s.head) (hheap : s'.heap = s.heap) (hdisk : s'.disk = s.disk) :
    Moves sb s s' t ip where
  pc := hpc
  before := hbefore
  after := hafter
  mem := hmem
  refs := by
    intro u jp hne
    rcases hrefs with hr | hr | ⟨-, hr⟩
    · rw [hr]
    · rw [hr]
      exact mem_cons_ref hne
    · rw [hr]
      exact mem_erase_ref hne
  refCount := by
    intro jp hne
    rw [InodeSys.refCount, InodeSys.refCount]
    rcases hrefs with hr | hr | ⟨hmem, hr⟩
    · rw [hr]
    · rw [hr, countP_cons_ref, if_neg hne, Nat.add_zero]
    · rw [hr, countP_erase_ref hmem, if_neg hne, Nat.add_zero]
  head := fun jp _ => by rw [hhead]
  heap := fun jp _ => by rw [hheap]
  disk := fun jp _ _ _ _ => by rw [hdisk]

theorem Fine.taken (h : Fine sb s ip) (htake : (s.pc u).taking = some ip) :
    ∃ no, Taken sb s ip no := by
  have hknows := h.threads u (InodePc.inode_of_taking htake)
  cases hq : s.pc u with
  | getLock | load | loaded =>
      rw [hq] at htake hknows
      cases htake
      exact ⟨_, hknows.1⟩
  | _ =>
      rw [hq] at htake
      cases htake

/-- **Who works on an inode**: a thread that has taken it, one that is about to drop a reference, or
the one with the last reference. -/
theorem Fine.works (h : Fine sb s ip) (hu : (s.pc u).inode = some ip) :
    (s.pc u).taking = some ip ∨ s.pc u = .put ip ∧ (u, ip) ∈ s.refs ∨
      Last s u ip ∧ ((s.pc u).Locking ∨ (s.pc u).freeing = some ip ∨ ip ∉ s.head) := by
  have hknows := h.threads u hu
  cases hq : s.pc u with
  | idle | probe =>
      rw [hq] at hu
      cases hu
  | getLock | load | loaded =>
      rw [hq] at hu
      exact Or.inl hu
  | put jp =>
      rw [hq] at hu hknows
      cases hu
      exact Or.inr (Or.inl ⟨rfl, hknows⟩)
  | putLock jp =>
      rw [hq] at hu hknows
      cases hu
      exact Or.inr (Or.inr ⟨hknows.1, Or.inl trivial⟩)
  | drop jp =>
      rw [hq] at hu hknows
      cases hu
      exact Or.inr (Or.inr ⟨hknows.1, Or.inr (Or.inr hknows.2)⟩)
  | _ =>
      rw [hq] at hu hknows
      cases hu
      exact Or.inr (Or.inr ⟨hknows.1, Or.inr (Or.inl rfl)⟩)

/-- A thread that frees the inode has its only reference. -/
theorem Refs.last_of_freeing (h : Refs sb s) (hfree : (s.pc u).freeing = some ip) :
    Last s u ip ∧ ip ∈ s.head := by
  have hknows := (h.fine ip).threads u (InodePc.inode_of_freeing hfree)
  cases hq : s.pc u
  all_goals rw [hq] at hfree hknows
  all_goals cases hfree
  all_goals exact hknows

/-- The only reference is not `inode_get`'s. -/
theorem Last.not_taking (hl : Last s t ip) (h : Refs sb s) (u : ℕ) :
    (s.pc u).taking ≠ some ip := by
  intro htake
  obtain ⟨no, htaken⟩ := (h.fine ip).taken htake
  have hzero := htaken.refCount
  rw [hl.refCount] at hzero
  cases hzero

theorem Last.rc (hl : Last s t ip) (h : Refs sb s) (hin : ip ∈ s.head) : (s.mem ip).rc = 1 := by
  rw [(h.fine ip).counts ((h.fine ip).heap hin) (hl.not_taking h), hl.refCount]
  rfl

/-- The thread with the last reference is the only one that works on the inode. -/
theorem Last.alone (hl : Last s t ip) (h : Refs sb s) (hu : (s.pc u).inode = some ip) : u = t := by
  rcases (h.fine ip).works hu with htake | ⟨-, hput⟩ | ⟨hlast, -⟩
  · exact absurd htake (hl.not_taking h u)
  · exact InodeSys.eq_of_refCount_one hl.refCount hl.mem_refs hput
  · exact InodeSys.eq_of_refCount_one hl.refCount hl.mem_refs hlast.mem_refs

/-- Who works on an inode in the list that nobody is freeing, while nobody has the spinlock. -/
theorem Refs.pc_put (h : Refs sb s) (hnone : s.lock = none) (hin : ip ∈ s.head)
    (hfree : ∀ u, (s.pc u).freeing ≠ some ip) (hu : (s.pc u).inode = some ip) :
    s.pc u = .put ip ∧ (u, ip) ∈ s.refs := by
  rcases (h.fine ip).works hu with htake | hput | ⟨-, hlocking | hfreeing | hout⟩
  · exact absurd htake (h.not_taking hnone u ip)
  · exact hput
  · rw [h.lock u, hnone] at hlocking
    cases hlocking
  · exact absurd hfreeing (hfree u)
  · exact absurd hin hout

/-- A thread in no call has a reference to an inode that nobody takes or frees. -/
theorem Refs.idle_ref (h : Refs sb s) (ht : (t, ip) ∈ s.refs) (hidle : s.pc t = .idle) :
    ip ∈ s.head ∧ ∀ u, (s.pc u).inode = some ip → s.pc u = .put ip ∧ (u, ip) ∈ s.refs := by
  refine ⟨((h.fine ip).refs t ht).1.resolve_right ?_, ?_⟩
  · rw [hidle]
    exact nofun
  · intro u hu
    rcases (h.fine ip).works hu with htake | hput | ⟨hlast, -⟩
    · obtain ⟨no, htaken⟩ := (h.fine ip).taken htake
      have hpos := InodeSys.refCount_pos ht
      rw [htaken.refCount] at hpos
      cases hpos
    · exact hput
    · rw [← InodeSys.eq_of_refCount_one hlast.refCount hlast.mem_refs ht, hidle] at hu
      cases hu

theorem Refs.idle_free (h : Refs sb s) (ht : (t, ip) ∈ s.refs) (hidle : s.pc t = .idle) :
    (∀ u, (s.pc u).taking ≠ some ip) ∧ ∀ u, (s.pc u).freeing ≠ some ip := by
  obtain ⟨-, hput⟩ := h.idle_ref ht hidle
  constructor
  · intro u htake
    rw [(hput u (InodePc.inode_of_taking htake)).1] at htake
    cases htake
  · intro u hfree
    rw [(hput u (InodePc.inode_of_freeing hfree)).1] at hfree
    cases hfree

/-- The thread that has taken an inode is the only one that works on it. -/
theorem Refs.taking_alone (h : Refs sb s) (htake : (s.pc t).taking = some ip)
    (hu : (s.pc u).inode = some ip) : u = t := by
  obtain ⟨no, htaken⟩ := (h.fine ip).taken htake
  have hnone : ∀ v, (v, ip) ∉ s.refs := by
    intro v hv
    have hpos := InodeSys.refCount_pos hv
    rw [htaken.refCount] at hpos
    cases hpos
  rcases (h.fine ip).works hu with htake' | ⟨-, hput⟩ | ⟨hlast, -⟩
  · have ht := (h.lock t).mp (InodePc.locking_of_taking htake)
    have hu := (h.lock u).mp (InodePc.locking_of_taking htake')
    exact Option.some.inj (hu.symm.trans ht)
  · exact absurd hput (hnone u)
  · exact absurd hlast.mem_refs (hnone u)

end Steps

end OsLab
