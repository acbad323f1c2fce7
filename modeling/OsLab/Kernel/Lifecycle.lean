import OsLab.Kernel.FreePgdir
import OsLab.Kernel.FreshPage

/-!
# The pages of a process

`create_proc` obtains a page for the kernel stack and the first tables of the page directory,
`get_pte` obtains more tables, and `exit` and `wait` should give all of them back.  Here any number
of processes are created, run, exit and are reaped, while everybody uses the page allocator.

The directory of a zombie is not used any more, so `exit` forgets it.  `wait` frees the `struct
proc`, an object of a slab, and no page.  Once a page has been freed that was not handed out, the
queue of free pages is not to be trusted, and the run ends there.

## Main definitions

* `LifeSys`, `LifeSys.step` — the processes and their pages.
* `LifeSys.GivesBack` — a process has given its pages back.
* `kernel_stack_kept` — no process does.
-/

namespace OsLab

/-- `ST_HEAP` -/
def stHeap : ℕ := 1 <<< 3

inductive LifePhase
  | unborn
  | created
  | running
  | zombie
  | reaped
  deriving DecidableEq

/-- The directory of a process is used no more. -/
def LifePhase.dead (ph : LifePhase) : Bool := ph = .zombie ∨ ph = .reaped

/-- A process is named by its page directory. -/
inductive LifeAct
  /-- `create_proc` -/
  | create (pd : ℕ)
  /-- `start_proc` -/
  | start (pd : ℕ)
  /-- a call of the page tables or of the allocator, by anybody -/
  | call (c : PtCall)
  /-- the sections of a process change -/
  | sections (pd : ℕ) (secs : List Section)
  | exit (pd : ℕ)
  /-- `wait` of the parent finds the process -/
  | wait (pd : ℕ)

/-- The directory `pd` is gone, with the pointers into it. -/
def PtSys.forget (s : PtSys) (pd : ℕ) : PtSys :=
  { s with
    root := Function.update s.root pd 0
    ptrs := s.ptrs.filter fun p => p.2.1 ≠ pd
    last := fun pd' x => if pd' = pd then 0 else s.last pd' x
    touched := fun pd' x => if pd' = pd then false else s.touched pd' x }

/-- The processes.  The last four fields are a record that no step reads, but for `broken`. -/
structure LifeSys where
  vm : Machine
  phase : ℕ → LifePhase
  /-- `p->kstack` -/
  kstack : ℕ → Option ℕ
  /-- the pages that `kalloc_page` returned to `init_proc`, `init_pgdir` and `get_pte` -/
  obtained : ℕ → List ℕ
  /-- the pages that `exit` and `wait` passed to `kfree_page` -/
  freed : ℕ → List ℕ
  /-- the pages that were handed out when the process called `exit` -/
  handed : ℕ → List ℕ
  /-- a page has been freed that was not handed out -/
  broken : Bool

namespace LifeSys

variable (s : LifeSys)

/-- The pages that a call has taken from the queue. -/
def takenBy (vm : Machine) : List ℕ :=
  s.vm.pt.sys.m.pages.take (s.vm.pt.sys.m.pages.length - vm.pt.sys.m.pages.length)

/-- A call of the page tables, with what it obtains for the process. -/
def ptCall (c : PtCall) : Option LifeSys := do
  let vm ← s.vm.call c
  some { s with
    vm := vm
    obtained := match c.dir with
      | some pd => Function.update s.obtained pd (s.obtained pd ++ s.takenBy vm)
      | none => s.obtained }

/-- `p->kstack = kalloc_page();` -/
def allocStack (pd : ℕ) : Option LifeSys :=
  match s.vm.pt.sys.m.kallocPage with
  | (none, _) => none
  | (some p, m) => some { s with
      vm := { s.vm with pt := s.vm.pt.setMem m }
      kstack := Function.update s.kstack pd (some p)
      obtained := Function.update s.obtained pd (s.obtained pd ++ [p]) }

/-- `create_proc`: `init_pgdir` makes an empty heap section and the tables for address 0. -/
def create (pd : ℕ) : Option LifeSys :=
  if s.phase pd ≠ .unborn ∨ s.vm.pt.root pd ≠ 0 then none
  else do
    let s ← s.ptCall (.getPte pd 0 true)
    let s ← s.allocStack pd
    some { s with
      vm := { s.vm with sections := Function.update s.vm.sections pd [⟨stHeap, 0, 0⟩] }
      phase := Function.update s.phase pd .created }

/-- `exit` of the process with directory `pd` -/
def exit (pd : ℕ) : LifeSys :=
  let st := FreeState.freePgdir pd ⟨s.vm, [], true⟩
  { s with
    vm := { st.vm with pt := st.vm.pt.forget pd }
    phase := Function.update s.phase pd .zombie
    freed := Function.update s.freed pd st.freed
    handed := Function.update s.handed pd s.vm.pt.sys.held
    broken := !(FreeState.freeSections pd ⟨s.vm, [], true⟩).proper }

def step : LifeAct → Option LifeSys
  | .create pd => if s.broken then none else s.create pd
  | .start pd =>
      if s.broken = false ∧ s.phase pd = .created then
        some { s with phase := Function.update s.phase pd .running }
      else none
  | .call c =>
      if s.broken ∨ c.dir.any (fun pd => (s.phase pd).dead) then none else s.ptCall c
  | .sections pd secs =>
      if s.broken = false ∧ s.phase pd = .running then
        some { s with vm := { s.vm with sections := Function.update s.vm.sections pd secs } }
      else none
  | .exit pd => if s.broken = false ∧ s.phase pd = .running then some (s.exit pd) else none
  | .wait pd =>
      if s.phase pd = .zombie then some { s with phase := Function.update s.phase pd .reaped }
      else none

/-- The machine after the early initializers; `e` is the end of the kernel image. -/
def start (e : ℕ) (mem : ℕ → Bytes 4096) : LifeSys where
  vm := ⟨e, .start (.init e mem), 0, fun _ => [], fun _ => false, fun _ => false, fun _ => .zero, []⟩
  phase _ := .unborn
  kstack _ := none
  obtained _ := []
  freed _ := []
  handed _ := []
  broken := false

/-- **A process has given its pages back**: each page obtained for it has been freed once, and
only these and pages that were handed out. -/
def GivesBack (pd : ℕ) : Prop :=
  (∀ p ∈ s.obtained pd, (s.freed pd).count p = 1) ∧
    ∀ p ∈ s.freed pd, p ∈ s.obtained pd ∨ p ∈ s.handed pd

/-- When a process exits, the entries for its sections lead to pages that were handed out. -/
def Proper (i : LifeAct) : Prop := ∀ pd, i = .exit pd → s.vm.UserPages pd

end LifeSys

/-! ## Freeing the tables -/

/-- A page that was neither handed out nor free. -/
theorem Acct.giveBack {all : List ℕ} {s : PageSys} (h : Acct all s) {p : ℕ} (hall : p ∈ all)
    (hp : p ∉ s.m.pages) (hheld : p ∉ s.held) :
    Acct all (s.giveBack p) ∧ (s.giveBack p).held = s.held ∧
      (s.giveBack p).m.pages = p :: s.m.pages := by
  have hz : s.m.zeroPage ≠ some p := by
    intro hz
    exact hheld (List.count_pos_iff.mp (h.refs p hz).1)
  have herase : s.held.erase p = s.held := List.erase_of_not_mem hheld
  rcases s.m.kfreePage_cases p with ⟨hz', -⟩ | ⟨hz', -⟩ | ⟨-, heq⟩
  · exact absurd hz' hz
  · exact absurd hz' hz
  · have hs : s.giveBack p =
        { s with m := PageMem.addToQueue { s.m with allocPageCnt := s.m.allocPageCnt - 1 } p } := by
      rw [PageSys.giveBack, heq, herase, if_neg hz]
      rfl
    rw [hs]
    refine ⟨?_, rfl, rfl⟩
    constructor
    case nodup => exact List.nodup_cons.mpr ⟨hp, h.nodup⟩
    case sub => exact List.cons_subset.mpr ⟨hall, h.sub⟩
    case held =>
      intro q hq
      obtain ⟨h1, h2⟩ := h.held q hq
      refine ⟨h1, ?_⟩
      rw [PageMem.addToQueue_pages, List.mem_cons, not_or]
      exact ⟨fun heq => hheld (heq ▸ hq), h2⟩
    case once => exact h.once
    case refs => exact h.refs
    case none => exact h.none
    case count =>
      have hc := h.count
      simp only [PageMem.addToQueue_pages, PageMem.addToQueue_allocPageCnt, List.length_cons]
      push_cast
      omega
    case back => exact h.back

theorem FreeState.freeAll_acct {all l : List ℕ} {st : FreeState} (h : Acct all st.vm.pt.sys)
    (hnd : l.Nodup)
    (hl : ∀ p ∈ l, p ∈ all ∧ p ∉ st.mem.pages ∧ p ∉ st.vm.pt.sys.held) :
    Acct all (st.freeAll l).vm.pt.sys ∧ (st.freeAll l).vm.pt.sys.held = st.vm.pt.sys.held ∧
      ∀ q, q ∈ (st.freeAll l).mem.pages ↔ q ∈ l ∨ q ∈ st.mem.pages := by
  induction l generalizing st with
  | nil => exact ⟨h, rfl, by simp⟩
  | cons p l ih =>
      rw [List.nodup_cons] at hnd
      obtain ⟨hall, hp, hheld⟩ := hl p (by simp)
      obtain ⟨h', hheld', hpages'⟩ := h.giveBack hall hp hheld
      have hl' : ∀ q ∈ l, q ∈ all ∧ q ∉ (st.kfreePage p).mem.pages ∧
          q ∉ (st.kfreePage p).vm.pt.sys.held := by
        intro q hq
        obtain ⟨hqa, hqp, hqh⟩ := hl q (by simp [hq])
        refine ⟨hqa, ?_, hheld' ▸ hqh⟩
        intro hmem
        rcases List.mem_cons.mp (hpages' ▸ hmem) with rfl | hmem
        · exact hnd.1 hq
        · exact hqp hmem
      obtain ⟨h₁, h₂, h₃⟩ := ih h' hnd.2 hl'
      refine ⟨h₁, h₂.trans hheld', ?_⟩
      intro q
      rw [FreeState.freeAll, List.foldl_cons]
      refine (h₃ q).trans ?_
      have : q ∈ (st.kfreePage p).mem.pages ↔ q = p ∨ q ∈ st.mem.pages := by
        rw [← List.mem_cons]
        exact iff_of_eq (congrArg (q ∈ ·) hpages')
      rw [this, List.mem_cons]
      tauto

theorem FreeState.freeAll_pt {l : List ℕ} {st : FreeState} :
    (st.freeAll l).vm.pt = { st.vm.pt with sys := (st.freeAll l).vm.pt.sys } := by
  induction l generalizing st with
  | nil => rfl
  | cons p l ih =>
      rw [FreeState.freeAll, List.foldl_cons]
      exact ih

theorem FreeState.freeAll_freed {l : List ℕ} {st : FreeState} :
    (st.freeAll l).freed = st.freed ++ l := by
  induction l generalizing st with
  | nil => simp
  | cons p l ih =>
      rw [FreeState.freeAll, List.foldl_cons]
      refine ih.trans ?_
      simp

/-- The directories without `pd`. -/
def TableMap.drop (T : TableMap) (pd : ℕ) : TableMap :=
  fun pd' k x => if pd' = pd then none else T pd' k x

theorem TableMap.drop_eq_some {T : TableMap} {pd pd' k x t : ℕ} (h : T.drop pd pd' k x = some t) :
    pd' ≠ pd ∧ T pd' k x = some t := by
  rw [TableMap.drop] at h
  split_ifs at h with hpd
  exact ⟨hpd, h⟩

theorem TableMap.drop_of_ne {T : TableMap} {pd pd' : ℕ} (h : pd' ≠ pd) (k x : ℕ) :
    T.drop pd pd' k x = T pd' k x := if_neg h

/-- **The tables of a directory are gone.** -/
theorem PtOk.forget {all : List ℕ} {T : TableMap} {st : FreeState} {pd : ℕ}
    (h : PtOk all T st.vm.pt) :
    PtOk all (T.drop pd) ((st.freeAll (below T pd 3 0)).vm.pt.forget pd) ∧
      ∀ p, Aside T st.vm.pt p →
        Aside (T.drop pd) ((st.freeAll (below T pd 3 0)).vm.pt.forget pd) p := by
  have hown : ∀ p ∈ below T pd 3 0, ∃ k x, T pd k x = some p := by
    intro p hp
    obtain ⟨j, y, -, hy, -⟩ := mem_below hp
    exact ⟨_, y, hy⟩
  have hout : ∀ pd' k x t, T.drop pd pd' k x = some t → t ∉ below T pd 3 0 := by
    intro pd' k x t ht hmem
    obtain ⟨hne, ht⟩ := TableMap.drop_eq_some ht
    obtain ⟨k', x', ht'⟩ := hown t hmem
    exact hne (h.tables.inj _ _ _ _ _ _ _ ht ht').1
  obtain ⟨hacct, hheld, hpages⟩ := FreeState.freeAll_acct (l := below T pd 3 0) h.acct
    (below_nodup h.tables le_rfl) (by
      intro p hp
      obtain ⟨k, x, ht⟩ := hown p hp
      exact ⟨(h.own _ _ _ _ ht).1, h.tables.used _ _ _ _ ht, (h.own _ _ _ _ ht).2⟩)
  have hmem : ∀ pd' k x t, T.drop pd pd' k x = some t →
      (st.freeAll (below T pd 3 0)).mem.mem t = st.mem.mem t :=
    fun pd' k x t ht => FreeState.freeAll_mem (hout pd' k x t ht)
  rw [FreeState.freeAll_pt]
  refine ⟨?_, ?_⟩
  · constructor
    case acct => exact hacct
    case good => exact h.good
    case tables =>
      constructor
      case root =>
        intro pd'
        by_cases hpd : pd' = pd
        · simp [PtSys.forget, TableMap.drop, hpd]
        · rw [TableMap.drop_of_ne hpd]
          simpa [PtSys.forget, hpd] using h.tables.root pd'
      case entry =>
        intro pd' k x t i ht hk hi
        have hne := (TableMap.drop_eq_some ht).1
        rw [TableMap.drop_of_ne hne]
        refine Eq.trans ?_ (h.tables.entry _ _ _ _ _ (TableMap.drop_eq_some ht).2 hk hi)
        exact PageMem.pte_congr (hmem _ _ _ _ ht)
      case parent =>
        intro pd' k x hT
        by_cases hpd : pd' = pd
        · simp [TableMap.drop, hpd] at hT
        · rw [TableMap.drop_of_ne hpd] at hT ⊢
          exact h.tables.parent _ _ _ hT
      case top =>
        intro pd' x hT
        by_cases hpd : pd' = pd
        · simp [TableMap.drop, hpd] at hT
        · rw [TableMap.drop_of_ne hpd] at hT
          exact h.tables.top _ _ hT
      case inj =>
        intro pd₁ k₁ x₁ pd₂ k₂ x₂ t h₁ h₂
        exact h.tables.inj _ _ _ _ _ _ _ (TableMap.drop_eq_some h₁).2 (TableMap.drop_eq_some h₂).2
      case used =>
        intro pd' k x t ht hin
        rcases (hpages t).mp hin with hin | hin
        · exact hout _ _ _ _ ht hin
        · exact h.tables.used _ _ _ _ (TableMap.drop_eq_some ht).2 hin
      case good => exact fun pd' k x t ht => h.tables.good _ _ _ _ (TableMap.drop_eq_some ht).2
    case own =>
      intro pd' k x t ht
      obtain ⟨h1, h2⟩ := h.own _ _ _ _ (TableMap.drop_eq_some ht).2
      exact ⟨h1, fun hin => h2 (hheld ▸ hin)⟩
    case leaf =>
      intro pd' x t i ht hi
      obtain ⟨hne, hT⟩ := TableMap.drop_eq_some ht
      refine (PageMem.pte_congr (hmem _ _ _ _ ht)).trans ((h.leaf _ _ _ _ hT hi).trans ?_)
      simp [PtSys.forget, hne]
    case zero =>
      intro pd' x i hT hi
      by_cases hpd : pd' = pd
      · simp [PtSys.forget, hpd]
      · rw [TableMap.drop_of_ne hpd] at hT
        simpa [PtSys.forget, hpd] using h.zero _ _ _ hT hi
    case touched =>
      intro pd' x
      by_cases hpd : pd' = pd
      · simp [PtSys.forget, TableMap.drop, hpd]
      · rw [TableMap.drop_of_ne hpd, ← h.touched]
        simp [PtSys.forget, hpd]
    case ptrs =>
      intro t i pd' v hin
      simp only [PtSys.forget, List.mem_filter, decide_eq_true_eq] at hin
      rw [TableMap.drop_of_ne hin.2]
      exact h.ptrs _ _ _ _ hin.1
  · intro p hp
    refine ⟨?_, ?_, ?_⟩
    · intro hin
      rcases (hpages p).mp hin with hin | hin
      · obtain ⟨k, x, ht⟩ := hown p hin
        exact hp.2.2 _ _ _ ht
      · exact hp.1 hin
    · exact fun hin => hp.2.1 (hheld ▸ hin)
    · exact fun pd' k x ht => hp.2.2 _ _ _ (TableMap.drop_eq_some ht).2

/-- A page is taken from the queue, and it is nobody's. -/
theorem PtOk.take {all : List ℕ} {T : TableMap} {s : PtSys} (h : PtOk all T s) {p : ℕ}
    {m : PageMem} (hm : s.sys.m.kallocPage = (some p, m)) :
    PtOk all T (s.setMem m) ∧ p ∈ all ∧ Aside T (s.setMem m) p ∧
      ∀ q, Aside T s q → Aside T (s.setMem m) q := by
  cases hp : s.sys.m.pages with
  | nil => simp [PageMem.kallocPage, PageMem.fetchFromQueue, hp] at hm
  | cons p' ps =>
      simp only [PageMem.kallocPage, PageMem.fetchFromQueue, hp, Prod.mk.injEq,
        Option.some.injEq] at hm
      obtain ⟨rfl, rfl⟩ := hm
      obtain ⟨hheld, hall, hps, -⟩ := h.acct.fetch hp
      have hsub : ∀ q, q ∈ ps → q ∈ s.sys.m.pages := fun q hq => by simp [hp, hq]
      refine ⟨?_, hall, ⟨hps, hheld, ?_⟩, ?_⟩
      · constructor
        case acct => exact h.acct.taken (l := [p']) (by simp [hp]) (by simp) ⟨rfl, rfl⟩
        case tables =>
          refine h.tables.frame (fun _ _ _ _ _ => rfl) ?_
          exact fun pd k x t ht hin => h.tables.used _ _ _ _ ht (hsub t hin)
        all_goals first | exact h.good | exact h.own | exact h.leaf | exact h.zero
                        | exact h.touched | exact h.ptrs
      · exact fun pd k x ht => h.tables.used _ _ _ _ ht (by simp [hp])
      · exact fun q hq => ⟨fun hin => hq.1 (hsub q hin), hq.2⟩

/-! ## The invariant -/

/-- **Every kernel stack is a page for itself**, and no exit has freed it. -/
structure LifeInv (all : List ℕ) (s : LifeSys) : Prop where
  sound : s.broken = false → ∃ T, PtOk all T s.vm.pt ∧
    ∀ pd p, s.kstack pd = some p → p ∈ all ∧ PtOk.Aside T s.vm.pt p
  stack : ∀ pd, s.phase pd ≠ .unborn → ∃ p, s.kstack pd = some p ∧ p ∈ s.obtained pd
  kept : ∀ pd p, s.kstack pd = some p → p ∉ s.freed pd
  fresh : ∀ pd, (s.phase pd).dead = false → s.freed pd = []

namespace LifeInv

variable {all : List ℕ} {s s' : LifeSys} {pd : ℕ} {c : PtCall}

theorem init {e : ℕ} (he : kspaceMask ≤ e) (mem : ℕ → Bytes 4096) :
    LifeInv (PageMem.init e mem).pages (LifeSys.start e mem) where
  sound _ := ⟨_, PtOk.init (PageMem.init_booted he mem), by simp [LifeSys.start]⟩
  stack := by simp [LifeSys.start]
  kept := by simp [LifeSys.start]
  fresh := by simp [LifeSys.start]

theorem ptCall (h : LifeInv all s) (hb : s.broken = false) (hs : s.ptCall c = some s') :
    LifeInv all s' ∧ s'.broken = false ∧ s'.phase = s.phase := by
  rw [LifeSys.ptCall, Machine.call, Option.bind_eq_bind, Option.bind_eq_some_iff] at hs
  obtain ⟨vm, hvm, hs⟩ := hs
  rw [Option.map_eq_some_iff] at hvm
  obtain ⟨pt, hpt, rfl⟩ := hvm
  cases hs
  refine ⟨⟨?_, ?_, h.kept, h.fresh⟩, hb, rfl⟩
  · intro _
    obtain ⟨T, hT, hk⟩ := h.sound hb
    obtain ⟨T', hT', -, -, haside⟩ := hT.step_aside hpt
    exact ⟨T', hT', fun pd p hp => ⟨(hk pd p hp).1, haside p (hk pd p hp).2⟩⟩
  · intro pd hpd
    obtain ⟨p, hp, hmem⟩ := h.stack pd hpd
    refine ⟨p, hp, ?_⟩
    cases c.dir with
    | none => exact hmem
    | some pd' =>
        by_cases heq : pd = pd'
        · subst heq
          simp [hmem]
        · simpa [heq] using hmem

theorem create (h : LifeInv all s) (hb : s.broken = false) (hs : s.create pd = some s') :
    LifeInv all s' := by
  rw [LifeSys.create] at hs
  split_ifs at hs with hfree
  rw [not_or, not_not] at hfree
  simp only [Option.bind_eq_bind, Option.bind_eq_some_iff] at hs
  obtain ⟨s₁, h₁, s₂, h₂, hs⟩ := hs
  cases hs
  obtain ⟨hi, hb₁, hphase⟩ := h.ptCall hb h₁
  rw [LifeSys.allocStack] at h₂
  split at h₂
  · cases h₂
  · rename_i p m hm
    cases h₂
    refine ⟨?_, ?_, ?_, ?_⟩
    · intro _
      obtain ⟨T, hT, hk⟩ := hi.sound hb₁
      obtain ⟨hT', hall, hp, haside⟩ := hT.take hm
      refine ⟨T, hT', ?_⟩
      intro pd' q hq
      by_cases heq : pd' = pd
      · simp only [heq, Function.update_self, Option.some.injEq] at hq
        subst hq
        exact ⟨hall, hp⟩
      · simp only [Function.update_of_ne heq] at hq
        exact ⟨(hk pd' q hq).1, haside q (hk pd' q hq).2⟩
    · intro pd' hpd'
      by_cases heq : pd' = pd
      · subst heq
        exact ⟨p, by simp, by simp⟩
      · simp only [Function.update_of_ne heq] at hpd' ⊢
        exact hi.stack pd' hpd'
    · intro pd' q hq
      by_cases heq : pd' = pd
      · subst heq
        have hnil : s₁.freed pd' = [] := hi.fresh pd' (by rw [hphase, hfree.1]; rfl)
        simp [hnil]
      · simp only [Function.update_of_ne heq] at hq
        exact hi.kept pd' q hq
    · intro pd' hpd'
      by_cases heq : pd' = pd
      · subst heq
        exact hi.fresh pd' (by rw [hphase, hfree.1]; rfl)
      · simp only [Function.update_of_ne heq] at hpd'
        exact hi.fresh pd' hpd'

/-- A process goes on. -/
theorem setPhase (h : LifeInv all s) {ph : LifePhase} (hborn : s.phase pd ≠ .unborn)
    (hdead : ph.dead = (s.phase pd).dead) :
    LifeInv all { s with phase := Function.update s.phase pd ph } := by
  refine ⟨h.sound, ?_, h.kept, ?_⟩
  · intro pd' hpd'
    by_cases heq : pd' = pd
    · exact h.stack pd' (heq ▸ hborn)
    · exact h.stack pd' (by simpa [heq] using hpd')
  · intro pd' hpd'
    by_cases heq : pd' = pd
    · exact h.fresh pd' (by simpa [heq, hdead] using hpd')
    · exact h.fresh pd' (by simpa [heq] using hpd')

/-- **What `exit` frees**: neither `free_sections` nor `free_pt_r` comes near a kernel stack. -/
theorem exit (h : LifeInv all s) (hb : s.broken = false) (hrun : s.phase pd = .running)
    (hzero : p2k 0 ∉ all) (huser : s.vm.UserPages pd) : LifeInv all (s.exit pd) := by
  obtain ⟨T, hT, hk⟩ := h.sound hb
  let st : FreeState := ⟨s.vm, [], true⟩
  have hclear : st.Cleared all T (st.freeSections pd) :=
    FreeState.cleared_freeSections hT hzero huser
  have hfree : st.freePgdir pd = (st.freeSections pd).freeAll (below T pd 3 0) :=
    FreeState.freePgdir_eq hT hzero huser
  refine ⟨?_, ?_, ?_, ?_⟩
  · intro hprop
    have hok := hclear.ok (by simpa [LifeSys.exit] using hprop)
    obtain ⟨hT', haside⟩ := hok.forget
    refine ⟨T.drop pd, ?_, ?_⟩
    · simp only [LifeSys.exit, st, hfree]
      exact hT'
    · intro pd' p hp
      obtain ⟨hall, hp⟩ := hk pd' p hp
      refine ⟨hall, ?_⟩
      simp only [LifeSys.exit, st, hfree]
      refine haside p ⟨?_, fun hin => hp.2.1 (hclear.held hin), hp.2.2⟩
      intro hin
      rcases hclear.pages p hin with hin | hin
      · exact hp.1 hin
      · rcases hclear.freed p hin with hin | hin | rfl
        · cases hin
        · exact hp.2.1 hin
        · exact hzero hall
  · intro pd' hpd'
    by_cases heq : pd' = pd
    · exact h.stack pd' (by simp [heq, hrun])
    · exact h.stack pd' (by simpa [LifeSys.exit, heq] using hpd')
  · intro pd' p hp
    by_cases heq : pd' = pd
    · subst heq
      obtain ⟨hall, hp⟩ := hk pd' p hp
      have hfreed : (s.exit pd').freed pd' = (st.freeSections pd').freed ++ below T pd' 3 0 := by
        rw [← FreeState.freeAll_freed, ← hfree]
        simp [LifeSys.exit, st]
      rw [hfreed, List.mem_append, not_or]
      constructor
      · intro hin
        rcases hclear.freed p hin with hin | hin | rfl
        · cases hin
        · exact hp.2.1 hin
        · exact hzero hall
      · intro hin
        obtain ⟨j, y, -, hy, -⟩ := mem_below hin
        exact hp.2.2 _ _ _ hy
    · simpa [LifeSys.exit, heq] using h.kept pd' p hp
  · intro pd' hpd'
    by_cases heq : pd' = pd
    · simp [LifeSys.exit, heq, LifePhase.dead] at hpd'
    · simpa [LifeSys.exit, heq] using h.fresh pd' (by simpa [LifeSys.exit, heq] using hpd')

theorem step (h : LifeInv all s) (hzero : p2k 0 ∉ all) {i : LifeAct} (hok : s.Proper i)
    (hs : s.step i = some s') : LifeInv all s' := by
  cases i with
  | create pd =>
      simp only [LifeSys.step, Option.ite_none_left_eq_some, Bool.not_eq_true] at hs
      exact h.create hs.1 hs.2
  | start pd =>
      simp only [LifeSys.step, Option.ite_none_right_eq_some, Option.some.injEq] at hs
      obtain ⟨⟨-, hph⟩, rfl⟩ := hs
      exact h.setPhase (by simp [hph]) (by simp [hph, LifePhase.dead])
  | call c =>
      simp only [LifeSys.step, Option.ite_none_left_eq_some, not_or, Bool.not_eq_true] at hs
      exact (h.ptCall hs.1.1 hs.2).1
  | sections pd secs =>
      simp only [LifeSys.step, Option.ite_none_right_eq_some, Option.some.injEq] at hs
      obtain ⟨-, rfl⟩ := hs
      exact ⟨h.sound, h.stack, h.kept, h.fresh⟩
  | exit pd =>
      simp only [LifeSys.step, Option.ite_none_right_eq_some, Option.some.injEq] at hs
      obtain ⟨⟨hb, hrun⟩, rfl⟩ := hs
      exact h.exit hb hrun hzero (hok pd rfl)
  | wait pd =>
      simp only [LifeSys.step, Option.ite_none_right_eq_some, Option.some.injEq] at hs
      obtain ⟨hph, rfl⟩ := hs
      exact h.setPhase (by simp [hph]) (by simp [hph, LifePhase.dead])

/-- The kernel stack of a process is not among the pages it has given back. -/
theorem not_givesBack (h : LifeInv all s) (hpd : s.phase pd = .reaped) : ¬ s.GivesBack pd := by
  rintro ⟨hall, -⟩
  obtain ⟨p, hp, hmem⟩ := h.stack pd (by simp [hpd])
  have hone := hall p hmem
  rw [List.count_eq_zero_of_not_mem (h.kept pd p hp)] at hone
  cases hone

end LifeInv

theorem PageMem.p2k_zero_notMem {e : ℕ} (he : kspaceMask ≤ e) (mem : ℕ → Bytes 4096) :
    p2k 0 ∉ (PageMem.init e mem).pages := by
  rw [(PageMem.init_spec e mem).1, List.mem_reverse, List.mem_map]
  rintro ⟨i, -, hi⟩
  simp only [firstPage, pageBase, pageSize, p2k, kspaceMask] at *
  omega

theorem LifeInv.reach {e : ℕ} (he : kspaceMask ≤ e) {mem : ℕ → Bytes 4096} {s : LifeSys}
    (h : Reach LifeSys.step LifeSys.Proper (LifeSys.start e mem) s) :
    LifeInv (PageMem.init e mem).pages s :=
  h.invariant (LifeInv.init he mem) fun _ _ _ hinv hok hs =>
    hinv.step (PageMem.p2k_zero_notMem he mem) hok hs

/-- **No process gives its pages back**: its kernel stack is never freed. -/
theorem kernel_stack_kept (e : ℕ) (he : kspaceMask ≤ e) (mem : ℕ → Bytes 4096) (s : LifeSys)
    (h : Reach LifeSys.step LifeSys.Proper (LifeSys.start e mem) s) (pd : ℕ)
    (hpd : s.phase pd = .reaped) : ¬ s.GivesBack pd :=
  (LifeInv.reach he h).not_givesBack hpd

/-- Where there are five pages, a process can be created. -/
theorem LifeSys.create_progress {s : LifeSys} {pd : ℕ} (hph : s.phase pd = .unborn)
    (hroot : s.vm.pt.root pd = 0) (hlen : 5 ≤ s.vm.pt.sys.m.pages.length) :
    ∃ s', s.create pd = some s' ∧ s'.phase pd = .created ∧ s'.broken = s.broken ∧
      s'.vm.sections pd = [⟨stHeap, 0, 0⟩] := by
  obtain ⟨slot, pt, m, hg, hroom⟩ := s.vm.pt.sys.m.getPte_room (s.vm.pt.root pd) 0 (by omega)
  obtain ⟨s₁, h₁, hm₁, hb₁⟩ : ∃ s₁, s.ptCall (.getPte pd 0 true) = some s₁ ∧
      s₁.vm.pt.sys.m = m ∧ s₁.broken = s.broken := by
    rw [LifeSys.ptCall, Machine.call, PtSys.step, hg]
    exact ⟨_, rfl, rfl, rfl⟩
  have hne : m.pages ≠ [] := by
    intro hnil
    rw [hnil] at hroom
    simp only [List.length_nil] at hroom
    omega
  obtain ⟨p, m', hk⟩ : ∃ p m', m.kallocPage = (some p, m') := by
    cases hp : m.pages with
    | nil => exact absurd hp hne
    | cons p ps =>
        rw [PageMem.kallocPage, PageMem.fetchFromQueue]
        exact ⟨p, _, by simp [hp]; rfl⟩
  rw [LifeSys.create, if_neg (by simp [hph, hroot]), h₁, Option.bind_eq_bind, Option.bind_some,
    LifeSys.allocStack, hm₁, hk]
  exact ⟨_, rfl, by simp, hb₁, by simp⟩

/-- A process is created and started, exits and is reaped. -/
theorem one_life : ∃ s, Reach LifeSys.step LifeSys.Proper
    (LifeSys.start (kspaceMask + 0x100000) fun _ => .zero) s ∧ s.phase 1 = .reaped := by
  have hlen : 5 ≤ (PageMem.init (kspaceMask + 0x100000) fun _ => .zero).pages.length := by
    rw [PageMem.init_length]
    decide
  obtain ⟨s₁, h₁, hph, hb, hsec⟩ :
      ∃ s', (LifeSys.start (kspaceMask + 0x100000) fun _ => .zero).create 1 = some s' ∧
        s'.phase 1 = .created ∧ s'.broken = false ∧ s'.vm.sections 1 = [⟨stHeap, 0, 0⟩] :=
    LifeSys.create_progress rfl rfl hlen
  have r₁ : Reach LifeSys.step LifeSys.Proper
      (LifeSys.start (kspaceMask + 0x100000) fun _ => .zero) s₁ :=
    Reach.init.step (i := LifeAct.create 1) (by rintro pd ⟨⟩) h₁
  let s₂ : LifeSys := { s₁ with phase := Function.update s₁.phase 1 .running }
  have h₂ : s₁.step (.start 1) = some s₂ := if_pos ⟨hb, hph⟩
  have r₂ := r₁.step (by rintro pd ⟨⟩) h₂
  have huser : s₂.Proper (.exit 1) := by
    rintro pd ⟨⟩ sec hsec' addr hlo hhi
    rw [show s₂.vm.sections 1 = [⟨stHeap, 0, 0⟩] from hsec, List.mem_singleton] at hsec'
    subst hsec'
    simp at hhi
  have r₃ := r₂.step huser (if_pos ⟨hb, by simp [s₂]⟩)
  have h₄ : (s₂.exit 1).step (.wait 1) = some { s₂.exit 1 with
      phase := Function.update (s₂.exit 1).phase 1 .reaped } := by
    rw [LifeSys.step, if_pos (by simp [LifeSys.exit])]
  exact ⟨_, r₃.step (by rintro pd ⟨⟩) h₄, by simp⟩

theorem kernel_stack_kept_one : ∃ s, Reach LifeSys.step LifeSys.Proper
    (LifeSys.start (kspaceMask + 0x100000) fun _ => .zero) s ∧ s.phase 1 = .reaped ∧
      ¬ s.GivesBack 1 := by
  obtain ⟨s, hs, hph⟩ := one_life
  exact ⟨s, hs, hph, kernel_stack_kept _ (by decide) _ s hs 1 hph⟩

/-- **The process of `one_life` keeps its kernel stack.** -/
theorem reaped_without_stack : ¬ ∀ (s : LifeSys), Reach LifeSys.step LifeSys.Proper
    (LifeSys.start (kspaceMask + 0x100000) fun _ => .zero) s → ∀ pd, s.phase pd = .reaped →
      s.GivesBack pd := by
  intro hall
  obtain ⟨s, hs, hph⟩ := one_life
  exact (LifeInv.reach (by decide) hs).not_givesBack hph (hall s hs 1 hph)

end OsLab
