import OsLab.Kernel.ExitWait
import Mathlib.Data.Set.Card

/-!
# Pids

`create_proc` takes a pid from `global_pids` and `exit` puts it back, while the dead
process keeps it until it is reaped.  As long as fewer than `PID_NUM - 1` processes are
alive and no process gets into the tree with the pid of a dead one, a pid names one
process of the tree, and `dfs` finds it.

## Main definitions

* `Pids` — the pool has the pids of nobody who is alive.
* `Ordered` — parents are older than their children.
* `PidsIdentify` — a pid names one process.
* `pids_identify` — that holds in the runs that give no pid away twice.
-/

namespace OsLab

namespace ProcSys

variable (s : ProcSys)

/-- In the process tree, and not reaped. -/
def inTree (p : ℕ) : Prop := s.allocated p = true ∧ (s.proc p).parent ≠ none

/-- The processes that have not exited. -/
def live : Set ℕ := {p | s.allocated p = true ∧ s.exited p = false}

theorem mem_live {p : ℕ} : p ∈ s.live ↔ s.allocated p = true ∧ s.exited p = false := Iff.rfl

/-- A pid is left, and no dead process in the tree has the pid of one that gets there. -/
def PidFree (i : ℕ × ProcAct) : Prop :=
  match i.2 with
  | .createProc _ => s.live.ncard < pidNum - 1
  | .setParentToThis c => ∀ d, s.inTree d → s.exited d = true → (s.proc d).pid ≠ (s.proc c).pid
  | .startProc c => ∀ d, s.inTree d → s.exited d = true → (s.proc d).pid ≠ (s.proc c).pid
  | _ => True

end ProcSys

/-- **A pid names one process of the tree.** -/
structure PidsIdentify (s : ProcSys) : Prop where
  distinct : ∀ p q, s.inTree p → s.inTree q → (s.proc p).pid = (s.proc q).pid → p = q
  range : ∀ p, s.allocated p = true → 0 ≤ (s.proc p).pid ∧ (s.proc p).pid < pidNum
  /-- no pid was read behind the array -/
  inside : s.pids.avail ≤ pidNum
  dfs : ∀ p, s.inTree p → (s.proc p).state ≠ .unused →
    s.dfs (s.proc p).pid s.births ProcSys.root = some p
  kill : ∀ t p, s.inTree p → (s.proc p).state ≠ .unused → s.kill t (s.proc p).pid =
    (s.setProc p { s.proc p with killed := true }).setPhase t (.alerting p (s.proc p).birth)

/-- The pids that are in use and those that are not. -/
structure Pids (s : ProcSys) : Prop where
  finite : s.live.Finite
  count : s.pids.avail = s.live.ncard + 1
  bound : s.pids.avail ≤ pidNum
  range : ∀ p, s.allocated p = true → 0 ≤ (s.proc p).pid ∧ (s.proc p).pid < pidNum
  inj : ∀ p q, p ∈ s.live → q ∈ s.live → (s.proc p).pid = (s.proc q).pid → p = q
  free : ∀ i, s.pids.avail ≤ i → i < pidNum →
    (0 ≤ s.pids.freelist i ∧ s.pids.freelist i < pidNum) ∧
    ∀ p ∈ s.live, (s.proc p).pid ≠ s.pids.freelist i
  freeInj : ∀ i j, s.pids.avail ≤ i → i < j → j < pidNum →
    s.pids.freelist i ≠ s.pids.freelist j
  tree : ∀ p q, s.inTree p → s.inTree q → (s.proc p).pid = (s.proc q).pid → p = q

/-- Whoever had a process made, or is its parent, was there before it, and is in the tree. -/
structure Ordered (s : ProcSys) : Prop where
  root : (s.proc ProcSys.root).birth = 0
  creator : ∀ c, s.allocated c = true → c ≠ ProcSys.root →
    (s.proc c).creator < (s.proc c).birth
  parent : ∀ c p, s.allocated c = true → c ≠ ProcSys.root → (s.proc c).parent = some p →
    (s.proc p).birth < (s.proc c).birth ∧ (s.proc p).parent ≠ none
  container : ∀ c, s.allocated c = true →
    (s.proc (s.rootproc (s.proc c).container)).birth ≤ (s.proc c).birth ∧
    (s.rootproc (s.proc c).container ≠ c →
      (s.proc (s.rootproc (s.proc c).container)).parent ≠ none)

/-! ## The pids under each step -/

namespace Pids

variable {s s' : ProcSys}

theorem init (junk : ℕ → ℤ) : Pids (ProcSys.start junk) := by
  have hlive : (ProcSys.start junk).live = {ProcSys.root} := by
    ext p
    simp [ProcSys.live, ProcSys.start, ProcSys.exited]
  have halloc : ∀ p, (ProcSys.start junk).allocated p = true → p = ProcSys.root := by
    simp [ProcSys.start]
  constructor
  case finite =>
    rw [hlive]
    exact Set.finite_singleton _
  case count =>
    rw [hlive, Set.ncard_singleton]
    rfl
  case bound => simp [ProcSys.start, pidNum]
  case range => simp [ProcSys.start, pidNum]
  case inj =>
    intro p q hp hq _
    rw [hlive] at hp hq
    exact hp.trans hq.symm
  case free =>
    intro i hi hn
    have hi : 2 ≤ i := hi
    simp only [ProcSys.start, PidPool.init, if_pos hn]
    exact ⟨by omega, fun p _ => by omega⟩
  case freeInj =>
    intro i j hi hij hj
    simp only [ProcSys.start, PidPool.init, if_pos hj, if_pos (hij.trans hj)]
    omega
  case tree =>
    intro p q hp hq _
    rw [halloc p hp.1, halloc q hq.1]

/-- Nobody is created and nobody dies. -/
theorem congr (h : Pids s) (hlive : s'.live = s.live)
    (halloc : ∀ q, s'.allocated q = true → s.allocated q = true) (hpids : s'.pids = s.pids)
    (hpid : ∀ q, (s'.proc q).pid = (s.proc q).pid)
    (htree : ∀ p q, s'.inTree p → s'.inTree q → (s.proc p).pid = (s.proc q).pid → p = q) :
    Pids s' := by
  constructor
  case finite =>
    rw [hlive]
    exact h.finite
  case count =>
    rw [hlive, hpids]
    exact h.count
  case bound =>
    rw [hpids]
    exact h.bound
  case range =>
    intro p hp
    rw [hpid p]
    exact h.range p (halloc p hp)
  case inj =>
    intro p q hp hq
    rw [hlive] at hp hq
    rw [hpid p, hpid q]
    exact h.inj p q hp hq
  case free =>
    intro i
    rw [hpids, hlive]
    simp only [hpid]
    exact h.free i
  case freeInj =>
    rw [hpids]
    exact h.freeInj
  case tree =>
    intro p q hp hq
    rw [hpid p, hpid q]
    exact htree p q hp hq

/-- The tree has the same processes, or fewer. -/
theorem congr_tree (h : Pids s) (hlive : s'.live = s.live)
    (halloc : ∀ q, s'.allocated q = true → s.allocated q = true) (hpids : s'.pids = s.pids)
    (hpid : ∀ q, (s'.proc q).pid = (s.proc q).pid)
    (hpar : ∀ q, (s'.proc q).parent = none ↔ (s.proc q).parent = none) : Pids s' := by
  refine h.congr hlive halloc hpids hpid ?_
  intro p q hp hq
  exact h.tree p q ⟨halloc p hp.1, (hpar p).not.mp hp.2⟩ ⟨halloc q hq.1, (hpar q).not.mp hq.2⟩

/-- `c` gets into the tree. -/
theorem enter (h : Pids s) {c : ℕ} (hc : c ∈ s.live)
    (hfree : ∀ d, s.inTree d → s.exited d = true → (s.proc d).pid ≠ (s.proc c).pid)
    (hlive : s'.live = s.live) (halloc : s'.allocated = s.allocated) (hpids : s'.pids = s.pids)
    (hpid : ∀ q, (s'.proc q).pid = (s.proc q).pid)
    (hpar : ∀ q, q ≠ c → (s'.proc q).parent = (s.proc q).parent) : Pids s' := by
  have hnew : ∀ q, q ≠ c → s'.inTree q → (s.proc q).pid ≠ (s.proc c).pid := by
    intro q hqc hq heq
    have hqt : s.inTree q := ⟨by rw [← halloc]; exact hq.1, by rw [← hpar q hqc]; exact hq.2⟩
    cases he : s.exited q with
    | true => exact hfree q hqt he heq
    | false => exact hqc (h.inj q c ⟨hqt.1, he⟩ hc heq)
  refine h.congr hlive (fun q hq => by rw [← halloc]; exact hq) hpids hpid ?_
  intro p q hp hq heq
  by_cases hpc : p = c
  · subst hpc
    by_contra hne
    exact hnew q (Ne.symm hne) hq heq.symm
  · by_cases hqc : q = c
    · subst hqc
      exact absurd heq (hnew p hpc hp)
    · refine h.tree p q ⟨by rw [← halloc]; exact hp.1, ?_⟩ ⟨by rw [← halloc]; exact hq.1, ?_⟩ heq
      · rw [← hpar p hpc]
        exact hp.2
      · rw [← hpar q hqc]
        exact hq.2

theorem createProc (h : Pids s) {t a : ℕ} (ha : s.allocated a = false)
    (hd : s.dying ≠ some a) (hroom : s.live.ncard < pidNum - 1) : Pids (s.createProc t a) := by
  set s' := s.createProc t a with hs'
  have hproc : ∀ q, q ≠ a → s'.proc q = s.proc q := by
    intro q hq
    simp [hs', ProcSys.createProc, hq]
  have halloc : ∀ q, q ≠ a → s'.allocated q = s.allocated q := by
    intro q hq
    simp [hs', ProcSys.createProc, hq]
  have hpida : (s'.proc a).pid = s.pids.freelist s.pids.avail := by
    simp [hs', ProcSys.createProc, PidPool.take]
  have hpids : s'.pids = ⟨s.pids.freelist, s.pids.avail + 1⟩ := rfl
  have hna : a ∉ s.live := by simp [ProcSys.mem_live, ha]
  have hne : ∀ q ∈ s.live, q ≠ a := fun q hq hqa => hna (hqa ▸ hq)
  have hlive : s'.live = insert a s.live := by
    ext q
    by_cases hq : q = a
    · subst hq
      simpa [hs', ProcSys.mem_live, ProcSys.createProc, ProcSys.exited] using hd
    · simp only [ProcSys.mem_live, ProcSys.exited, Set.mem_insert_iff, hq, false_or, halloc q hq,
        hproc q hq]
      rfl
  have hcount := h.count
  have havail : s.pids.avail < pidNum := by omega
  obtain ⟨htop, hother⟩ := h.free _ (le_refl _) havail
  constructor
  case finite =>
    rw [hlive]
    exact h.finite.insert a
  case count => rw [hlive, Set.ncard_insert_of_notMem hna h.finite, hpids, hcount]
  case bound =>
    rw [hpids]
    exact havail
  case range =>
    intro p hp
    by_cases hpa : p = a
    · subst hpa
      rw [hpida]
      exact htop
    · rw [halloc p hpa] at hp
      rw [hproc p hpa]
      exact h.range p hp
  case inj =>
    intro p q hp hq heq
    rw [hlive] at hp hq
    rcases Set.mem_insert_iff.mp hp with rfl | hpl
    · rcases Set.mem_insert_iff.mp hq with rfl | hql
      · rfl
      · rw [hpida, hproc q (hne q hql)] at heq
        exact absurd heq.symm (hother q hql)
    · rw [hproc p (hne p hpl)] at heq
      rcases Set.mem_insert_iff.mp hq with rfl | hql
      · rw [hpida] at heq
        exact absurd heq (hother p hpl)
      · rw [hproc q (hne q hql)] at heq
        exact h.inj p q hpl hql heq
  case free =>
    intro i hi hn
    rw [hpids] at hi ⊢
    have hi : s.pids.avail + 1 ≤ i := hi
    obtain ⟨h1, h2⟩ := h.free i (by omega) hn
    refine ⟨h1, ?_⟩
    intro p hp
    rw [hlive] at hp
    rcases Set.mem_insert_iff.mp hp with rfl | hp
    · rw [hpida]
      exact h.freeInj _ i (le_refl _) hi hn
    · rw [hproc p (hne p hp)]
      exact h2 p hp
  case freeInj =>
    intro i j hi
    rw [hpids] at hi ⊢
    have hi : s.pids.avail + 1 ≤ i := hi
    exact h.freeInj i j (by omega)
  case tree =>
    have hin : ∀ q, s'.inTree q → q ≠ a ∧ s.inTree q := by
      intro q hq
      have hqa : q ≠ a := by
        rintro rfl
        exact hq.2 (by simp [hs', ProcSys.createProc])
      refine ⟨hqa, ?_, ?_⟩
      · rw [← halloc q hqa]
        exact hq.1
      · rw [← hproc q hqa]
        exact hq.2
    intro p q hp hq
    obtain ⟨hpa, hp⟩ := hin p hp
    obtain ⟨hqa, hq⟩ := hin q hq
    rw [hproc p hpa, hproc q hqa]
    exact h.tree p q hp hq

theorem exit (h : Pids s) {t : ℕ} {kids : List ℕ} (ht : t ∈ s.live) (hf : ExitFrame s s' t kids)
    (hkids : ∀ q ∈ kids, (s.proc q).parent ≠ none) : Pids s' := by
  have hproc : ∀ q, (s'.proc q).pid = (s.proc q).pid := by
    intro q
    rw [hf.proc q]
  have halloc : s'.allocated = s.allocated := by rw [hf.same]
  have hlive : s'.live = s.live \ {t} := by
    ext q
    rw [ProcSys.mem_live, halloc, hf.exited]
    simp [ProcSys.mem_live, and_assoc]
  have hcount := h.count
  have hpos : 0 < s.live.ncard := (Set.ncard_pos h.finite).mpr ⟨t, ht⟩
  have hbound := h.bound
  have hpids : s'.pids = s.pids.give (s.proc t).pid := by rw [hf.same]
  have havail : s'.pids.avail = s.pids.avail - 1 := by rw [hpids, PidPool.give]
  -- the pid is put back below all that are free
  have hnew : s'.pids.freelist (s.pids.avail - 1) = (s.proc t).pid := by
    rw [hpids]
    exact Function.update_self _ _ _
  have hold : ∀ i, s.pids.avail ≤ i → s'.pids.freelist i = s.pids.freelist i := by
    intro i hi
    rw [hpids]
    exact Function.update_of_ne (by omega) _ _
  constructor
  case finite =>
    rw [hlive]
    exact h.finite.sdiff
  case count =>
    rw [hlive, Set.ncard_sdiff_singleton_of_mem ht, havail]
    omega
  case bound => omega
  case range =>
    intro p hp
    rw [halloc] at hp
    rw [hproc p]
    exact h.range p hp
  case inj =>
    intro p q hp hq
    rw [hlive] at hp hq
    rw [hproc p, hproc q]
    exact h.inj p q hp.1 hq.1
  case free =>
    intro i hi hn
    rw [hlive]
    by_cases hit : i = s.pids.avail - 1
    · subst hit
      rw [hnew]
      refine ⟨h.range t ht.1, ?_⟩
      intro p hp heq
      rw [hproc p] at heq
      exact hp.2 (h.inj p t hp.1 ht heq)
    · rw [hold i (by omega)]
      obtain ⟨h1, h2⟩ := h.free i (by omega) hn
      refine ⟨h1, ?_⟩
      intro p hp
      rw [hproc p]
      exact h2 p hp.1
  case freeInj =>
    intro i j hi hij hj
    rw [hold j (by omega)]
    by_cases hit : i = s.pids.avail - 1
    · subst hit
      rw [hnew]
      exact (h.free j (by omega) hj).2 t ht
    · rw [hold i (by omega)]
      exact h.freeInj i j (by omega) hij hj
  case tree =>
    have hin : ∀ q, s'.inTree q → s.inTree q := by
      intro q hq
      refine ⟨by rw [← halloc]; exact hq.1, ?_⟩
      by_cases hqk : q ∈ kids
      · exact hkids q hqk
      · have hpar := hq.2
        rw [hf.proc q] at hpar
        simpa [hqk] using hpar
    intro p q hp hq
    rw [hproc p, hproc q]
    exact h.tree p q (hin p hp) (hin q hq)

end Pids

/-! ## The order of births -/

namespace Ordered

variable {s s' : ProcSys} {kids : ℕ → List ℕ} {t c : ℕ}

theorem init (junk : ℕ → ℤ) : Ordered (ProcSys.start junk) := by
  have halloc : ∀ p, (ProcSys.start junk).allocated p = true → p = ProcSys.root := by
    simp [ProcSys.start]
  refine ⟨rfl, ?_, ?_, ?_⟩
  · intro c hc hr
    exact absurd (halloc c hc) hr
  · intro c p hc hr
    exact absurd (halloc c hc) hr
  · intro c _
    exact ⟨le_refl _, by simp [ProcSys.start]⟩

/-- Nobody is created. -/
theorem congr (h : Ordered s) (halloc : ∀ q, s'.allocated q = true → s.allocated q = true)
    (hproc : ∀ q, (s'.proc q).birth = (s.proc q).birth ∧ (s'.proc q).creator = (s.proc q).creator)
    (hnone : ∀ q, (s'.proc q).parent = none → (s.proc q).parent = none)
    (hparent : ∀ c p, s.allocated c = true → c ≠ ProcSys.root → (s'.proc c).parent = some p →
      (s.proc c).parent = some p ∨
        (s.proc p).birth < (s.proc c).birth ∧ (s.proc p).parent ≠ none)
    (hcontainer : ∀ c, s.allocated c = true →
      (s.proc (s'.rootproc (s'.proc c).container)).birth ≤ (s.proc c).birth ∧
      (s'.rootproc (s'.proc c).container ≠ c →
        (s.proc (s'.rootproc (s'.proc c).container)).parent ≠ none)) : Ordered s' := by
  refine ⟨?_, ?_, ?_, ?_⟩
  · rw [(hproc _).1]
    exact h.root
  · intro c hc hr
    rw [(hproc c).1, (hproc c).2]
    exact h.creator c (halloc c hc) hr
  · intro c p hc hr hp
    rw [(hproc c).1, (hproc p).1]
    have hold : (s.proc p).birth < (s.proc c).birth ∧ (s.proc p).parent ≠ none := by
      rcases hparent c p (halloc c hc) hr hp with hp | hlt
      · exact h.parent c p (halloc c hc) hr hp
      · exact hlt
    exact ⟨hold.1, fun hn => hold.2 (hnone p hn)⟩
  · intro c hc
    rw [(hproc _).1, (hproc c).1]
    obtain ⟨h1, h2⟩ := hcontainer c (halloc c hc)
    exact ⟨h1, fun hne hn => h2 hne (hnone _ hn)⟩

theorem createProc (h : Ordered s) (hf : Family s kids) {a : ℕ} (ha : s.allocated a = false)
    (ht : s.allocated t = true) : Ordered (s.createProc t a) := by
  have hroot := ProcSys.ne_of_free ha hf.root.1
  refine ⟨?_, ?_, ?_, ?_⟩
  · rw [ProcSys.createProc_proc_of_ne hroot]
    exact h.root
  · intro c hc hr
    rcases ProcSys.createProc_allocated.mp hc with rfl | hc
    · rw [ProcSys.createProc_proc_self]
      exact hf.birth t ht
    · rw [ProcSys.createProc_proc_of_ne (ProcSys.ne_of_free ha hc)]
      exact h.creator c hc hr
  · intro c p hc hr hp
    rcases ProcSys.createProc_allocated.mp hc with rfl | hc
    · rw [ProcSys.createProc_proc_self] at hp
      cases hp
    · rw [ProcSys.createProc_proc_of_ne (ProcSys.ne_of_free ha hc)] at hp ⊢
      have hpa := ProcSys.ne_of_free ha (hf.parent c p hc hp).1
      rw [ProcSys.createProc_proc_of_ne hpa]
      exact h.parent c p hc hr hp
  · intro c hc
    rcases ProcSys.createProc_allocated.mp hc with rfl | hc
    · rw [ProcSys.createProc_proc_self]
      change ((s.createProc t c).proc (s.rootproc 0)).birth ≤ s.births ∧
        (_ → ((s.createProc t c).proc (s.rootproc 0)).parent ≠ _)
      rw [hf.root.2.2.1, ProcSys.createProc_proc_of_ne hroot, h.root]
      exact ⟨Nat.zero_le _, fun _ => by simp [hf.root]⟩
    · have hra := ProcSys.ne_of_free ha (hf.rootproc _ (hf.container c hc)).1
      rw [ProcSys.createProc_proc_of_ne (ProcSys.ne_of_free ha hc)]
      change ((s.createProc t a).proc (s.rootproc (s.proc c).container)).birth ≤ _ ∧
        (_ → ((s.createProc t a).proc (s.rootproc (s.proc c).container)).parent ≠ _)
      rw [ProcSys.createProc_proc_of_ne hra]
      exact h.container c hc

theorem addChild (h : Ordered s) {p : ℕ} (hlt : (s.proc p).birth < (s.proc c).birth)
    (hp : (s.proc p).parent ≠ none) : Ordered (s.addChild p c) := by
  refine h.congr (fun _ hq => hq) ?_ ?_ ?_ ?_
  · intro q
    rw [ProcSys.addChild_proc]
    exact ⟨rfl, rfl⟩
  · intro q hn
    rw [ProcSys.addChild_proc] at hn
    by_cases hq : q = c
    · simp [hq] at hn
    · simpa [hq] using hn
  · intro q r _ _ hr
    rw [ProcSys.addChild_proc] at hr
    by_cases hq : q = c
    · subst hq
      have hr : p = r := by simpa using hr
      exact .inr (hr ▸ ⟨hlt, hp⟩)
    · exact .inl (by simpa [hq] using hr)
  · intro q hq
    rw [ProcSys.addChild_proc]
    exact h.container q hq

theorem exit (h : Ordered s) (ht : s.allocated t = true) {ks : List ℕ} (hf : ExitFrame s s' t ks)
    (hkids : ∀ q ∈ ks, q ≠ ProcSys.root → (s.proc q).parent = some t) : Ordered s' := by
  refine h.congr ?_ ?_ ?_ ?_ ?_
  · intro q
    rw [hf.same]
    exact id
  · intro q
    rw [hf.proc q]
    exact ⟨rfl, rfl⟩
  · intro q hn
    rw [hf.proc q] at hn
    by_cases hqk : q ∈ ks
    · simp [hqk] at hn
    · simpa [hqk] using hn
  · intro c p hc hr hp
    rw [hf.proc c] at hp
    by_cases hck : c ∈ ks
    · -- an orphan is younger than its parent, which is no older than the root of the container
      have hp : s.rootproc (s.proc t).container = p := by simpa [hck] using hp
      obtain ⟨hlt, -⟩ := h.parent c t hc hr (hkids c hck hr)
      obtain ⟨hle, hpar⟩ := h.container t ht
      rw [hp] at hle
      have hpar := hpar hf.notRoot.symm
      rw [hp] at hpar
      exact .inr ⟨by omega, hpar⟩
    · exact .inl (by simpa [hck] using hp)
  · intro c hc
    rw [hf.proc c, hf.same]
    exact h.container c hc

end Ordered

/-! ## Steps -/

/-- Nobody is created, dies, or gets another place. -/
structure Steady (s s' : ProcSys) : Prop where
  live : s'.live = s.live
  alloc : ∀ q, s'.allocated q = true → s.allocated q = true
  pids : s'.pids = s.pids
  rootproc : s'.rootproc = s.rootproc
  proc : ∀ q, (s'.proc q).pid = (s.proc q).pid ∧ (s'.proc q).birth = (s.proc q).birth ∧
    (s'.proc q).creator = (s.proc q).creator ∧ (s'.proc q).container = (s.proc q).container ∧
    (s'.proc q).parent = (s.proc q).parent

namespace Steady

variable {s s' : ProcSys} {t c : ℕ}

theorem of_setProc {x : Proc} (hs : s' = { s with
      proc := Function.update s.proc c x
      phase := s'.phase
      localPids := s'.localPids })
    (hx : x = { s.proc c with
      childexit := x.childexit
      state := x.state
      killed := x.killed
      localpid := x.localpid })
    (hz : x.state = .zombie ↔ (s.proc c).state = .zombie) : Steady s s' := by
  have hproc : ∀ q, q ≠ c → s'.proc q = s.proc q := by
    intro q hq
    rw [hs]
    simp [hq]
  have hprocc : s'.proc c = x := by
    rw [hs]
    simp
  have hexit : s'.exited = s.exited := by
    have hd : s'.dying = s.dying := by rw [hs]
    funext q
    by_cases hq : q = c
    · subst hq
      simp only [ProcSys.exited, hprocc, hd, hz]
    · simp only [ProcSys.exited, hproc q hq, hd]
  have halloc : s'.allocated = s.allocated := by rw [hs]
  refine ⟨?_, fun q hq => halloc ▸ hq, by rw [hs], by rw [hs], ?_⟩
  · simp only [ProcSys.live, halloc, hexit]
  · intro q
    by_cases hq : q = c
    · subst hq
      rw [hprocc, hx]
      exact ⟨rfl, rfl, rfl, rfl, rfl⟩
    · rw [hproc q hq]
      exact ⟨rfl, rfl, rfl, rfl, rfl⟩

theorem of_goesOn (hg : s.GoesOn t s') (hrun : (s.proc t).state = .runnable) : Steady s s' := by
  obtain ⟨x, ph, rfl, hx, hstate⟩ := hg
  refine of_setProc rfl (by rw [hx]) ?_
  rcases hstate with h1 | h1
  · simp [h1, hrun]
  · simp [h1, hrun]

theorem of_zombie (hd : s.dying = some t) :
    Steady s { s.setProc t { s.proc t with state := .zombie } with dying := none } := by
  refine ⟨?_, fun _ hq => hq, rfl, rfl, ?_⟩
  · ext q
    simp only [ProcSys.mem_live, ProcSys.exited]
    by_cases hq : q = t
    · subst hq
      simp [ProcSys.setProc, hd]
    · simp [ProcSys.setProc, hd, hq, Ne.symm hq]
  · intro q
    by_cases hq : q = t
    · subst hq
      simp [ProcSys.setProc]
    · simp [ProcSys.setProc, hq]

theorem of_free (hz : (s.proc c).state = .zombie) : Steady s (s.free t c) := by
  have halloc : ∀ q, (s.free t c).allocated q = true ↔ q ≠ c ∧ s.allocated q = true := by
    intro q
    by_cases hq : q = c
    · simp [ProcSys.free, hq]
    · simp [ProcSys.free, hq]
  refine ⟨?_, fun q hq => ((halloc q).mp hq).2, rfl, rfl, fun _ => ⟨rfl, rfl, rfl, rfl, rfl⟩⟩
  ext q
  rw [ProcSys.mem_live, ProcSys.mem_live, halloc q]
  change (_ ∧ _) ∧ s.exited q = false ↔ _
  constructor
  · rintro ⟨⟨-, h1⟩, h2⟩
    exact ⟨h1, h2⟩
  · rintro ⟨h1, h2⟩
    refine ⟨⟨?_, h1⟩, h2⟩
    rintro rfl
    simp [ProcSys.exited, hz] at h2

theorem ids (h : Steady s s') (hp : Pids s) : Pids s' :=
  hp.congr_tree h.live h.alloc h.pids (fun q => (h.proc q).1) fun q => by
    rw [(h.proc q).2.2.2.2]

theorem ordered (h : Steady s s') (ho : Ordered s) : Ordered s' := by
  refine ho.congr h.alloc (fun q => ⟨(h.proc q).2.1, (h.proc q).2.2.1⟩) ?_ ?_ ?_
  · intro q hn
    rwa [(h.proc q).2.2.2.2] at hn
  · intro c p _ _ hp
    rw [(h.proc c).2.2.2.2] at hp
    exact .inl hp
  · intro c hc
    rw [h.rootproc, (h.proc c).2.2.2.1]
    exact ho.container c hc

end Steady

section Step

variable {s s' : ProcSys} {kids : ℕ → List ℕ} {t p c : ℕ}

theorem Pids.addChild (h : Pids s) (hc : c ∈ s.live)
    (hfree : ∀ d, s.inTree d → s.exited d = true → (s.proc d).pid ≠ (s.proc c).pid) :
    Pids (s.addChild p c) := by
  refine h.enter hc hfree ?_ rfl rfl ?_ ?_
  · simp only [ProcSys.live, ProcSys.addChild_exited]
    rfl
  · intro q
    rw [ProcSys.addChild_proc]
  · intro q hq
    simp [ProcSys.addChild, ProcSys.setProc, hq]

/-- One process gets another container. -/
theorem setContainer_ids (hp : Pids s) (ho : Ordered s) {k : ℕ} (hs : s' = { s with
      proc := Function.update s.proc c { s.proc c with container := k }
      rootproc := s'.rootproc
      containers := s'.containers
      localPids := s'.localPids })
    (hold : ∀ q, s.allocated q = true → s'.rootproc (s.proc q).container =
      s.rootproc (s.proc q).container)
    (hk : (s.proc (s'.rootproc k)).birth ≤ (s.proc c).birth ∧
      (s'.rootproc k ≠ c → (s.proc (s'.rootproc k)).parent ≠ none)) : Pids s' ∧ Ordered s' := by
  have hproc : ∀ q, s'.proc q = { s.proc q with
      container := if q = c then k else (s.proc q).container } := by
    intro q
    rw [hs]
    by_cases hq : q = c
    · subst hq
      simp
    · simp [hq]
  have halloc : s'.allocated = s.allocated := by rw [hs]
  have hexit : s'.exited = s.exited := by
    have hd : s'.dying = s.dying := by rw [hs]
    funext q
    simp only [ProcSys.exited, hd]
    rw [hproc q]
  constructor
  · refine hp.congr_tree ?_ (fun q hq => halloc ▸ hq) (by rw [hs]) ?_ ?_
    · simp only [ProcSys.live, halloc, hexit]
    · intro q
      rw [hproc q]
    · intro q
      rw [hproc q]
  · refine ho.congr (fun q hq => halloc ▸ hq) ?_ ?_ ?_ ?_
    · intro q
      rw [hproc q]
      exact ⟨rfl, rfl⟩
    · intro q hn
      rwa [hproc q] at hn
    · intro q r _ _ hr
      rw [hproc q] at hr
      exact .inl hr
    · intro q hq
      rw [hproc q]
      by_cases hqc : q = c
      · subst hqc
        simpa using hk
      · simp only [hqc, if_false]
        rw [hold q hq]
        exact ho.container q hq

theorem activate_ids (hp : Pids s) (ho : Ordered s) (hu : (s.proc c).state = .unused) (id : ℤ)
    (pools : ℕ → PidPool) :
    Pids { s.setProc c { s.proc c with localpid := id, state := .runnable } with
      localPids := pools } ∧
    Ordered { s.setProc c { s.proc c with localpid := id, state := .runnable } with
      localPids := pools } := by
  have hst : Steady s { s.setProc c { s.proc c with localpid := id, state := .runnable } with
      localPids := pools } := Steady.of_setProc rfl rfl (by simp [hu])
  exact ⟨hst.ids hp, hst.ordered ho⟩

theorem startProc_ids (hf : Family s kids) (hp : Pids s) (ho : Ordered s) (hc : c ∈ s.live) (hcr : c ≠ ProcSys.root)
    (hu : (s.proc c).state = .unused)
    (hfree : ∀ d, s.inTree d → s.exited d = true → (s.proc d).pid ≠ (s.proc c).pid) :
    Pids (s.startProc c) ∧ Ordered (s.startProc c) := by
  have hpos : (s.proc ProcSys.root).birth < (s.proc c).birth := by
    have := ho.creator c hc.1 hcr
    rw [ho.root]
    omega
  rw [ProcSys.startProc]
  by_cases hpar : (s.proc c).parent = none
  · rw [if_pos hpar]
    exact activate_ids (hp.addChild hc hfree) (ho.addChild hpos (by simp [hf.root]))
      (by simpa [ProcSys.addChild, ProcSys.setProc] using hu) _ _
  · rw [if_neg hpar]
    exact activate_ids hp ho hu _ _

/-- **The pids under a step.** -/
theorem pids_step (h : Tree s kids) (hp : Pids s) (ho : Ordered s) {a : ProcAct}
    (hs : s.step (t, a) = some s') (hok : s.PidFree (t, a)) (hkill : a.noKill = true) :
    Pids s' ∧ Ordered s' := by
  obtain ⟨-, ht, ⟨-, hd, rfl⟩ | ⟨-, hrun, hd, hm⟩⟩ := ProcSys.step_cases hs
  · have hst := Steady.of_zombie hd
    exact ⟨hst.ids hp, hst.ordered ho⟩
  have htl : t ∈ s.live := ⟨ht, by simp [ProcSys.exited, hrun, hd]⟩
  have htp : (s.proc t).parent ≠ none := h.family.started t ht (by simp [hrun])
  have hmine : ∀ {c}, s.mine t c = true → c ∈ s.live ∧ (s.proc c).state = .unused ∧
      c ≠ ProcSys.root ∧ (s.proc t).birth < (s.proc c).birth := by
    intro c hc
    obtain ⟨hca, hcu, hcr⟩ := ProcSys.mine_iff.mp hc
    have hne := h.family.ne_root_of_unused hcu
    have hlt := ho.creator c hca hne
    exact ⟨⟨hca, h.family.exited_of_unused hcu⟩, hcu, hne, by omega⟩
  have hgo : a = .wait ∨ a = .waitSem ∨ a = .resume → Pids s' ∧ Ordered s' := by
    intro ha
    have hst := Steady.of_goesOn (hm.goesOn hrun ha) hrun
    exact ⟨hst.ids hp, hst.ordered ho⟩
  cases hm with
  | createProc hph ha =>
      refine ⟨hp.createProc ha ?_ hok, ho.createProc h.family ha ht⟩
      intro hda
      rw [(h.family.dying _ hda).1] at ha
      cases ha
  | setParentToThis hph hc hpar =>
      obtain ⟨hcl, -, -, hlt⟩ := hmine hc
      exact ⟨hp.addChild hcl hok, ho.addChild hlt htp⟩
  | setContainerToThis hph hc hr =>
      obtain ⟨hcl, -, -, hlt⟩ := hmine hc
      obtain ⟨hle, hpar⟩ := ho.container t ht
      refine setContainer_ids hp ho rfl (fun _ _ => rfl) ⟨hle.trans hlt.le, fun _ => ?_⟩
      by_cases hrt : s.rootproc (s.proc t).container = t
      · change (s.proc (s.rootproc (s.proc t).container)).parent ≠ none
        rw [hrt]
        exact htp
      · exact hpar hrt
  | createContainer hph hc hr =>
      refine setContainer_ids hp ho rfl ?_ ?_
      · intro q hq
        have hne := (h.family.container q hq).ne
        simp [ProcSys.createContainer, hne]
      · simp [ProcSys.createContainer]
  | startProc hph hc hdn =>
      obtain ⟨hcl, hcu, hcr, -⟩ := hmine hc
      exact startProc_ids h.family hp ho hcl hcr hcu hok
  | exit hph hs =>
      have hf := ProcSys.exit_frame (h.family.kidsOf ht) hs
      have hmem := fun q hq => (h.family.mem t q ht).mp hq
      refine ⟨hp.exit htl hf ?_, ho.exit ht hf ?_⟩
      · intro q hq
        rw [(hmem q hq).2.2]
        simp
      · intro q hq _
        exact (hmem q hq).2.2
  | waitAlone hph => exact ⟨hp, ho⟩
  | wait hph => exact hgo (.inl rfl)
  | waitSem hph hs => exact hgo (.inr (.inl rfl))
  | resume hph => exact hgo (.inr (.inr rfl))
  | interrupted hph hs => exact hgo (.inr (.inr rfl))
  | reap hph hs =>
      have hdn : s.dying = none := by
        by_contra hdn
        simp [ProcSys.reap, hdn] at hs
      obtain ⟨c, hc, hz, hreap⟩ := h.found ht htl.2 hph hdn
      rw [hreap] at hs
      cases hs
      have hst := Steady.of_free (t := t) hz
      exact ⟨hst.ids hp, hst.ordered ho⟩
  | kill hph => cases hkill
  | alert hph hd => cases hkill

end Step

/-! ## The search of `kill` -/

section Dfs

variable {s : ProcSys} {kids : ℕ → List ℕ}

/-- `c` is a child of `p`. -/
def ProcSys.ChildOf (s : ProcSys) (p c : ℕ) : Prop :=
  s.allocated c = true ∧ c ≠ ProcSys.root ∧ (s.proc c).parent = some p

theorem root_inTree (hf : Family s kids) : s.inTree ProcSys.root :=
  ⟨hf.root.1, by simp [hf.root]⟩

/-- What `dfs` finds. -/
theorem dfs_sound (hf : Family s kids) {pid : ℤ} {fuel p q : ℕ} (hp : s.inTree p)
    (h : s.dfs pid fuel p = some q) :
    s.inTree q ∧ (s.proc q).pid = pid ∧ (s.proc q).state ≠ .unused := by
  induction fuel generalizing p with
  | zero => cases h
  | succ fuel ih =>
      rw [ProcSys.dfs] at h
      split_ifs at h with hhere
      · cases h
        exact ⟨hp, hhere⟩
      · rw [hf.kidsOf hp.1, Option.getD_some] at h
        obtain ⟨c, hc, hfind⟩ := List.exists_of_findSome?_eq_some h
        obtain ⟨hca, -, hcp⟩ := (hf.mem p c hp.1).mp hc
        exact ih ⟨hca, by simp [hcp]⟩ hfind

/-- `dfs` finds something, if one of the processes below `p` has the pid. -/
theorem dfs_isSome (hf : Family s kids) (ho : Ordered s) {pid : ℤ} {fuel p q : ℕ}
    (hp : s.allocated p = true) (hfuel : s.births ≤ fuel + (s.proc p).birth)
    (hq : Relation.ReflTransGen s.ChildOf p q) (hpid : (s.proc q).pid = pid)
    (hused : (s.proc q).state ≠ .unused) : (s.dfs pid fuel p).isSome := by
  induction fuel generalizing p with
  | zero =>
      have := hf.birth p hp
      omega
  | succ fuel ih =>
      rw [ProcSys.dfs]
      split_ifs with hhere
      · rfl
      · rcases Relation.ReflTransGen.cases_head hq with rfl | ⟨c, hc, hcq⟩
        · exact absurd ⟨hpid, hused⟩ hhere
        · -- the child is younger, so the fuel left is enough for it
          obtain ⟨hlt, -⟩ := ho.parent c p hc.1 hc.2.1 hc.2.2
          have hsome := ih hc.1 (by omega) hcq
          rw [hf.kidsOf hp, Option.getD_some, List.findSome?_isSome_iff]
          exact ⟨c, (hf.mem p c hp).mpr hc, hsome⟩

/-- Everybody in the tree is below the root process. -/
theorem below_root (hf : Family s kids) (ho : Ordered s) {q : ℕ} (hq : s.inTree q) :
    Relation.ReflTransGen s.ChildOf ProcSys.root q := by
  generalize hn : (s.proc q).birth = n
  induction n using Nat.strong_induction_on generalizing q with
  | _ n ih =>
      by_cases hr : q = ProcSys.root
      · rw [hr]
      · obtain ⟨p, hp⟩ := Option.ne_none_iff_exists'.mp hq.2
        obtain ⟨hpa, -⟩ := hf.parent q p hq.1 hp
        obtain ⟨hlt, hpp⟩ := ho.parent q p hq.1 hr hp
        exact (ih _ (by omega) ⟨hpa, hpp⟩ rfl).tail ⟨hq.1, hr, hp⟩

end Dfs

/-! ## Runs -/

/-- What the invariants say of the pids. -/
theorem Pids.identify {s : ProcSys} {kids : ℕ → List ℕ} (hp : Pids s) (hf : Family s kids)
    (ho : Ordered s) : PidsIdentify s := by
  have hroot := root_inTree hf
  have hdfs : ∀ p, s.inTree p → (s.proc p).state ≠ .unused →
      s.dfs (s.proc p).pid s.births ProcSys.root = some p := by
    intro p hpt hused
    have hsome := dfs_isSome hf ho hf.root.1 (Nat.le_add_right _ _) (below_root hf ho hpt) rfl hused
    obtain ⟨q, hq⟩ := Option.isSome_iff_exists.mp hsome
    obtain ⟨hqt, hpid, -⟩ := dfs_sound hf hroot hq
    rw [hq, hp.tree q p hqt hpt hpid]
  refine ⟨hp.tree, hp.range, hp.bound, hdfs, ?_⟩
  intro t p hpt hused
  rw [ProcSys.kill, hdfs p hpt hused]

theorem pids_invariant {junk : ℕ → ℤ} {s : ProcSys}
    (h : Reach ProcSys.step (fun s i => i.2.noKill = true ∧ s.PidFree i) (ProcSys.start junk) s) :
    (∃ kids, Tree s kids) ∧ Pids s ∧ Ordered s := by
  refine Reach.invariant (P := fun s => (∃ kids, Tree s kids) ∧ Pids s ∧ Ordered s) h
    ⟨⟨_, Tree.init junk⟩, Pids.init junk, Ordered.init junk⟩ ?_
  rintro s ⟨t, a⟩ s' ⟨⟨kids, hk⟩, hp, ho⟩ ⟨hkill, hok⟩ hs
  refine ⟨hk.step hs ?_, pids_step hk hp ho hs hok hkill⟩
  rintro b born - rfl
  cases hkill

/-- **A pid names one process** in every state of every run of `create_proc`, `start_proc`,
`exit` and `wait` in which fewer than `PID_NUM - 1` processes are alive whenever one is
created, and none gets into the tree while a dead one there has its pid. -/
theorem pids_identify (junk : ℕ → ℤ) (s : ProcSys)
    (h : Reach ProcSys.step (fun s i => i.2.noKill = true ∧ s.PidFree i) (ProcSys.start junk) s) :
    PidsIdentify s := by
  obtain ⟨⟨kids, hk⟩, hp, ho⟩ := pids_invariant h
  exact hp.identify hk.family ho

/-- A step that is fine as long as a pid is left and nobody has exited. -/
def ProcSys.pidTest (s : ProcSys) (i : ℕ × ProcAct) : Bool :=
  i.2.noKill && match i.2 with
  | .createProc _ => s.pids.avail < pidNum
  | .setParentToThis _ => s.exits = []
  | .startProc _ => s.exits = []
  | _ => true

theorem pidFree_of_pidTest {junk : ℕ → ℤ} {s : ProcSys} {i : ℕ × ProcAct}
    (h : Reach ProcSys.step (fun s i => i.2.noKill = true ∧ s.PidFree i) (ProcSys.start junk) s)
    (ht : s.pidTest i = true) : i.2.noKill = true ∧ s.PidFree i := by
  obtain ⟨⟨kids, hk⟩, hp, -⟩ := pids_invariant h
  obtain ⟨t, a⟩ := i
  rw [ProcSys.pidTest, Bool.and_eq_true] at ht
  refine ⟨ht.1, ?_⟩
  have hnone : s.exits = [] → ∀ d, s.inTree d → s.exited d = true → False := by
    intro hexits d hd he
    have := hk.records.exits d hd.1 he
    rw [hexits] at this
    cases this
  cases a with
  | createProc b =>
      have hcount := hp.count
      have havail : s.pids.avail < pidNum := of_decide_eq_true ht.2
      change s.live.ncard < pidNum - 1
      omega
  | setParentToThis c => exact fun d hd he => (hnone (of_decide_eq_true ht.2) d hd he).elim
  | startProc c => exact fun d hd he => (hnone (of_decide_eq_true ht.2) d hd he).elim
  | _ => trivial

/-- Two children, one of which is dead. -/
theorem pids_identify_two : ∃ s, PidsIdentify s ∧
    (s.proc 1).pid = 2 ∧ s.exited 1 = true ∧ (s.proc 2).pid = 3 := by
  have hrun : (runs (fun s i => if s.pidTest i then s.step i else none) (ProcSys.start fun _ => 0)
      [(0, .createProc 1), (0, .setParentToThis 1), (0, .startProc 1), (0, .createProc 2),
        (0, .startProc 2), (1, .exit 0), (1, .zombie)]).map
      (fun s => ((s.proc 1).pid, s.exited 1, (s.proc 2).pid)) = some (2, true, 3) := by
    decide +kernel
  obtain ⟨s, hs, hpids⟩ := Option.map_eq_some_iff.mp hrun
  simp only [Prod.mk.injEq] at hpids
  exact ⟨s, pids_identify _ s (Reach.of_checked .init (fun _ _ h => pidFree_of_pidTest h) _ hs),
    hpids⟩

/-- A process is created while a dead one waits to be reaped, and gets its pid. -/
theorem dead_keeps_pid : ¬∀ (junk : ℕ → ℤ) (s : ProcSys),
    Reach ProcSys.step (fun _ i => i.2.noKill = true) (ProcSys.start junk) s →
    PidsIdentify s := by
  intro hall
  have hrun : (runs (fun s i => if i.2.noKill then s.step i else none) (ProcSys.start fun _ => 0)
      [(0, .createProc 1), (0, .setParentToThis 1), (0, .startProc 1), (1, .exit 0), (1, .zombie),
        (0, .createProc 2), (0, .setParentToThis 2), (0, .startProc 2)]).map
      (fun s => (s.allocated 1, (s.proc 1).parent, (s.proc 1).pid, s.allocated 2,
        (s.proc 2).parent, (s.proc 2).pid)) = some (true, some 0, 2, true, some 0, 2) := by
    decide +kernel
  obtain ⟨s, hs, hpids⟩ := Option.map_eq_some_iff.mp hrun
  simp only [Prod.mk.injEq] at hpids
  obtain ⟨h1, h2, h3, h4, h5, h6⟩ := hpids
  have hid := hall _ s (Reach.of_tested .init (fun _ _ h => h) _ hs)
  have heq := hid.distinct 1 2 ⟨h1, by simp [h2]⟩ ⟨h4, by simp [h5]⟩ (h3.trans h6.symm)
  omega

end OsLab
