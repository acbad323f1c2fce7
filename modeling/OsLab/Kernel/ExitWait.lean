import OsLab.Kernel.ProcTree

/-!
# The protocol of `exit` and `wait`

Every dead process is counted once by the `childexit` of its parent, whoever that is,
so a `wait` that has a token finds a dead child, and each dead process is reaped once,
by its parent.

## Main definitions

* `Records` — what a dead process was, and who has reaped it.
* `ProcSys.ExitWait` — the protocol.
* `exit_wait_protocol` — it holds in every run.
-/

namespace OsLab

/-- What `wait` will return for the process. -/
def ProcSys.record (s : ProcSys) (c : ℕ) : Exited :=
  ⟨(s.proc c).birth, (s.proc c).exitcode, (s.proc c).localpid, (s.proc c).pid⟩

/-- A dead process is what it was when it exited, and each one is reaped once, by its parent. -/
structure Records (s : ProcSys) : Prop where
  exits : ∀ c, s.allocated c → s.exited c = true → s.record c ∈ s.exits
  dead : ∀ x ∈ s.exits, x.birth < s.births ∧
    ∀ c, s.allocated c → (s.proc c).birth = x.birth → s.exited c = true
  exitOnce : (s.exits.map (·.birth)).Nodup
  reaped : ∀ r ∈ s.reaped, r.parent = some r.reaper ∧ r.child ∈ s.exits ∧
    r.child.birth < s.births ∧ ∀ c, s.allocated c → (s.proc c).birth ≠ r.child.birth
  once : (s.reaped.map (·.child.birth)).Nodup

/-- **The invariant.** -/
structure Tree (s : ProcSys) (kids : ℕ → List ℕ) : Prop where
  family : Family s kids
  tokens : Tokens s kids
  records : Records s
  calm : s.panicked = false

namespace ProcSys

/-- **The protocol of `exit` and `wait`.** -/
structure ExitWait (s : ProcSys) (kids : ℕ → List ℕ) : Prop where
  /-- the children list of `q` has the processes whose parent is `q`, each once -/
  listed : ∀ q, s.allocated q → IsRing s.links (.children q) ((kids q).map .ptnode) ∧
    (kids q).Nodup ∧
    ∀ p, p ∈ kids q ↔ s.allocated p ∧ p ≠ root ∧ (s.proc p).parent = some q
  /-- the dead children are counted by `childexit` and the token taken -/
  tokens : ∀ p, s.allocated p → s.exited p = false →
    (((kids p).countP s.exited : ℕ) : ℤ) = max (s.proc p).childexit.val 0 + (s.phase p).taken
  /-- who has a token finds a dead child -/
  found : ∀ p, s.allocated p → s.exited p = false → s.phase p = .token → s.dying = none →
    ∃ c ∈ kids p, (s.proc c).state = .zombie ∧ s.reap p = some (s.free p c)
  calm : s.panicked = false
  /-- each process exits once -/
  exitOnce : (s.exits.map (·.birth)).Nodup
  /-- each dead process is reaped once, by its parent, with what it had when it exited -/
  once : (s.reaped.map (·.child.birth)).Nodup
  own : ∀ r ∈ s.reaped, r.parent = some r.reaper ∧ r.child ∈ s.exits

end ProcSys

/-! ## Tokens and records under each step -/

theorem Tokens.congr {s s' : ProcSys} {kids kids' : ℕ → List ℕ} (h : Tokens s kids)
    (hp : ∀ p, s'.allocated p → s'.exited p = false → s.allocated p ∧ s.exited p = false ∧
      (s'.proc p).childexit = (s.proc p).childexit ∧ s'.phase p = s.phase p ∧
      (kids' p).countP s'.exited = (kids p).countP s.exited) : Tokens s' kids' := by
  intro p ha he
  obtain ⟨h1, h2, h3, h4, h5⟩ := hp p ha he
  rw [h3, h4, h5]
  exact h p h1 h2

namespace Records

variable {s s' : ProcSys}

/-- Nobody dies and nobody is reaped. -/
theorem congr (h : Records s) (hexits : s'.exits = s.exits) (hreaped : s'.reaped = s.reaped)
    (hbirths : s.births ≤ s'.births)
    (hproc : ∀ c, s'.allocated c → s.births ≤ (s'.proc c).birth ∧ s'.exited c = false ∨
      s.allocated c ∧ (s'.proc c).birth = (s.proc c).birth ∧ s'.exited c = s.exited c ∧
        (s.exited c = true → s'.record c = s.record c)) : Records s' := by
  constructor
  · intro c hc he
    rcases hproc c hc with ⟨-, hne⟩ | ⟨hc, -, hce, hrec⟩
    · rw [hne] at he
      cases he
    · rw [hce] at he
      rw [hexits, hrec he]
      exact h.exits c hc he
  · intro x hx
    rw [hexits] at hx
    obtain ⟨h1, h2⟩ := h.dead x hx
    refine ⟨by omega, ?_⟩
    intro c hc hb
    rcases hproc c hc with ⟨hnew, -⟩ | ⟨hc, hbc, hce, -⟩
    · omega
    · rw [hce]
      exact h2 c hc (hbc ▸ hb)
  · rw [hexits]
    exact h.exitOnce
  · intro r hr
    rw [hreaped] at hr
    obtain ⟨h1, h2, h3, h4⟩ := h.reaped r hr
    refine ⟨h1, by rw [hexits]; exact h2, by omega, ?_⟩
    intro c hc
    rcases hproc c hc with ⟨hnew, -⟩ | ⟨hc, hbc, -, -⟩
    · omega
    · rw [hbc]
      exact h4 c hc
  · rw [hreaped]
    exact h.once

/-- The process `t` dies. -/
theorem die (h : Records s) {t : ℕ} (ht : s.allocated t) (hte : s.exited t = false)
    (hbt : (s.proc t).birth < s.births)
    (hinj : ∀ c, s.allocated c → (s.proc c).birth = (s.proc t).birth → c = t)
    (hexits : s'.exits = s.record t :: s.exits) (hreaped : s'.reaped = s.reaped)
    (hbirths : s'.births = s.births) (halloc : s'.allocated = s.allocated)
    (hrec : ∀ c, s'.record c = s.record c)
    (hexit : s'.exited = fun c => s.exited c || decide (c = t)) : Records s' := by
  have hbirth : ∀ c, (s'.proc c).birth = (s.proc c).birth :=
    fun c => congrArg Exited.birth (hrec c)
  constructor
  · intro c hc he
    rw [halloc] at hc
    rw [hexits, hrec c]
    by_cases hct : c = t
    · rw [hct]
      exact List.mem_cons_self
    · apply List.mem_cons_of_mem
      apply h.exits c hc
      rw [hexit] at he
      simpa [hct] using he
  · intro x hx
    rw [hexits] at hx
    rw [hbirths, halloc, hexit]
    rcases List.mem_cons.mp hx with rfl | hx
    · refine ⟨hbt, ?_⟩
      intro c hc hb
      rw [hbirth c] at hb
      simp [hinj c hc hb]
    · obtain ⟨h1, h2⟩ := h.dead x hx
      refine ⟨h1, ?_⟩
      intro c hc hb
      rw [hbirth c] at hb
      simp [h2 c hc hb]
  · rw [hexits, List.map_cons, List.nodup_cons]
    refine ⟨?_, h.exitOnce⟩
    intro hmem
    obtain ⟨x, hx, hb⟩ := List.mem_map.mp hmem
    have := (h.dead x hx).2 t ht hb.symm
    rw [hte] at this
    cases this
  · intro r hr
    rw [hreaped] at hr
    obtain ⟨h1, h2, h3, h4⟩ := h.reaped r hr
    refine ⟨h1, by rw [hexits]; exact List.mem_cons_of_mem _ h2, by rw [hbirths]; exact h3, ?_⟩
    intro c hc
    rw [halloc] at hc
    rw [hbirth c]
    exact h4 c hc
  · rw [hreaped]
    exact h.once

end Records

namespace Tree

variable {s s' : ProcSys} {kids : ℕ → List ℕ} {t p q c : ℕ}

theorem init (junk : ℕ → ℤ) : Tree (ProcSys.start junk) fun _ => [] := by
  have halloc : ∀ p, (ProcSys.start junk).allocated p = true ↔ p = ProcSys.root := by
    simp [ProcSys.start]
  refine ⟨⟨?_, ?_, ?_, ?_, ?_, ?_, ?_, ?_, ?_, ?_⟩, ?_, ?_, rfl⟩
  · intro p _
    refine ⟨by simp, ?_⟩
    simp [ProcSys.start, Links.Link]
  · intro p c _
    rw [halloc]
    simp +contextual
  · intro c p _ hp
    rw [halloc]
    have hp : ProcSys.root = p := by simpa [ProcSys.start] using hp
    simp [← hp, ProcSys.start, ProcSys.exited]
  · simp [ProcSys.start]
  · intro k hk
    have hk : k = 0 := by simpa [ProcSys.start] using hk
    simp [ProcSys.start, ProcSys.exited, hk]
  · simp [ProcSys.start]
  · simp [ProcSys.start]
  · simp [ProcSys.start]
  · intro c d hc hd _
    rw [(halloc c).mp hc, (halloc d).mp hd]
  · simp [ProcSys.start]
  · intro p _ _
    simp [ProcSys.start, TokenAt, Semaphore.initSem, ProcPhase.taken]
  · constructor <;> simp [ProcSys.start, ProcSys.exited]

/-- One process changes neither its semaphore nor its place in the tree. -/
theorem setProc (h : Tree s kids) (hf : Family s' kids) {x : Proc} (hs : s' = { s with
      proc := Function.update s.proc c x
      pids := s'.pids
      localPids := s'.localPids
      rootproc := s'.rootproc
      containers := s'.containers
      alerts := s'.alerts })
    (hsem : x.childexit = (s.proc c).childexit) (hbirth : x.birth = (s.proc c).birth)
    (hzombie : x.state = .zombie ↔ (s.proc c).state = .zombie)
    (hrec : s.exited c = true → s'.record c = s.record c) : Tree s' kids := by
  have hproc : ∀ q, q ≠ c → s'.proc q = s.proc q := by
    intro q hq
    rw [hs]
    simp [hq]
  have hprocc : s'.proc c = x := by
    rw [hs]
    simp
  have halloc : s'.allocated = s.allocated := by rw [hs]
  have hexit : s'.exited = s.exited := by
    funext q
    have hd : s'.dying = s.dying := by rw [hs]
    by_cases hq : q = c
    · subst hq
      simp only [ProcSys.exited, hprocc, hd, hzombie]
    · simp only [ProcSys.exited, hproc q hq, hd]
  refine ⟨hf, ?_, ?_, ?_⟩
  · apply h.tokens.congr
    intro q hq he
    rw [halloc] at hq
    rw [hexit] at he ⊢
    refine ⟨hq, he, ?_, by rw [hs], rfl⟩
    by_cases hqc : q = c
    · subst hqc
      rw [hprocc, hsem]
    · rw [hproc q hqc]
  · refine h.records.congr (by rw [hs]) (by rw [hs]) (by rw [hs]) ?_
    intro q hq
    rw [halloc] at hq
    refine .inr ⟨hq, ?_⟩
    rw [hexit]
    by_cases hqc : q = c
    · subst hqc
      rw [hprocc]
      exact ⟨hbirth, rfl, hrec⟩
    · simp [ProcSys.record, hproc q hqc]
  · rw [hs]
    exact h.calm

theorem createProc (h : Tree s kids) {a : ℕ} (ha : s.allocated a = false) :
    Tree (s.createProc t a) (Function.update kids a []) := by
  have hexita : (s.createProc t a).exited a = false := by
    have hd : s.dying ≠ some a := fun hd => ProcSys.ne_of_free ha (h.family.dying a hd).1 rfl
    simpa [ProcSys.exited, ProcSys.createProc] using hd
  refine ⟨h.family.createProc ha, ?_, ?_, h.calm⟩
  · intro q hq he
    by_cases hqa : q = a
    · subst hqa
      simp [ProcSys.createProc, TokenAt, Semaphore.initSem, ProcPhase.taken]
    · have hq := (ProcSys.createProc_allocated.mp hq).resolve_left hqa
      rw [ProcSys.createProc_exited_of_ne hqa] at he
      have hcount : (kids q).countP (s.createProc t a).exited = (kids q).countP s.exited := by
        apply List.countP_congr
        intro c hc
        have hca := ProcSys.ne_of_free ha ((h.family.mem q c hq).mp hc).1
        rw [ProcSys.createProc_exited_of_ne hca]
      have hphase : (s.createProc t a).phase q = s.phase q := by
        simp [ProcSys.createProc, hqa]
      rw [Function.update_of_ne hqa, hcount, ProcSys.createProc_proc_of_ne hqa, hphase]
      exact h.tokens q hq he
  · refine h.records.congr rfl rfl (Nat.le_succ _) ?_
    intro q hq
    by_cases hqa : q = a
    · subst hqa
      refine .inl ⟨?_, hexita⟩
      simp [ProcSys.createProc]
    · refine .inr ⟨(ProcSys.createProc_allocated.mp hq).resolve_left hqa, ?_⟩
      simp [ProcSys.record, ProcSys.createProc_proc_of_ne hqa, ProcSys.createProc_exited_of_ne hqa]

theorem addChild (h : Tree s kids) (hp : s.allocated p) (hpe : s.exited p = false)
    (hc : s.allocated c) (hu : (s.proc c).state = .unused) (hcp : (s.proc c).parent = none) :
    Tree (s.addChild p c) (Function.update kids p (c :: kids p)) := by
  have hf := h.family.addChild hp hpe hc (h.family.ne_root_of_unused hu) hcp
  have hce := h.family.exited_of_unused hu
  refine ⟨hf, ?_, ?_, h.calm⟩
  · apply h.tokens.congr
    intro q hq he
    rw [ProcSys.addChild_exited] at he ⊢
    refine ⟨hq, he, by rw [ProcSys.addChild_proc], rfl, ?_⟩
    by_cases hqp : q = p
    · subst hqp
      rw [Function.update_self, List.countP_cons_of_neg (by simp [hce])]
    · rw [Function.update_of_ne hqp]
  · refine h.records.congr rfl rfl (le_refl _) ?_
    intro q hq
    refine .inr ⟨hq, ?_⟩
    rw [ProcSys.addChild_exited, ProcSys.record, ProcSys.addChild_proc]
    exact ⟨rfl, rfl, fun _ => rfl⟩

theorem setContainer (h : Tree s kids) (ht : s.allocated t) (hc : s.allocated c)
    (hu : (s.proc c).state = .unused) (hr : s.rootproc (s.proc c).container ≠ c) :
    Tree (s.setProc c { s.proc c with container := (s.proc t).container }) kids :=
  h.setProc (h.family.setContainer hc hu hr (h.family.container t ht) (le_refl _)
    (fun _ _ => rfl) (fun j hj hj' => by omega) s.localPids) rfl rfl rfl Iff.rfl
    (fun _ => by simp [ProcSys.record, ProcSys.setProc])

theorem createContainer (h : Tree s kids) (hc : s.allocated c)
    (hu : (s.proc c).state = .unused) (hr : s.rootproc (s.proc c).container ≠ c) :
    Tree (s.createContainer c) kids := by
  refine h.setProc (c := c) (h.family.setContainer hc hu hr (Nat.lt_succ_self _)
    (Nat.le_succ _) ?_ ?_ _) rfl rfl rfl Iff.rfl ?_
  · intro j hj
    exact Function.update_of_ne (by omega) _ _
  · intro j hj hj'
    have hj : j = s.containers := by omega
    exact ⟨by rw [hj, Function.update_self], hj⟩
  · intro _
    simp [ProcSys.record, ProcSys.createContainer, ProcSys.setProc]

theorem activate (h : Tree s kids) (hu : (s.proc c).state = .unused)
    (hpar : (s.proc c).parent ≠ none) (id : ℤ) (pools : ℕ → PidPool) :
    Tree { s.setProc c { s.proc c with localpid := id, state := .runnable } with
      localPids := pools } kids := by
  have hzombie : ProcState.runnable = .zombie ↔ (s.proc c).state = .zombie := by simp [hu]
  refine h.setProc (h.family.setProc rfl ⟨rfl, rfl, rfl⟩ (by simp) (fun _ _ => hpar) hzombie
    (fun _ => rfl)) rfl rfl rfl hzombie ?_
  intro he
  rw [h.family.exited_of_unused hu] at he
  cases he

theorem startProc (h : Tree s kids) (hc : s.allocated c) (hu : (s.proc c).state = .unused) :
    ∃ kids', Tree (s.startProc c) kids' := by
  by_cases hpar : (s.proc c).parent = none
  · have hroot := h.family.root
    have hre : s.exited ProcSys.root = false := by
      have := (h.family.rootproc 0 (by have := h.family.container _ hroot.1; omega)).2.2
      rwa [hroot.2.2.1] at this
    have h' := h.addChild hroot.1 hre hc hu hpar
    have hproc := s.addChild_proc_self (p := ProcSys.root) (c := c)
    rw [ProcSys.startProc, if_pos hpar]
    exact ⟨_, h'.activate (by rw [hproc]; exact hu) (by rw [hproc]; simp) _ _⟩
  · rw [ProcSys.startProc, if_neg hpar]
    exact ⟨_, h.activate hu hpar _ _⟩

theorem zombie (h : Tree s kids) (hd : s.dying = some t) :
    Tree { s.setProc t { s.proc t with state := .zombie } with dying := none } kids := by
  set s' : ProcSys := { s.setProc t { s.proc t with state := .zombie } with dying := none } with hs'
  have hproc : ∀ q, s'.proc q = { s.proc q with state := (s'.proc q).state } := by
    intro q
    by_cases hq : q = t
    · subst hq
      simp [hs', ProcSys.setProc]
    · simp [hs', ProcSys.setProc, hq]
  have hexit : s'.exited = s.exited := by
    funext q
    by_cases hq : q = t
    · subst hq
      simp [ProcSys.exited, hs', ProcSys.setProc, hd]
    · simp [ProcSys.exited, hs', ProcSys.setProc, hd, hq, Ne.symm hq]
  refine ⟨h.family.zombie hd, ?_, ?_, h.calm⟩
  · apply h.tokens.congr
    intro q hq he
    rw [hexit] at he ⊢
    exact ⟨hq, he, by rw [hproc q], rfl, rfl⟩
  · refine h.records.congr rfl rfl (le_refl _) ?_
    intro q hq
    refine .inr ⟨hq, ?_⟩
    rw [hexit, ProcSys.record, hproc q]
    exact ⟨rfl, rfl, fun _ => rfl⟩

/-- A process goes on in `wait`. -/
theorem goOn (h : Tree s kids) (x : Proc) (ph : ProcPhase)
    (hx : x = { s.proc t with childexit := x.childexit, state := x.state })
    (hrun : (s.proc t).state = .runnable) (hd : s.dying ≠ some t)
    (hstate : x.state = .runnable ∨ x.state = .sleeping)
    (htok : ∀ n, TokenAt (s.proc t).childexit (s.phase t) t n → TokenAt x.childexit ph t n) :
    Tree ((s.setProc t x).setPhase t ph) kids := by
  set s' := (s.setProc t x).setPhase t ph with hs'
  have hproct : s'.proc t = x := by simp [hs', ProcSys.setProc, ProcSys.setPhase]
  have hproc : ∀ q, q ≠ t → s'.proc q = s.proc q := by
    intro q hq
    simp [hs', ProcSys.setProc, ProcSys.setPhase, hq]
  have hphase : ∀ q, q ≠ t → s'.phase q = s.phase q := by
    intro q hq
    simp [hs', ProcSys.setProc, ProcSys.setPhase, hq]
  have hzombie : x.state = .zombie ↔ (s.proc t).state = .zombie := by
    rcases hstate with h1 | h1 <;> simp [h1, hrun]
  have hused : x.state ≠ .unused := by
    rcases hstate with h1 | h1 <;> simp [h1]
  have hexit : s'.exited = s.exited := by
    funext q
    by_cases hq : q = t
    · subst hq
      simp only [ProcSys.exited, hproct, hzombie]
      rfl
    · simp only [ProcSys.exited, hproc q hq]
      rfl
  have hrec : ∀ q, s'.record q = s.record q := by
    intro q
    by_cases hq : q = t
    · subst hq
      simp only [ProcSys.record, hproct]
      rw [hx]
    · simp only [ProcSys.record, hproc q hq]
  have hf : Family s' kids := by
    refine h.family.setProc (c := t) (x := x) rfl ?_ (fun hu => absurd hu hused) ?_ hzombie ?_
    · rw [hx]
      exact ⟨rfl, rfl, rfl⟩
    · intro _ hu
      rw [hrun] at hu
      cases hu
    · exact fun hd' => absurd hd' hd
  refine ⟨hf, ?_, ?_, h.calm⟩
  · intro q hq he
    rw [hexit] at he ⊢
    by_cases hqt : q = t
    · subst hqt
      rw [hproct]
      have hph : s'.phase q = ph := by simp [hs', ProcSys.setPhase]
      rw [hph]
      exact htok _ (h.tokens q hq he)
    · rw [hproc q hqt, hphase q hqt]
      exact h.tokens q hq he
  · refine h.records.congr rfl rfl (le_refl _) ?_
    intro q hq
    rw [hexit]
    exact .inr ⟨hq, congrArg Exited.birth (hrec q), rfl, fun _ => hrec q⟩

theorem setPhase (h : Tree s kids) {ph : ProcPhase} (hrun : (s.proc t).state = .runnable)
    (hd : s.dying ≠ some t) (hold : s.phase t ≠ .inSem false) (hnew : ph ≠ .inSem false)
    (htaken : ph.taken = (s.phase t).taken) : Tree (s.setPhase t ph) kids := by
  have h' := h.goOn (s.proc t) ph rfl hrun hd (.inl hrun)
    fun n htok => htok.move hold hnew htaken
  have heq : s.setProc t (s.proc t) = s := by simp [ProcSys.setProc]
  rwa [heq] at h'

theorem waitSem (h : Tree s kids) (hrun : (s.proc t).state = .runnable)
    (hd : s.dying ≠ some t) (hph : s.phase t = .waiting) (hs : s.waitSem t = some s') :
    Tree s' kids := by
  have htok : ∀ n, TokenAt (s.proc t).childexit (s.phase t) t n →
      (s.proc t).childexit.sleeplist = [] ∧ 0 ≤ (s.proc t).childexit.val ∧
        (s.proc t).childexit.val = n := by
    intro n hn
    obtain ⟨h1, h2, h3⟩ := hn.of_ne (by simp [hph])
    have htaken : (s.phase t).taken = 0 := by simp [hph, ProcPhase.taken]
    rw [htaken, add_zero] at h3
    exact ⟨h1, h2, h3⟩
  rw [ProcSys.waitSem] at hs
  by_cases hval : (s.proc t).childexit.val - 1 ≥ 0
  · simp only [Semaphore.waitSem, if_pos hval, if_true, Option.some.injEq] at hs
    rw [← hs]
    refine h.goOn _ _ rfl hrun hd (.inl hrun) ?_
    intro n hn
    obtain ⟨h1, h2, h3⟩ := htok n hn
    rw [TokenAt, if_neg (by simp)]
    refine ⟨h1, hval, ?_⟩
    simp only [ProcPhase.taken]
    omega
  · simp only [Semaphore.waitSem, if_neg hval, Bool.false_eq_true, if_false] at hs
    by_cases hdying : s.dying = none
    · rw [if_neg (by simp [hdying]), Option.some.injEq] at hs
      rw [← hs]
      refine h.goOn _ _ rfl hrun hd ?_ ?_
      · by_cases hk : (s.proc t).killed
        · simp [hk]
        · simp [hk]
      · intro n hn
        obtain ⟨h1, h2, h3⟩ := htok n hn
        have h0 : (s.proc t).childexit.val = 0 := by omega
        rw [TokenAt, if_pos rfl]
        exact ⟨by simp [h0, h1], by omega⟩
    · simp [hdying] at hs

theorem interrupted (h : Tree s kids) (hrun : (s.proc t).state = .runnable)
    (hd : s.dying ≠ some t) (hph : s.phase t = .inSem false) (hs : s.interrupted t = some s') :
    Tree s' kids := by
  simp only [ProcSys.interrupted] at hs
  split_ifs at hs
  cases hs
  refine h.goOn _ _ rfl hrun hd (.inl hrun) ?_
  intro n hn
  rw [TokenAt, if_pos hph] at hn
  obtain ⟨h1, rfl⟩ := hn
  rw [TokenAt, if_neg (by simp), h1]
  simp [ProcPhase.taken]

theorem free (h : Tree s kids) (ht : s.allocated t) (he : s.exited t = false)
    (hph : s.phase t = .token) (hd : s.dying = none) (hc : c ∈ kids t)
    (hz : (s.proc c).state = .zombie) :
    Tree (s.free t c) (Function.update kids t ((kids t).erase c)) := by
  obtain ⟨hca, hcr, hcp⟩ := (h.family.mem t c ht).mp hc
  have hce : s.exited c = true := by simp [ProcSys.exited, hz]
  have hproc : (s.free t c).proc = s.proc := rfl
  have hexit : (s.free t c).exited = s.exited := rfl
  have halloc : ∀ q, (s.free t c).allocated q = true → q ≠ c ∧ s.allocated q = true := by
    intro q hq
    by_cases hqc : q = c
    · simp [ProcSys.free, hqc] at hq
    · exact ⟨hqc, by simpa [ProcSys.free, hqc] using hq⟩
  refine ⟨h.family.free ht hc hz hd, ?_, ?_, h.calm⟩
  · intro q hq hqe
    obtain ⟨hqc, hqa⟩ := halloc q hq
    rw [hproc, hexit]
    rw [hexit] at hqe
    have htok := h.tokens q hqa hqe
    by_cases hqt : q = t
    · subst hqt
      have hphase : (s.free q c).phase q = .idle := by simp [ProcSys.free, ProcSys.setPhase]
      obtain ⟨h1, h2, h3⟩ := htok.of_ne (by simp [hph])
      rw [hph, ProcPhase.taken] at h3
      have hcount : ((kids q).erase c).countP s.exited + 1 = (kids q).countP s.exited := by
        rw [(List.perm_cons_erase hc).countP_eq s.exited, List.countP_cons_of_pos hce]
      rw [Function.update_self, hphase, TokenAt, if_neg (by simp)]
      refine ⟨h1, h2, ?_⟩
      simp only [ProcPhase.taken]
      omega
    · have hphase : (s.free t c).phase q = s.phase q := by
        simp [ProcSys.free, ProcSys.setPhase, hqt]
      rw [Function.update_of_ne hqt, hphase]
      exact htok
  · refine ⟨?_, ?_, h.records.exitOnce, ?_, ?_⟩
    · intro q hq hqe
      exact h.records.exits q (halloc q hq).2 hqe
    · intro x hx
      obtain ⟨h1, h2⟩ := h.records.dead x hx
      exact ⟨h1, fun q hq => h2 q (halloc q hq).2⟩
    · intro r hr
      rcases List.mem_cons.mp hr with rfl | hr
      · refine ⟨?_, h.records.exits c hca hce, h.family.birth c hca, ?_⟩
        · rw [hcp]
          rfl
        · intro q hq heq
          obtain ⟨hqc, hqa⟩ := halloc q hq
          exact hqc (h.family.inj q c hqa hca heq)
      · obtain ⟨h1, h2, h3, h4⟩ := h.records.reaped r hr
        exact ⟨h1, h2, h3, fun q hq => h4 q (halloc q hq).2⟩
    · change ((s.proc c).birth :: s.reaped.map (·.child.birth)).Nodup
      refine List.nodup_cons.mpr ⟨?_, h.records.once⟩
      intro hmem
      obtain ⟨r, hr, heq⟩ := List.mem_map.mp hmem
      exact (h.records.reaped r hr).2.2.2 c hca heq.symm

theorem kill (h : Tree s kids) (hrun : (s.proc t).state = .runnable) (hd : s.dying ≠ some t)
    (hph : s.phase t = .idle) (pid : ℤ) : Tree (s.kill t pid) kids := by
  rw [ProcSys.kill]
  cases s.dfs pid s.births ProcSys.root with
  | none => exact h
  | some a =>
      have hset : Tree (s.setProc a { s.proc a with killed := true }) kids := by
        refine h.setProc (h.family.setProc rfl ⟨rfl, rfl, rfl⟩ id (fun h1 h2 => absurd h2 h1)
          Iff.rfl ?_) rfl rfl rfl Iff.rfl ?_
        · intro hda
          exact (h.family.dying a hda).2
        · intro _
          simp [ProcSys.record, ProcSys.setProc]
      have hrun' : ((s.setProc a { s.proc a with killed := true }).proc t).state = .runnable := by
        by_cases hta : t = a
        · subst hta
          simp [ProcSys.setProc, hrun]
        · simp [ProcSys.setProc, hta, hrun]
      have hph' : (s.setProc a { s.proc a with killed := true }).phase t = .idle := hph
      exact hset.setPhase hrun' hd (by simp [hph']) (by simp) (by simp [hph', ProcPhase.taken])

/-- `alert_proc` on a process that has been started. -/
theorem alert (h : Tree s kids) (hrun : (s.proc t).state = .runnable) (hd : s.dying = none)
    {a born : ℕ} (hph : s.phase t = .alerting a born) (hu : (s.proc a).state ≠ .unused) :
    Tree (s.alert t a born) kids := by
  set x : Proc := { s.proc a with
    state := if (s.proc a).state = .sleeping ∨ (s.proc a).state = .unused then .runnable
      else (s.proc a).state } with hx
  set s₁ : ProcSys := { s.setProc a x with alerts := (s.alert t a born).alerts } with hs₁
  have hstate : x.state = (s.proc a).state ∨
      (s.proc a).state = .sleeping ∧ x.state = .runnable := by
    by_cases hsl : (s.proc a).state = .sleeping
    · exact .inr ⟨hsl, by simp [hx, hsl]⟩
    · exact .inl (by simp [hx, hsl, hu])
  have hzombie : x.state = .zombie ↔ (s.proc a).state = .zombie := by
    rcases hstate with h1 | ⟨h1, h2⟩
    · rw [h1]
    · simp [h1, h2]
  have hset : Tree s₁ kids := by
    refine h.setProc (h.family.setProc rfl ⟨rfl, rfl, rfl⟩ ?_ (fun _ h2 => absurd h2 hu)
      hzombie ?_) rfl rfl rfl hzombie ?_
    · intro hxu
      rcases hstate with h1 | ⟨-, h1⟩
      · rwa [h1] at hxu
      · rw [h1] at hxu
        cases hxu
    · intro hda
      rw [hd] at hda
      cases hda
    · intro _
      simp [ProcSys.record, hs₁, ProcSys.setProc, hx]
  have hrun' : (s₁.proc t).state = .runnable := by
    by_cases hta : t = a
    · subst hta
      simp [hs₁, ProcSys.setProc, hx, hrun]
    · simp [hs₁, ProcSys.setProc, hta, hrun]
  have hph' : s₁.phase t = .alerting a born := hph
  have hd' : s₁.dying ≠ some t := by simp [hs₁, ProcSys.setProc, hd]
  exact hset.setPhase hrun' hd' (by simp [hph']) (by simp) (by simp [hph', ProcPhase.taken])

/-- Who has a token finds a dead child. -/
theorem found (h : Tree s kids) (ht : s.allocated t) (he : s.exited t = false)
    (hph : s.phase t = .token) (hd : s.dying = none) :
    ∃ c ∈ kids t, (s.proc c).state = .zombie ∧ s.reap t = some (s.free t c) := by
  obtain ⟨h1, h2, h3⟩ := (h.tokens t ht he).of_ne (by simp [hph])
  rw [hph, ProcPhase.taken] at h3
  have hpos : 0 < (kids t).countP s.exited := by omega
  have hex : ∃ c ∈ kids t, (s.proc c).state = .zombie := by
    obtain ⟨c, hc, hce⟩ := List.countP_pos_iff.mp hpos
    exact ⟨c, hc, by simpa [ProcSys.exited, hd] using hce⟩
  cases hfind : (kids t).find? fun c => (s.proc c).state = .zombie with
  | none =>
      obtain ⟨c, hc, hz⟩ := hex
      have := List.find?_eq_none.mp hfind c hc
      simp [hz] at this
  | some c =>
      have hz := List.find?_some hfind
      refine ⟨c, List.mem_of_find?_eq_some hfind, by simpa using hz, ?_⟩
      rw [ProcSys.reap, if_neg (by simp [hd]), h.family.kidsOf ht, Option.bind_eq_bind,
        Option.bind_some, hfind]

end Tree

/-! ## `exit` -/

theorem exited_eq_zombie {s : ProcSys} (hd : s.dying = none) :
    s.exited = fun c => decide ((s.proc c).state = .zombie) := by
  funext c
  simp [ProcSys.exited, hd]

theorem Posted.record {s s' : ProcSys} (h : Posted s s') (c : ℕ) : s'.record c = s.record c := by
  simp only [ProcSys.record]
  rw [h.proc c]

/-- The children of `t` and the tokens for the dead ones go to `r`. -/
theorem Tokens.inherit {s s₁ s₂ : ProcSys} {kids : ℕ → List ℕ} {t r : ℕ} (h : Tokens s kids)
    (hd : s.dying = none) (htr : t ≠ r) (hp : Posted s s₁)
    (htok : TokenAt (s₁.proc r).childexit (s₁.phase r) r
      ((kids r).countP s.exited + (kids t).countP fun c => (s.proc c).state = .zombie))
    (hframe : ∀ q, q ≠ r → s₁.proc q = s.proc q ∧ s₁.phase q = s.phase q)
    (hs₂ : ∀ q, (s₂.proc q).childexit = (s₁.proc q).childexit ∧
      (s₂.proc q).state = (s₁.proc q).state)
    (hsame : s₂.allocated = s₁.allocated ∧ s₂.phase = s₁.phase ∧ s₂.dying = s₁.dying) :
    ∀ p, p ≠ t → s₂.allocated p → s₂.exited p = false →
      TokenAt (s₂.proc p).childexit (s₂.phase p) p ((OsLab.inherit kids t r p).countP s₂.exited) := by
  have hexit : s₂.exited = s.exited := by
    rw [← hp.exited]
    funext q
    simp only [ProcSys.exited, (hs₂ q).2, hsame.2.2]
  intro p hpt ha he
  rw [hsame.1, hp.same] at ha
  rw [hexit] at he ⊢
  rw [(hs₂ p).1, hsame.2.1]
  by_cases hpr : p = r
  · subst hpr
    have hcount : (OsLab.inherit kids t p p).countP s.exited =
        (kids p).countP s.exited + (kids t).countP fun c => (s.proc c).state = .zombie := by
      simp only [OsLab.inherit, Function.update_of_ne hpt, Function.update_self,
        List.countP_append, (perm_rotate (kids t)).countP_eq]
      rw [exited_eq_zombie hd]
    rw [hcount]
    exact htok
  · have hkids : OsLab.inherit kids t r p = kids p := by simp [OsLab.inherit, hpt, hpr]
    rw [hkids, (hframe p hpr).1, (hframe p hpr).2]
    exact h p ha he

/-- Moving the children changes nothing but parents and lists. -/
theorem moved_frame (r t : ℕ) (cs : List ℕ) (s : ProcSys) :
    (ProcSys.setParents r cs s).mergeChildren t r = { s with
      proc := ((ProcSys.setParents r cs s).mergeChildren t r).proc
      links := ((ProcSys.setParents r cs s).mergeChildren t r).links } ∧
    ∀ q, ((ProcSys.setParents r cs s).mergeChildren t r).proc q = { s.proc q with
      parent := if q ∈ cs then some r else (s.proc q).parent } := by
  obtain ⟨hsame, hproc⟩ := ProcSys.setParents_spec r cs s
  set s₁ := ProcSys.setParents r cs s with hs₁
  have hproc' : (s₁.mergeChildren t r).proc = s₁.proc := by
    rw [ProcSys.mergeChildren]
    split_ifs <;> rfl
  constructor
  · rw [ProcSys.mergeChildren]
    split_ifs
    · rw [hsame]
    · rw [hsame]
  · intro q
    rw [hproc', hproc q]
    split_ifs <;> rfl

/-- What `exit` of `t` changes, if `kids` are the children of `t`. -/
structure ExitFrame (s s' : ProcSys) (t : ℕ) (kids : List ℕ) : Prop where
  notRoot : t ≠ s.rootproc (s.proc t).container
  calm : s.dying = none
  same : s' = { s with
    proc := s'.proc
    phase := s'.phase
    links := s'.links
    pids := s.pids.give (s.proc t).pid
    dying := some t
    exits := s'.exits }
  proc : ∀ q, s'.proc q = { s.proc q with
    childexit := (s'.proc q).childexit
    state := (s'.proc q).state
    exitcode := (s'.proc q).exitcode
    parent := if q ∈ kids then some (s.rootproc (s.proc t).container) else (s.proc q).parent }
  state : ∀ q, (s'.proc q).state = (s.proc q).state ∨
    (s.proc q).state = .sleeping ∧ (s'.proc q).state = .runnable
  phase : ∀ q, s'.phase q = s.phase q ∨ s'.phase q = .inSem true

theorem ProcSys.exit_frame {s s' : ProcSys} {t : ℕ} {kids : List ℕ} {code : ℤ}
    (hkids : s.kidsOf t = some kids) (h : s.exit t code = some s') : ExitFrame s s' t kids := by
  simp only [ProcSys.exit] at h
  split_ifs at h with hguard
  rw [not_or, not_not] at hguard
  rw [hkids, Option.bind_eq_bind, Option.bind_some, Option.bind_eq_bind,
    Option.bind_eq_some_iff] at h
  obtain ⟨s₁, hz, h⟩ := h
  have hp₁ := ProcSys.postZombies_posted hz
  set s₀ := s.setProc t { s.proc t with exitcode := code } with hs₀
  have hproc₀ : ∀ q, s₀.proc q = { s.proc q with exitcode := (s₀.proc q).exitcode } := by
    intro q
    by_cases hq : q = t
    · subst hq
      simp [hs₀, ProcSys.setProc]
    · simp [hs₀, ProcSys.setProc, hq]
  set r := s.rootproc (s.proc t).container with hr
  obtain ⟨hsame₂, hproc₂⟩ := moved_frame r t kids s₁
  set s₂ := (ProcSys.setParents r kids s₁).mergeChildren t r with hs₂
  rw [Option.bind_eq_bind, Option.bind_eq_some_iff] at h
  obtain ⟨q, hq, h⟩ := h
  rw [Option.bind_eq_some_iff] at h
  obtain ⟨s₃, hpost, h⟩ := h
  have hp₃ := ProcSys.postSem_posted hpost
  have hproc₃ : ∀ q, s₃.proc q = { s.proc q with
      childexit := (s₃.proc q).childexit
      state := (s₃.proc q).state
      exitcode := (s₃.proc q).exitcode
      parent := if q ∈ kids then some r else (s.proc q).parent } := by
    intro q
    rw [hp₃.proc q, hproc₂ q, hp₁.proc q, hproc₀ q]
  cases h
  refine ⟨hguard.1, hguard.2, ?_, hproc₃, ?_, ?_⟩
  · rw [hp₃.same, hsame₂, hp₁.same]
    have hpid : (s₃.proc t).pid = (s.proc t).pid := by rw [hproc₃ t]
    simp [hpid, hs₀, ProcSys.setProc]
  · intro q
    have h₀ : (s₀.proc q).state = (s.proc q).state := by rw [hproc₀ q]
    have h₂ : (s₂.proc q).state = (s₁.proc q).state := by rw [hproc₂ q]
    have h₁ := hp₁.state q
    have h₃ := hp₃.state q
    rw [h₂] at h₃
    rw [h₀] at h₁
    rcases h₁ with h₁ | ⟨h₁, h₁'⟩
    · rwa [h₁] at h₃
    · rw [h₁'] at h₃
      exact .inr ⟨h₁, by simpa using h₃⟩
  · intro q
    have h₂ : s₂.phase = s₁.phase := by rw [hsame₂]
    rcases hp₃.phase q with h₃ | h₃
    · change s₃.phase q = _ ∨ s₃.phase q = _
      rw [h₃, h₂]
      exact hp₁.phase q
    · exact .inr h₃

theorem ExitFrame.exited {s s' : ProcSys} {t : ℕ} {kids : List ℕ} (h : ExitFrame s s' t kids) :
    s'.exited = fun q => s.exited q || decide (q = t) := by
  have hd : s'.dying = some t := by rw [h.same]
  have hz : ∀ q, (s'.proc q).state = .zombie ↔ (s.proc q).state = .zombie := by
    intro q
    rcases h.state q with h1 | ⟨h1, h2⟩
    · rw [h1]
    · simp [h1, h2]
  funext q
  simp [ProcSys.exited, hd, hz, h.calm, eq_comm]

/-- One more in the list satisfies the predicate. -/
theorem countP_or_eq {l : List ℕ} {f : ℕ → Bool} {t : ℕ} (hf : f t = false) (hnd : l.Nodup) :
    l.countP (fun c => f c || decide (c = t)) = l.countP f + if t ∈ l then 1 else 0 := by
  induction l with
  | nil => simp
  | cons a l ih =>
      rw [List.nodup_cons] at hnd
      have ih := ih hnd.2
      by_cases hat : a = t
      · subst hat
        rw [if_neg hnd.1] at ih
        rw [List.countP_cons_of_pos (by simp), List.countP_cons_of_neg (by simp [hf]), ih]
        simp
      · have hmem : t ∈ a :: l ↔ t ∈ l := by simp [Ne.symm hat]
        rw [if_congr hmem rfl rfl]
        by_cases hfa : f a
        · rw [List.countP_cons_of_pos (by simp [hfa]), List.countP_cons_of_pos (by simp [hfa]), ih]
          omega
        · rw [List.countP_cons_of_neg (by simp [hfa, hat]), List.countP_cons_of_neg (by simp [hfa]),
            ih]

namespace Tree

variable {s s' : ProcSys} {kids : ℕ → List ℕ} {t q : ℕ}

/-- The end of `exit`: the post to the parent, and the process is dying. -/
theorem finish (hf : Family s kids) (hd : s.dying = none) (ht : s.allocated t)
    (hrun : (s.proc t).state = .runnable) (hrp : s.rootproc (s.proc t).container ≠ t)
    (hkids : kids t = []) (htok : ∀ p, p ≠ t → s.allocated p → s.exited p = false →
      TokenAt (s.proc p).childexit (s.phase p) p ((kids p).countP s.exited))
    (hrec : Records s) (hcalm : s.panicked = false) (hpar : (s.proc t).parent = some q)
    {s₁ : ProcSys} (hpost : s.postSem q = some s₁) (pids : PidPool) :
    Tree { s₁ with
      pids := pids
      dying := some t
      exits := s.record t :: s₁.exits } kids := by
  have htroot : t ≠ ProcSys.root := by
    rintro rfl
    rw [hf.root.2.1, hf.root.2.2.1] at hrp
    exact hrp rfl
  obtain ⟨hqa, hqe⟩ := hf.parent t q ht hpar
  have htq : ∀ p, s.allocated p → (t ∈ kids p ↔ p = q) := by
    intro p hp
    rw [hf.mem p t hp, hpar, Option.some.injEq]
    exact ⟨fun h => h.2.2.symm, fun h => ⟨ht, htroot, h.symm⟩⟩
  have hqt : q ≠ t := by
    rintro rfl
    have := (htq q hqa).mpr rfl
    rw [hkids] at this
    cases this
  obtain ⟨s₁', hpost', hp, htok₁, hframe⟩ := ProcSys.postSem_spec (htok q hqt hqa hqe)
  rw [hpost] at hpost'
  cases hpost'
  have halloc : s₁.allocated = s.allocated := by rw [hp.same]
  have hproct : s₁.proc t = s.proc t := (hframe t hqt.symm).1
  set s' : ProcSys := { s₁ with
    pids := pids
    dying := some t
    exits := s.record t :: s₁.exits } with hs'
  have hte : s.exited t = false := by simp [ProcSys.exited, hrun, hd]
  have hexit : s'.exited = fun c => s.exited c || decide (c = t) := by
    funext c
    rw [← hp.exited]
    have hd₁ : s₁.dying = none := hp.dying.trans hd
    simp only [ProcSys.exited, hs', hd₁]
    by_cases hct : c = t
    · simp [hct]
    · simp [hct, Ne.symm hct]
  have hlive : ∀ p, s'.exited p = false → p ≠ t ∧ s.exited p = false := by
    intro p hpe
    rw [hexit] at hpe
    simpa [and_comm] using hpe
  refine ⟨?_, ?_, ?_, ?_⟩
  · have hfam := hf.of_posted hp
    refine hfam.setDying (by rw [halloc]; exact ht) (by rw [hproct]; exact hrun) hkids ?_
      (hp.dying.trans hd) pids _
    rw [hproct, hp.same]
    exact hrp
  · intro p hpa hpe
    obtain ⟨hpt, hpe⟩ := hlive p hpe
    have hpa : s.allocated p := by rw [← halloc]; exact hpa
    rw [hexit, countP_or_eq hte (hf.nodup hpa), if_congr (htq p hpa) rfl rfl]
    by_cases hpq : p = q
    · subst hpq
      rw [if_pos rfl]
      exact htok₁
    · rw [if_neg hpq, add_zero]
      change TokenAt (s₁.proc p).childexit (s₁.phase p) p _
      rw [(hframe p hpq).1, (hframe p hpq).2]
      exact htok p hpt hpa hpe
  · have hsame : s₁.exits = s.exits ∧ s₁.reaped = s.reaped ∧ s₁.births = s.births := by
      rw [hp.same]
      exact ⟨rfl, rfl, rfl⟩
    refine hrec.die ht hte (hf.birth t ht) (fun c hc => hf.inj c t hc ht) ?_ hsame.2.1 hsame.2.2
      halloc (fun c => hp.record c) hexit
    change s.record t :: s₁.exits = _
    rw [hsame.1]
  · change s₁.panicked = false
    rw [hp.same]
    exact hcalm

/-- **`exit` keeps the invariant.** -/
theorem exit (h : Tree s kids) (ht : s.allocated t) (hrun : (s.proc t).state = .runnable)
    {code : ℤ} (hs : s.exit t code = some s') : ∃ kids', Tree s' kids' := by
  simp only [ProcSys.exit] at hs
  split_ifs at hs with hguard
  rw [not_or, not_not] at hguard
  obtain ⟨htr, hd⟩ := hguard
  have htr : t ≠ s.rootproc (s.proc t).container := htr
  obtain ⟨hra, -, hre⟩ := h.family.rootproc _ (h.family.container t ht)
  set r := s.rootproc (s.proc t).container with hr
  -- the exit code
  set s₀ := s.setProc t { s.proc t with exitcode := code } with hs₀
  have hproc₀ : s₀.proc t = { s.proc t with exitcode := code } := by simp [hs₀, ProcSys.setProc]
  have h₀ : Tree s₀ kids := by
    refine h.setProc (h.family.setProc rfl ⟨rfl, rfl, rfl⟩ id (fun _ hu => ?_) Iff.rfl
      (fun _ => hrun)) rfl rfl rfl Iff.rfl ?_
    · rw [hrun] at hu
      cases hu
    · intro he
      simp [ProcSys.exited, hrun, hd] at he
  have hre₀ : s₀.exited r = false := by
    have hprocr : s₀.proc r = s.proc r := by simp [hs₀, ProcSys.setProc, htr.symm]
    simp only [ProcSys.exited, hprocr]
    exact hre
  -- the posts for the dead children
  obtain ⟨s₁, hz, hp₁, htok₁, hf₁⟩ := ProcSys.postZombies_spec (kids t) (h₀.tokens r hra hre₀)
  rw [h.family.kidsOf ht, Option.bind_eq_bind, Option.bind_some, hz, Option.bind_eq_bind,
    Option.bind_some] at hs
  -- the children go to `r`
  have halloc₁ : s₁.allocated = s.allocated := by rw [hp₁.same]; rfl
  have hre₁ : s₁.exited r = false := by rw [hp₁.exited]; exact hre₀
  have hfam₂ := (h₀.family.of_posted hp₁).inherit (by rw [halloc₁]; exact ht)
    (by rw [halloc₁]; exact hra) htr hre₁
  obtain ⟨hsame₂, hproc₂⟩ := moved_frame r t (kids t) s₁
  set s₂ := (ProcSys.setParents r (kids t) s₁).mergeChildren t r with hs₂
  have hproct : s₂.proc t =
      { s.proc t with exitcode := code, parent := (s₂.proc t).parent } := by
    rw [hproc₂ t, (hf₁ t htr).1, hproc₀]
  have hd₂ : s₂.dying = none := by
    rw [hsame₂]
    exact hp₁.dying.trans hd
  have hfield₂ : ∀ q, (s₂.proc q).childexit = (s₁.proc q).childexit ∧
      (s₂.proc q).state = (s₁.proc q).state := by
    intro q
    rw [hproc₂ q]
    exact ⟨rfl, rfl⟩
  have htok₂ := h₀.tokens.inherit hd htr hp₁ htok₁ hf₁ hfield₂
    (by rw [hsame₂]; exact ⟨rfl, rfl, rfl⟩)
  have hexit₂ : s₂.exited = s₀.exited := by
    rw [← hp₁.exited]
    funext q
    simp only [ProcSys.exited]
    rw [hproc₂ q, hsame₂]
  have hrec₂ : ∀ c, s₂.record c = s₀.record c := by
    intro c
    rw [← hp₁.record c]
    simp only [ProcSys.record]
    rw [hproc₂ c]
  have hbase : s₂.allocated = s₀.allocated ∧ s₂.exits = s₀.exits ∧ s₂.reaped = s₀.reaped ∧
      s₂.births = s₀.births ∧ s₂.panicked = s₀.panicked ∧ s₂.rootproc = s₀.rootproc := by
    rw [hsame₂, hp₁.same]
    exact ⟨rfl, rfl, rfl, rfl, rfl, rfl⟩
  obtain ⟨halloc₂, hexits₂, hreaped₂, hbirths₂, hpanic₂, hroot₂⟩ := hbase
  have hrecords₂ : Records s₂ := by
    refine h₀.records.congr hexits₂ hreaped₂ hbirths₂.ge ?_
    intro c hc
    rw [halloc₂] at hc
    rw [hexit₂]
    exact .inr ⟨hc, congrArg Exited.birth (hrec₂ c), rfl, fun _ => hrec₂ c⟩
  -- the parent learns of it
  cases hpar : (s₂.proc t).parent with
  | none => simp [hpar] at hs
  | some q =>
      simp only [hpar, Option.bind_eq_bind, Option.bind_some, Option.bind_eq_some_iff] at hs
      obtain ⟨s₃, hpost, hs⟩ := hs
      have hfin := finish hfam₂ hd₂ (by rw [halloc₂]; exact ht)
        (by rw [hproct]; exact hrun) (by rw [hproct, hroot₂]; exact htr.symm)
        (by simp [OsLab.inherit]) htok₂ hrecords₂ (by rw [hpanic₂]; exact h₀.calm) hpar hpost
        (s₃.pids.give (s₃.proc t).pid)
      have hrec₃ : s₂.record t =
          ⟨(s₃.proc t).birth, code, (s₃.proc t).localpid, (s₃.proc t).pid⟩ := by
        have hsame := (ProcSys.postSem_posted hpost).record t
        have hcode : (s₃.proc t).exitcode = code := by
          have h₂ : (s₂.proc t).exitcode = code := by rw [hproct]
          exact (congrArg Exited.exitcode hsame).trans h₂
        rw [← hsame, ProcSys.record, hcode]
      rw [hrec₃] at hfin
      rw [← Option.some.inj hs]
      exact ⟨_, hfin⟩

/-- **A step keeps the invariant**, if no `kill` wakes up what has not been started. -/
theorem step (h : Tree s kids) {a : ProcAct} (hs : s.step (t, a) = some s')
    (hkill : ∀ b born, s.phase t = .alerting b born → a = .alert → (s.proc b).state ≠ .unused) :
    ∃ kids', Tree s' kids' := by
  obtain ⟨-, ht, ⟨-, hd, rfl⟩ | ⟨-, hrun, hd, hm⟩⟩ := ProcSys.step_cases hs
  · exact ⟨_, h.zombie hd⟩
  have he : s.exited t = false := by simp [ProcSys.exited, hrun, hd]
  cases hm with
  | createProc hph ha => exact ⟨_, h.createProc ha⟩
  | setParentToThis hph hc hp =>
      obtain ⟨hca, hcu, -⟩ := ProcSys.mine_iff.mp hc
      exact ⟨_, h.addChild ht he hca hcu hp⟩
  | setContainerToThis hph hc hr =>
      obtain ⟨hca, hcu, -⟩ := ProcSys.mine_iff.mp hc
      exact ⟨_, h.setContainer ht hca hcu hr⟩
  | createContainer hph hc hr =>
      obtain ⟨hca, hcu, -⟩ := ProcSys.mine_iff.mp hc
      exact ⟨_, h.createContainer hca hcu hr⟩
  | startProc hph hc hd =>
      obtain ⟨hca, hcu, -⟩ := ProcSys.mine_iff.mp hc
      exact h.startProc hca hcu
  | exit hph hs => exact h.exit ht hrun hs
  | waitAlone hph => exact ⟨_, h⟩
  | wait hph =>
      exact ⟨_, h.setPhase hrun hd (by simp [hph]) (by simp) (by simp [hph, ProcPhase.taken])⟩
  | waitSem hph hs => exact ⟨_, h.waitSem hrun hd hph hs⟩
  | resume hph =>
      exact ⟨_, h.setPhase hrun hd (by simp [hph]) (by simp) (by simp [hph, ProcPhase.taken])⟩
  | interrupted hph hs => exact ⟨_, h.interrupted hrun hd hph hs⟩
  | reap hph hs =>
      have hdn : s.dying = none := by
        by_contra hdn
        simp [ProcSys.reap, hdn] at hs
      obtain ⟨c, hc, hz, hreap⟩ := h.found ht he hph hdn
      rw [hreap] at hs
      cases hs
      exact ⟨_, h.free ht he hph hdn hc hz⟩
  | kill hph => exact ⟨_, h.kill hrun hd hph _⟩
  | alert hph hd => exact ⟨_, h.alert hrun hd hph (hkill _ _ hph rfl)⟩

/-- What the invariant says of the protocol. -/
theorem exitWait (h : Tree s kids) : s.ExitWait kids where
  listed q hq := ⟨h.family.ring q hq, h.family.nodup hq, fun p => h.family.mem q p hq⟩
  tokens p hp he := (h.tokens p hp he).count
  found _ hp he hph hd := h.found hp he hph hd
  calm := h.calm
  exitOnce := h.records.exitOnce
  once := h.records.once
  own r hr := ⟨(h.records.reaped r hr).1, (h.records.reaped r hr).2.1⟩

end Tree

/-! ## Runs -/

/-- Any function but `kill`. -/
def ProcAct.noKill : ProcAct → Bool
  | .kill _ => false
  | .alert => false
  | _ => true

/-- **The protocol of `exit` and `wait`** holds in every state of every run of `create_proc`,
`set_parent_to_this`, `start_proc`, `exit` and `wait`, in nested containers. -/
theorem exit_wait_protocol (junk : ℕ → ℤ) (s : ProcSys)
    (h : Reach ProcSys.step (fun _ i => i.2.noKill = true) (ProcSys.start junk) s) :
    ∃ kids, s.ExitWait kids := by
  have htree : ∃ kids, Tree s kids := by
    refine Reach.invariant (P := fun s => ∃ kids, Tree s kids) h ⟨_, Tree.init junk⟩ ?_
    rintro s ⟨t, a⟩ s' ⟨kids, hk⟩ hok hs
    refine hk.step hs ?_
    rintro b born - rfl
    cases hok
  obtain ⟨kids, hk⟩ := htree
  exact ⟨kids, hk.exitWait⟩

/-- A child and a grandchild exit; the grandchild is left to the root process, which reaps it. -/
theorem exit_wait_protocol_orphan : ∃ (s : ProcSys) (kids : ℕ → List ℕ), s.ExitWait kids ∧
    s.reaped.map (fun r => (r.reaper, r.child)) =
      [(0, ⟨2, 7, 2, 3⟩), (0, ⟨1, 5, 1, 2⟩)] := by
  have hrun : (runs (fun s i => if i.2.noKill then s.step i else none)
      (ProcSys.start fun _ => 0) [(0, .createProc 1), (0, .setParentToThis 1), (0, .startProc 1),
        (1, .createProc 2), (1, .setParentToThis 2), (1, .startProc 2), (2, .exit 7),
        (2, .zombie), (1, .exit 5), (1, .zombie), (0, .wait), (0, .waitSem), (0, .reap),
        (0, .wait), (0, .waitSem), (0, .reap)]).map
      (fun s => s.reaped.map fun r => (r.reaper, r.child)) =
      some [(0, ⟨2, 7, 2, 3⟩), (0, ⟨1, 5, 1, 2⟩)] := by decide +kernel
  obtain ⟨s, hs, hreaped⟩ := Option.map_eq_some_iff.mp hrun
  obtain ⟨kids, hk⟩ := exit_wait_protocol _ s (Reach.of_tested .init (fun _ _ h => h) _ hs)
  exact ⟨s, kids, hk, hreaped⟩

end OsLab
