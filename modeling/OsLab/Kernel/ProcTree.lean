import OsLab.Kernel.Proc
import Mathlib.Data.List.Perm.Subperm

/-!
# The process tree

The children lists of the processes say the same as their `parent` pointers, and
`childexit` of a process counts its dead children: a child posts when it dies, and a
dying process posts to the new parent of its children for each one that is dead.

## Main definitions

* `Family s kids` — `kids p` are the children of `p`.
* `TokenAt` — `childexit` and the phase of a process that has `n` dead children.
* `Tokens` — that holds of every process.
-/

namespace OsLab

/-- `kids p` are the children of each process `p`, and the containers have their root processes. -/
structure Family (s : ProcSys) (kids : ℕ → List ℕ) : Prop where
  ring : ∀ p, s.allocated p → IsRing s.links (.children p) ((kids p).map .ptnode)
  mem : ∀ p c, s.allocated p →
    (c ∈ kids p ↔ s.allocated c ∧ c ≠ ProcSys.root ∧ (s.proc c).parent = some p)
  parent : ∀ c p, s.allocated c → (s.proc c).parent = some p →
    s.allocated p ∧ s.exited p = false
  /-- who has been started has a parent -/
  started : ∀ c, s.allocated c → (s.proc c).state ≠ .unused → (s.proc c).parent ≠ none
  rootproc : ∀ k < s.containers, s.allocated (s.rootproc k) ∧
    (s.proc (s.rootproc k)).container = k ∧ s.exited (s.rootproc k) = false
  container : ∀ c, s.allocated c → (s.proc c).container < s.containers
  root : s.allocated ProcSys.root ∧ (s.proc ProcSys.root).container = 0 ∧
    s.rootproc 0 = ProcSys.root ∧ (s.proc ProcSys.root).state ≠ .unused ∧
    (s.proc ProcSys.root).parent = some ProcSys.root
  birth : ∀ c, s.allocated c → (s.proc c).birth < s.births
  inj : ∀ c d, s.allocated c → s.allocated d → (s.proc c).birth = (s.proc d).birth → c = d
  dying : ∀ c, s.dying = some c → s.allocated c ∧ (s.proc c).state = .runnable

/-- One if the process has taken a token that it has not used. -/
def ProcPhase.taken : ProcPhase → ℤ
  | .inSem true => 1
  | .token => 1
  | _ => 0

/-- `childexit` of process `p`, if `n` of its children are dead. -/
def TokenAt (sem : Semaphore) (ph : ProcPhase) (p n : ℕ) : Prop :=
  if ph = .inSem false then sem = ⟨-1, [p]⟩ ∧ n = 0
  else sem.sleeplist = [] ∧ 0 ≤ sem.val ∧ sem.val + ph.taken = n

/-- `childexit` of every process that is not dead counts its dead children. -/
def Tokens (s : ProcSys) (kids : ℕ → List ℕ) : Prop :=
  ∀ p, s.allocated p → s.exited p = false →
    TokenAt (s.proc p).childexit (s.phase p) p ((kids p).countP s.exited)

/-! ## Tokens -/

namespace TokenAt

variable {sem : Semaphore} {ph : ProcPhase} {p n : ℕ}

theorem of_ne (h : TokenAt sem ph p n) (hph : ph ≠ .inSem false) :
    sem.sleeplist = [] ∧ 0 ≤ sem.val ∧ sem.val + ph.taken = n := by
  rwa [TokenAt, if_neg hph] at h

/-- The number of dead children, as `childexit` shows it. -/
theorem count (h : TokenAt sem ph p n) : (n : ℤ) = max sem.val 0 + ph.taken := by
  by_cases hph : ph = .inSem false
  · rw [TokenAt, if_pos hph] at h
    rw [h.1, h.2, hph]
    simp [ProcPhase.taken]
  · obtain ⟨-, hval, hsum⟩ := h.of_ne hph
    omega

/-- A phase with the same tokens. -/
theorem move (h : TokenAt sem ph p n) (hph : ph ≠ .inSem false) {ph' : ProcPhase}
    (hph' : ph' ≠ .inSem false) (htaken : ph'.taken = ph.taken) : TokenAt sem ph' p n := by
  rw [TokenAt, if_neg hph', htaken]
  exact h.of_ne hph

/-- A post. -/
theorem post (h : TokenAt sem ph p n) : ∃ w sem', sem.postSem = some (w, sem') ∧
    (w = none ∧ ph ≠ .inSem false ∧ TokenAt sem' ph p (n + 1) ∨
      w = some p ∧ ph = .inSem false ∧ TokenAt sem' (.inSem true) p (n + 1)) := by
  by_cases hph : ph = .inSem false
  · rw [TokenAt, if_pos hph] at h
    obtain ⟨rfl, rfl⟩ := h
    refine ⟨some p, ⟨0, []⟩, by simp [Semaphore.postSem], .inr ⟨rfl, hph, ?_⟩⟩
    simp [TokenAt, ProcPhase.taken]
  · obtain ⟨hlist, hval, hsum⟩ := h.of_ne hph
    refine ⟨none, { sem with val := sem.val + 1 }, ?_, .inl ⟨rfl, hph, ?_⟩⟩
    · rw [Semaphore.postSem, if_neg (by omega)]
    · rw [TokenAt, if_neg hph]
      refine ⟨hlist, ?_, ?_⟩
      · change 0 ≤ sem.val + 1
        omega
      · change sem.val + 1 + ph.taken = ((n + 1 : ℕ) : ℤ)
        push_cast
        omega

end TokenAt

/-! ## Posts -/

/-- Two states that differ in semaphores, in phases and in who sleeps. -/
structure Posted (s s' : ProcSys) : Prop where
  same : s' = { s with proc := s'.proc, phase := s'.phase }
  proc : ∀ q, s'.proc q =
    { s.proc q with childexit := (s'.proc q).childexit, state := (s'.proc q).state }
  state : ∀ q, (s'.proc q).state = (s.proc q).state ∨
    (s.proc q).state = .sleeping ∧ (s'.proc q).state = .runnable
  phase : ∀ q, s'.phase q = s.phase q ∨ s'.phase q = .inSem true

namespace Posted

variable {s s' s'' : ProcSys}

theorem refl (s : ProcSys) : Posted s s :=
  ⟨rfl, fun _ => rfl, fun _ => .inl rfl, fun _ => .inl rfl⟩

theorem trans (h : Posted s s') (h' : Posted s' s'') : Posted s s'' := by
  refine ⟨?_, ?_, ?_, ?_⟩
  · rw [h'.same, h.same]
  · intro q
    rw [h'.proc q, h.proc q]
  · intro q
    rcases h.state q with h1 | h1 <;> rcases h'.state q with h2 | h2
    · exact .inl (h2.trans h1)
    · exact .inr ⟨by rw [← h1, h2.1], h2.2⟩
    · exact .inr ⟨h1.1, h2.trans h1.2⟩
    · rw [h2.1] at h1
      cases h1.2
  · intro q
    rcases h'.phase q with h2 | h2
    · rw [h2]
      exact h.phase q
    · exact .inr h2

theorem zombie_iff (h : Posted s s') (q : ℕ) :
    (s'.proc q).state = .zombie ↔ (s.proc q).state = .zombie := by
  rcases h.state q with h1 | ⟨h1, h2⟩
  · rw [h1]
  · simp [h1, h2]

theorem unused_iff (h : Posted s s') (q : ℕ) :
    (s'.proc q).state = .unused ↔ (s.proc q).state = .unused := by
  rcases h.state q with h1 | ⟨h1, h2⟩
  · rw [h1]
  · simp [h1, h2]

theorem dying (h : Posted s s') : s'.dying = s.dying := by rw [h.same]

theorem exited (h : Posted s s') : s'.exited = s.exited := by
  funext q
  simp only [ProcSys.exited, h.zombie_iff q, h.dying]

end Posted

namespace ProcSys

variable {s : ProcSys} {p n : ℕ}

/-- `post_sem` on the semaphore of a process that is not dead. -/
theorem postSem_spec (h : TokenAt (s.proc p).childexit (s.phase p) p n) :
    ∃ s', s.postSem p = some s' ∧ Posted s s' ∧
      TokenAt (s'.proc p).childexit (s'.phase p) p (n + 1) ∧
      ∀ q, q ≠ p → s'.proc q = s.proc q ∧ s'.phase q = s.phase q := by
  obtain ⟨w, sem, hpost, ⟨rfl, hph, htok⟩ | ⟨rfl, hph, htok⟩⟩ := h.post
  · refine ⟨s.setProc p { s.proc p with childexit := sem }, ?_,
      ⟨rfl, ?_, ?_, fun _ => .inl rfl⟩, ?_, ?_⟩
    · simp [postSem, hpost]
    · intro q
      by_cases hq : q = p
      · subst hq
        simp [setProc]
      · simp [setProc, hq]
    · intro q
      by_cases hq : q = p
      · subst hq
        simp [setProc]
      · simp [setProc, hq]
    · simpa [setProc] using htok
    · intro q hq
      simp [setProc, hq]
  · set x : Proc := { s.proc p with
      childexit := sem
      state := if (s.proc p).state = .sleeping then .runnable else (s.proc p).state } with hx
    refine ⟨(s.setProc p x).setPhase p (.inSem true), ?_, ⟨rfl, ?_, ?_, ?_⟩, ?_, ?_⟩
    · simp only [postSem, hpost, Option.bind_eq_bind, Option.bind_some, Option.some.injEq]
      simp only [setProc, setPhase, Function.update_self]
      split_ifs with hs
      · simp [hx, hs]
      · simp [hx, hs]
    · intro q
      by_cases hq : q = p
      · subst hq
        simp [setProc, setPhase, hx]
      · simp [setProc, setPhase, hq]
    · intro q
      by_cases hq : q = p
      · subst hq
        by_cases hs : (s.proc q).state = .sleeping
        · simp [setProc, setPhase, hx, hs]
        · simp [setProc, setPhase, hx, hs]
      · simp [setProc, setPhase, hq]
    · intro q
      by_cases hq : q = p
      · subst hq
        simp [setProc, setPhase]
      · simp [setProc, setPhase, hq]
    · simpa [setProc, setPhase, hx] using htok
    · intro q hq
      simp [setProc, setPhase, hq]

/-- The new parent gets a token for each dead child. -/
theorem postZombies_spec {r : ℕ} (cs : List ℕ)
    (h : TokenAt (s.proc r).childexit (s.phase r) r n) :
    ∃ s', postZombies r cs s = some s' ∧ Posted s s' ∧
      TokenAt (s'.proc r).childexit (s'.phase r) r
        (n + cs.countP fun c => (s.proc c).state = .zombie) ∧
      ∀ q, q ≠ r → s'.proc q = s.proc q ∧ s'.phase q = s.phase q := by
  induction cs generalizing s n with
  | nil => exact ⟨s, rfl, .refl s, by simpa using h, fun _ _ => ⟨rfl, rfl⟩⟩
  | cons c cs ih =>
      by_cases hz : (s.proc c).state = .zombie
      · obtain ⟨s₁, h₁, hp₁, ht₁, hf₁⟩ := postSem_spec h
        obtain ⟨s₂, h₂, hp₂, ht₂, hf₂⟩ := ih ht₁
        refine ⟨s₂, ?_, hp₁.trans hp₂, ?_, ?_⟩
        · rw [postZombies, if_pos hz, h₁, Option.bind_some, h₂]
        · have hcount : (cs.countP fun c => (s₁.proc c).state = .zombie) =
              cs.countP fun c => (s.proc c).state = .zombie := by
            apply List.countP_congr
            intro c _
            simp [hp₁.zombie_iff c]
          rw [hcount] at ht₂
          rw [List.countP_cons_of_pos (by simpa using hz)]
          convert ht₂ using 1
          omega
        · intro q hq
          rw [(hf₂ q hq).1, (hf₂ q hq).2, (hf₁ q hq).1, (hf₁ q hq).2]
          exact ⟨rfl, rfl⟩
      · obtain ⟨s₂, h₂, hp₂, ht₂, hf₂⟩ := ih h
        refine ⟨s₂, ?_, hp₂, ?_, hf₂⟩
        · rw [postZombies, if_neg hz, h₂]
        · rwa [List.countP_cons_of_neg (by simpa using hz)]

/-- A process gets another semaphore, or is woken up. -/
theorem setProc_posted {x : Proc} {ph : ℕ → ProcPhase}
    (hx : x = { s.proc p with childexit := x.childexit, state := x.state })
    (hstate : x.state = (s.proc p).state ∨ (s.proc p).state = .sleeping ∧ x.state = .runnable)
    (hphase : ∀ q, ph q = s.phase q ∨ ph q = .inSem true) :
    Posted s { s.setProc p x with phase := ph } := by
  refine ⟨rfl, ?_, ?_, hphase⟩
  · intro q
    by_cases hq : q = p
    · subst hq
      simpa [setProc] using hx
    · simp [setProc, hq]
  · intro q
    by_cases hq : q = p
    · subst hq
      simpa [setProc] using hstate
    · simp [setProc, hq]

/-- `post_sem`, on any semaphore. -/
theorem postSem_posted {s' : ProcSys} (h : s.postSem p = some s') : Posted s s' := by
  rw [postSem, Option.bind_eq_bind, Option.bind_eq_some_iff] at h
  obtain ⟨⟨w, sem⟩, -, h⟩ := h
  have h₁ : ∀ ph : ℕ → ProcPhase, (∀ q, ph q = s.phase q ∨ ph q = .inSem true) →
      Posted s { s.setProc p { s.proc p with childexit := sem } with phase := ph } :=
    fun ph => setProc_posted rfl (.inl rfl)
  cases w with
  | none =>
      cases h
      exact h₁ s.phase fun _ => .inl rfl
  | some w =>
      have hphase : ∀ q, Function.update s.phase w (.inSem true) q = s.phase q ∨
          Function.update s.phase w (.inSem true) q = .inSem true := by
        intro q
        by_cases hq : q = w
        · simp [hq]
        · simp [hq]
      simp only [Option.some.injEq] at h
      rw [← h]
      split_ifs with hw
      · exact (h₁ _ hphase).trans
          (setProc_posted rfl (.inr ⟨hw, rfl⟩) fun _ => .inl rfl)
      · exact h₁ _ hphase

theorem postZombies_posted {r : ℕ} {cs : List ℕ} {s' : ProcSys}
    (h : postZombies r cs s = some s') : Posted s s' := by
  induction cs generalizing s with
  | nil =>
      cases h
      exact .refl _
  | cons c cs ih =>
      rw [postZombies] at h
      split_ifs at h with hz
      · rw [Option.bind_eq_some_iff] at h
        obtain ⟨s₁, h₁, h₂⟩ := h
        exact (postSem_posted h₁).trans (ih h₂)
      · exact ih h

end ProcSys

/-! ## The children -/

namespace Family

variable {s s' : ProcSys} {kids : ℕ → List ℕ} {t p q c : ℕ}

/-- What the family does not see. -/
theorem congr (h : Family s kids) (halloc : s'.allocated = s.allocated)
    (hlinks : s'.links = s.links) (hroot : s'.rootproc = s.rootproc)
    (hcont : s'.containers = s.containers) (hbirths : s'.births = s.births)
    (hproc : ∀ c, (s'.proc c).parent = (s.proc c).parent ∧
      (s'.proc c).container = (s.proc c).container ∧ (s'.proc c).birth = (s.proc c).birth)
    (hunused : ∀ c, (s'.proc c).state = .unused → (s.proc c).state = .unused)
    (hused : ∀ c, (s'.proc c).state ≠ .unused → (s.proc c).state = .unused →
      (s.proc c).parent ≠ none)
    (hexit : s'.exited = s.exited)
    (hdying : ∀ c, s'.dying = some c → s'.allocated c ∧ (s'.proc c).state = .runnable) :
    Family s' kids := by
  constructor
  case ring =>
    rw [halloc, hlinks]
    exact h.ring
  case mem =>
    intro p c hp
    rw [halloc] at hp ⊢
    rw [(hproc c).1]
    exact h.mem p c hp
  case parent =>
    intro c p hc hpar
    rw [halloc] at hc ⊢
    rw [(hproc c).1] at hpar
    rw [hexit]
    exact h.parent c p hc hpar
  case started =>
    intro c hc hu
    rw [halloc] at hc
    rw [(hproc c).1]
    by_cases hu' : (s.proc c).state = .unused
    · exact hused c hu hu'
    · exact h.started c hc hu'
  case rootproc =>
    intro k hk
    rw [hcont] at hk
    rw [halloc, hroot, hexit, (hproc _).2.1]
    exact h.rootproc k hk
  case container =>
    intro c hc
    rw [halloc] at hc
    rw [hcont, (hproc c).2.1]
    exact h.container c hc
  case root =>
    obtain ⟨h1, h2, h3, h4, h5⟩ := h.root
    rw [halloc, hroot, (hproc _).2.1, (hproc _).1]
    exact ⟨h1, h2, h3, fun hu => h4 (hunused _ hu), h5⟩
  case birth =>
    intro c hc
    rw [halloc] at hc
    rw [hbirths, (hproc c).2.2]
    exact h.birth c hc
  case inj =>
    intro c d hc hd heq
    rw [halloc] at hc hd
    rw [(hproc c).2.2, (hproc d).2.2] at heq
    exact h.inj c d hc hd heq
  case dying => exact hdying

theorem of_posted (h : Family s kids) (hp : Posted s s') : Family s' kids := by
  have hsame := hp.same
  refine h.congr (by rw [hsame]) (by rw [hsame]) (by rw [hsame]) (by rw [hsame]) (by rw [hsame])
    ?_ (fun c => (hp.unused_iff c).mp) (fun c hu hu' => absurd ((hp.unused_iff c).mpr hu') hu)
    hp.exited ?_
  · intro c
    rw [hp.proc c]
    exact ⟨rfl, rfl, rfl⟩
  · intro c hc
    rw [hp.dying] at hc
    obtain ⟨h1, h2⟩ := h.dying c hc
    refine ⟨by rw [hsame]; exact h1, ?_⟩
    rcases hp.state c with h3 | ⟨h3, -⟩
    · rw [h3, h2]
    · rw [h2] at h3
      cases h3

theorem nodup (h : Family s kids) (hp : s.allocated p) : (kids p).Nodup :=
  List.Nodup.of_map _ (List.nodup_cons.mp (h.ring p hp).nodup).2

theorem eq_of_mem (h : Family s kids) (hp : s.allocated p) (hq : s.allocated q)
    (hcp : c ∈ kids p) (hcq : c ∈ kids q) : p = q := by
  have h1 := ((h.mem p c hp).mp hcp).2.2
  have h2 := ((h.mem q c hq).mp hcq).2.2
  rw [h1] at h2
  exact Option.some.inj h2

/-- The lists of two processes have nothing in common. -/
theorem disjoint (h : Family s kids) (hp : s.allocated p) (hq : s.allocated q) (hpq : p ≠ q) :
    ∀ a ∈ PNode.children p :: (kids p).map .ptnode,
      a ∉ PNode.children q :: (kids q).map .ptnode := by
  intro a ha hb
  simp only [List.mem_cons, List.mem_map] at ha hb
  rcases ha with rfl | ⟨c, hc, rfl⟩
  · rcases hb with hb | ⟨d, -, hd⟩
    · exact hpq (by simpa using hb)
    · cases hd
  · rcases hb with hb | ⟨d, hd, heq⟩
    · cases hb
    · cases heq
      exact hpq (h.eq_of_mem hp hq hc hd)

/-- There are fewer children than processes. -/
theorem length_lt (h : Family s kids) (hp : s.allocated p) : (kids p).length < s.births + 1 := by
  have hmap : ((kids p).map fun c => (s.proc c).birth).Nodup := by
    rw [List.nodup_map_iff_inj_on (h.nodup hp)]
    intro c hc d hd heq
    exact h.inj c d ((h.mem p c hp).mp hc).1 ((h.mem p d hp).mp hd).1 heq
  have hsub : ((kids p).map fun c => (s.proc c).birth) ⊆ List.range s.births := by
    intro b hb
    obtain ⟨c, hc, rfl⟩ := List.mem_map.mp hb
    exact List.mem_range.mpr (h.birth c ((h.mem p c hp).mp hc).1)
  have := (hmap.subperm hsub).length_le
  rw [List.length_map, List.length_range] at this
  omega

theorem kidsOf (h : Family s kids) (hp : s.allocated p) : s.kidsOf p = some (kids p) := by
  rw [ProcSys.kidsOf, (h.ring p hp).nodes_eq (by simpa using h.length_lt hp), Option.map_some,
    List.map_map]
  congr 1
  exact List.map_id'' (fun _ => rfl) _

theorem exited_of_unused (h : Family s kids) (hc : (s.proc c).state = .unused) :
    s.exited c = false := by
  have hdying : s.dying ≠ some c := by
    intro hd
    have := (h.dying c hd).2
    rw [hc] at this
    cases this
  simp [ProcSys.exited, hc, hdying]

theorem ne_root_of_unused (h : Family s kids) (hc : (s.proc c).state = .unused) :
    c ≠ ProcSys.root := by
  rintro rfl
  exact h.root.2.2.2.1 hc

/-- A process that has no parent yet gets one. -/
theorem addChild (h : Family s kids) (hp : s.allocated p) (hpe : s.exited p = false)
    (hc : s.allocated c) (hcr : c ≠ ProcSys.root) (hcp : (s.proc c).parent = none) :
    Family (s.addChild p c) (Function.update kids p (c :: kids p)) := by
  -- `c` is on nobody's list
  have hfree : ∀ q, s.allocated q → c ∉ kids q := by
    intro q hq hmem
    have := ((h.mem q c hq).mp hmem).2.2
    rw [hcp] at this
    cases this
  have hnode : ∀ q, s.allocated q →
      PNode.ptnode c ∉ PNode.children q :: (kids q).map .ptnode := by
    intro q hq hmem
    simp only [List.mem_cons, reduceCtorEq, false_or, List.mem_map, PNode.ptnode.injEq,
      exists_eq_right] at hmem
    exact hfree q hq hmem
  constructor
  case ring =>
    intro q hq
    by_cases hqp : q = p
    · subst hqp
      rw [Function.update_self, List.map_cons]
      exact (h.ring q hq).insert_front (hnode q hq)
    · rw [Function.update_of_ne hqp]
      exact (h.ring q hq).insert_frame (h.ring p hp) (by simp) (h.disjoint hq hp hqp)
        (hnode q hq) (hnode p hp)
  case mem =>
    intro q d hq
    by_cases hdc : d = c
    · subst hdc
      rw [ProcSys.addChild_proc_self]
      by_cases hqp : q = p
      · subst hqp
        simpa using ⟨hc, hcr⟩
      · rw [Function.update_of_ne hqp]
        simpa [Ne.symm hqp] using hfree q hq
    · rw [ProcSys.addChild_proc_of_ne hdc]
      by_cases hqp : q = p
      · subst hqp
        rw [Function.update_self, List.mem_cons, or_iff_right hdc]
        exact h.mem q d hq
      · rw [Function.update_of_ne hqp]
        exact h.mem q d hq
  case parent =>
    intro d q hd hpar
    rw [ProcSys.addChild_exited]
    by_cases hdc : d = c
    · subst hdc
      rw [ProcSys.addChild_proc_self] at hpar
      cases hpar
      exact ⟨hp, hpe⟩
    · rw [ProcSys.addChild_proc_of_ne hdc] at hpar
      exact h.parent d q hd hpar
  case started =>
    intro d hd hused
    by_cases hdc : d = c
    · subst hdc
      simp [ProcSys.addChild_proc_self]
    · rw [ProcSys.addChild_proc_of_ne hdc] at hused ⊢
      exact h.started d hd hused
  case rootproc =>
    intro k hk
    rw [ProcSys.addChild_exited, ProcSys.addChild_proc]
    exact h.rootproc k hk
  case container =>
    intro d hd
    rw [ProcSys.addChild_proc]
    exact h.container d hd
  case root =>
    rw [ProcSys.addChild_proc_of_ne hcr.symm]
    exact h.root
  case birth =>
    intro d hd
    rw [ProcSys.addChild_proc]
    exact h.birth d hd
  case inj =>
    intro d e hd he heq
    rw [ProcSys.addChild_proc, ProcSys.addChild_proc] at heq
    exact h.inj d e hd he heq
  case dying =>
    intro d hd
    rw [ProcSys.addChild_proc]
    exact h.dying d hd

/-- A new process. -/
theorem createProc (h : Family s kids) {a : ℕ} (ha : s.allocated a = false) :
    Family (s.createProc t a) (Function.update kids a []) := by
  have hne : ∀ q, s.allocated q → q ≠ a := fun q => ProcSys.ne_of_free ha
  have hproc := fun q (hq : q ≠ a) => ProcSys.createProc_proc_of_ne (s := s) (t := t) hq
  have hproca := ProcSys.createProc_proc_self (s := s) (t := t) (a := a)
  have hbirth : ((s.createProc t a).proc a).birth = s.births := by rw [hproca]
  have halloc := fun q => ProcSys.createProc_allocated (s := s) (t := t) (a := a) (q := q)
  have hexit := fun q (hq : q ≠ a) => ProcSys.createProc_exited_of_ne (s := s) (t := t) hq
  have hpos : 0 < s.containers := by
    have := h.container _ h.root.1
    omega
  have hroot : ProcSys.root ≠ a := hne _ h.root.1
  constructor
  case ring =>
    intro q hq
    by_cases hqa : q = a
    · subst hqa
      rw [Function.update_self]
      apply (IsRing.init s.links (.children q)).congr
      · simp [ProcSys.createProc, Links.initListNode]
      · simp [ProcSys.createProc, Links.initListNode]
    · rw [Function.update_of_ne hqa]
      have hqs : s.allocated q := ((halloc q).mp hq).resolve_left hqa
      have hnode : ∀ x ∈ PNode.children q :: (kids q).map .ptnode,
          x ≠ .children a ∧ x ≠ .ptnode a := by
        intro x hx
        simp only [List.mem_cons, List.mem_map] at hx
        rcases hx with rfl | ⟨d, hd, rfl⟩
        · simpa using hqa
        · simpa using hne d ((h.mem q d hqs).mp hd).1
      apply (h.ring q hqs).congr
      · intro x hx
        simp [ProcSys.createProc, Links.initListNode, hnode x hx]
      · intro x hx
        simp [ProcSys.createProc, Links.initListNode, hnode x hx]
  case mem =>
    intro q d hq
    rw [halloc]
    by_cases hqa : q = a
    · subst hqa
      rw [Function.update_self]
      simp only [List.not_mem_nil, false_iff, not_and]
      intro hd hdr hpar
      rcases hd with rfl | hd
      · rw [hproca] at hpar
        cases hpar
      · rw [hproc d (hne d hd)] at hpar
        exact hne _ (h.parent d _ hd hpar).1 rfl
    · have hqs : s.allocated q := ((halloc q).mp hq).resolve_left hqa
      rw [Function.update_of_ne hqa, h.mem q d hqs]
      by_cases hda : d = a
      · subst hda
        simp [ha, hproca]
      · rw [hproc d hda]
        simp [hda]
  case parent =>
    intro d q hd hpar
    rw [halloc]
    rcases (halloc d).mp hd with rfl | hd
    · rw [hproca] at hpar
      cases hpar
    · rw [hproc d (hne d hd)] at hpar
      obtain ⟨h1, h2⟩ := h.parent d q hd hpar
      rw [hexit q (hne q h1)]
      exact ⟨.inr h1, h2⟩
  case started =>
    intro d hd hused
    rcases (halloc d).mp hd with rfl | hd
    · rw [hproca] at hused
      exact absurd rfl hused
    · rw [hproc d (hne d hd)] at hused ⊢
      exact h.started d hd hused
  case rootproc =>
    intro k hk
    obtain ⟨h1, h2, h3⟩ := h.rootproc k hk
    have hra : s.rootproc k ≠ a := hne _ h1
    change (s.createProc t a).allocated (s.rootproc k) = true ∧
      ((s.createProc t a).proc (s.rootproc k)).container = k ∧
      (s.createProc t a).exited (s.rootproc k) = false
    rw [halloc, hproc _ hra, hexit _ hra]
    exact ⟨.inr h1, h2, h3⟩
  case container =>
    intro d hd
    change ((s.createProc t a).proc d).container < s.containers
    rcases (halloc d).mp hd with rfl | hd
    · rw [hproca]
      exact hpos
    · rw [hproc d (hne d hd)]
      exact h.container d hd
  case root =>
    rw [halloc, hproc _ hroot]
    exact ⟨.inr h.root.1, h.root.2⟩
  case birth =>
    intro d hd
    change ((s.createProc t a).proc d).birth < s.births + 1
    rcases (halloc d).mp hd with rfl | hd
    · rw [hbirth]
      omega
    · rw [hproc d (hne d hd)]
      have := h.birth d hd
      omega
  case inj =>
    intro d e hd he heq
    rcases (halloc d).mp hd with rfl | hd'
    · rcases (halloc e).mp he with rfl | he'
      · rfl
      · rw [hbirth, hproc e (hne e he')] at heq
        have := h.birth e he'
        omega
    · rcases (halloc e).mp he with rfl | he'
      · rw [hbirth, hproc d (hne d hd')] at heq
        have := h.birth d hd'
        omega
      · rw [hproc d (hne d hd'), hproc e (hne e he')] at heq
        exact h.inj d e hd' he' heq
  case dying =>
    intro d hd
    obtain ⟨h1, h2⟩ := h.dying d hd
    rw [halloc, hproc d (hne d h1)]
    exact ⟨.inr h1, h2⟩

/-- Whoever is the root process of a container is that of its own one. -/
theorem rootproc_ne (h : Family s kids) (hr : s.rootproc (s.proc c).container ≠ c) {k : ℕ}
    (hk : k < s.containers) : s.rootproc k ≠ c := by
  rintro rfl
  rw [(h.rootproc k hk).2.1] at hr
  exact hr rfl

/-- A process that has not been started is put into a container, which may be a new one. -/
theorem setContainer (h : Family s kids) (hc : s.allocated c) (hu : (s.proc c).state = .unused)
    (hr : s.rootproc (s.proc c).container ≠ c) {k : ℕ} {rp : ℕ → ℕ} {n : ℕ}
    (hk : k < n) (hn : s.containers ≤ n) (hold : ∀ j < s.containers, rp j = s.rootproc j)
    (hnew : ∀ j < n, s.containers ≤ j → rp j = c ∧ j = k) (pools : ℕ → PidPool) :
    Family { s.setProc c { s.proc c with container := k } with
      rootproc := rp
      containers := n
      localPids := pools } kids := by
  set s' : ProcSys := { s.setProc c { s.proc c with container := k } with
    rootproc := rp
    containers := n
    localPids := pools } with hs'
  have hproc : ∀ q, q ≠ c → s'.proc q = s.proc q := by
    intro q hq
    simp [hs', ProcSys.setProc, hq]
  have hprocc : s'.proc c = { s.proc c with container := k } := by
    simp [hs', ProcSys.setProc]
  have hsame : ∀ q, (s'.proc q).parent = (s.proc q).parent ∧
      (s'.proc q).state = (s.proc q).state ∧ (s'.proc q).birth = (s.proc q).birth := by
    intro q
    by_cases hq : q = c
    · subst hq
      rw [hprocc]
      exact ⟨rfl, rfl, rfl⟩
    · rw [hproc q hq]
      exact ⟨rfl, rfl, rfl⟩
  have hexit : s'.exited = s.exited := by
    funext q
    simp only [ProcSys.exited, (hsame q).2.1]
    rfl
  have hcr : ProcSys.root ≠ c := (h.ne_root_of_unused hu).symm
  have hpos : 0 < s.containers := by
    have := h.container c hc
    omega
  constructor
  case ring => exact h.ring
  case mem =>
    intro q d hq
    rw [(hsame d).1]
    exact h.mem q d hq
  case parent =>
    intro d q hd hpar
    rw [(hsame d).1] at hpar
    rw [hexit]
    exact h.parent d q hd hpar
  case started =>
    intro d hd hused
    rw [(hsame d).2.1] at hused
    rw [(hsame d).1]
    exact h.started d hd hused
  case rootproc =>
    intro j hj
    rw [hexit]
    change s.allocated (rp j) = true ∧ (s'.proc (rp j)).container = j ∧ s.exited (rp j) = false
    by_cases hj' : j < s.containers
    · rw [hold j hj', hproc _ (h.rootproc_ne hr hj')]
      exact h.rootproc j hj'
    · obtain ⟨h1, h2⟩ := hnew j hj (by omega)
      rw [h1, hprocc]
      exact ⟨hc, h2.symm, h.exited_of_unused hu⟩
  case container =>
    intro d hd
    change (s'.proc d).container < n
    by_cases hdc : d = c
    · subst hdc
      rw [hprocc]
      exact hk
    · rw [hproc d hdc]
      have := h.container d hd
      omega
  case root =>
    rw [hproc _ hcr]
    obtain ⟨h1, h2, h3, h4⟩ := h.root
    exact ⟨h1, h2, (hold 0 hpos).trans h3, h4⟩
  case birth =>
    intro d hd
    rw [(hsame d).2.2]
    exact h.birth d hd
  case inj =>
    intro d e hd he heq
    rw [(hsame d).2.2, (hsame e).2.2] at heq
    exact h.inj d e hd he heq
  case dying =>
    intro d hd
    rw [(hsame d).2.1]
    exact h.dying d hd

/-- One process changes, but not its place in the tree. -/
theorem setProc (h : Family s kids) {x : Proc} {c : ℕ} (hs : s' = { s with
      proc := Function.update s.proc c x
      phase := s'.phase
      pids := s'.pids
      localPids := s'.localPids
      alerts := s'.alerts })
    (hx : x.parent = (s.proc c).parent ∧ x.container = (s.proc c).container ∧
      x.birth = (s.proc c).birth)
    (hunused : x.state = .unused → (s.proc c).state = .unused)
    (hused : x.state ≠ .unused → (s.proc c).state = .unused → (s.proc c).parent ≠ none)
    (hzombie : x.state = .zombie ↔ (s.proc c).state = .zombie)
    (hdying : s.dying = some c → x.state = .runnable) : Family s' kids := by
  have hproc : ∀ q, q ≠ c → s'.proc q = s.proc q := by
    intro q hq
    rw [hs]
    simp [hq]
  have hprocc : s'.proc c = x := by
    rw [hs]
    simp
  have hd : s'.dying = s.dying := by rw [hs]
  refine h.congr (by rw [hs]) (by rw [hs]) (by rw [hs]) (by rw [hs]) (by rw [hs]) ?_ ?_ ?_ ?_ ?_
  · intro q
    by_cases hq : q = c
    · subst hq
      rw [hprocc]
      exact hx
    · rw [hproc q hq]
      exact ⟨rfl, rfl, rfl⟩
  · intro q hu
    by_cases hq : q = c
    · subst hq
      rw [hprocc] at hu
      exact hunused hu
    · rwa [hproc q hq] at hu
  · intro q hu hu'
    by_cases hq : q = c
    · subst hq
      rw [hprocc] at hu
      exact hused hu hu'
    · rw [hproc q hq] at hu
      exact absurd hu' hu
  · funext q
    by_cases hq : q = c
    · subst hq
      simp only [ProcSys.exited, hprocc, hd, hzombie]
    · simp only [ProcSys.exited, hproc q hq, hd]
  · intro q hq
    rw [hd] at hq
    obtain ⟨h1, h2⟩ := h.dying q hq
    refine ⟨by rw [hs]; exact h1, ?_⟩
    by_cases hqc : q = c
    · subst hqc
      rw [hprocc]
      exact hdying hq
    · rw [hproc q hqc]
      exact h2

end Family

/-! ## The last wish -/

/-- The order in which the children arrive at their new parent. -/
def rotate : List ℕ → List ℕ
  | [] => []
  | c :: cs => cs ++ [c]

theorem perm_rotate (l : List ℕ) : (rotate l).Perm l := by
  cases l with
  | nil => exact .nil
  | cons c cs => exact List.perm_append_singleton c cs

/-- Who is whose child when the children of `t` go to `r`. -/
def inherit (kids : ℕ → List ℕ) (t r : ℕ) : ℕ → List ℕ :=
  Function.update (Function.update kids r (kids r ++ rotate (kids t))) t []

namespace ProcSys

theorem setParents_spec (r : ℕ) (cs : List ℕ) (s : ProcSys) :
    setParents r cs s = { s with proc := (setParents r cs s).proc } ∧
      ∀ q, (setParents r cs s).proc q =
        if q ∈ cs then { s.proc q with parent := some r } else s.proc q := by
  induction cs generalizing s with
  | nil => exact ⟨rfl, fun q => by simp [setParents]⟩
  | cons c cs ih =>
      obtain ⟨h1, h2⟩ := ih (s.setProc c { s.proc c with parent := some r })
      refine ⟨by rw [setParents, h1]; rfl, ?_⟩
      intro q
      rw [setParents, h2 q]
      by_cases hq : q = c
      · subst hq
        simp [setProc]
      · simp [setProc, hq]

variable {s : ProcSys} {t r : ℕ}

theorem mergeChildren_of_nil (ht : IsRing s.links (.children t) []) : s.mergeChildren t r = s := by
  rw [mergeChildren, if_pos (ht.next_head_iff.mpr rfl)]

theorem mergeChildren_links {c : ℕ} {cs : List ℕ}
    (ht : IsRing s.links (.children t) ((c :: cs).map .ptnode)) :
    (s.mergeChildren t r).links =
      (s.links.detachFromList (.children t)).mergeList (.ptnode c) (.children r) := by
  have hfirst : s.links.next (.children t) = .ptnode c := by simpa using ht.first.1.symm
  rw [mergeChildren, hfirst, if_neg (by simp)]

/-- **The children of `t` come after those of `r`**, and `t` has none. -/
theorem mergeChildren_ring {cs rs : List ℕ} (ht : IsRing s.links (.children t) (cs.map .ptnode))
    (hr : IsRing s.links (.children r) (rs.map .ptnode))
    (hdisj : ∀ z ∈ PNode.children r :: rs.map .ptnode, z ∉ PNode.children t :: cs.map .ptnode) :
    IsRing (s.mergeChildren t r).links (.children r) ((rs ++ rotate cs).map .ptnode) ∧
      IsRing (s.mergeChildren t r).links (.children t) [] := by
  cases cs with
  | nil =>
      rw [mergeChildren_of_nil ht]
      exact ⟨by simpa [rotate] using hr, ht⟩
  | cons c cs =>
      have hdet : IsRing (s.links.detachFromList (.children t)) (.ptnode c) (cs.map .ptnode) :=
        ht.detach_head
      have hr' := hr.detach_frame ht hdisj (x := .children t) (by simp)
      have hself : IsRing (s.links.detachFromList (.children t)) (.children t) [] := IsRing.init _ _
      rw [mergeChildren_links ht]
      constructor
      · have hmerge := hdet.merge hr' (fun z hz hzr => hdisj z hzr (List.mem_cons_of_mem _ hz))
        simpa [rotate] using hmerge.rotate_head
      · apply hself.merge_frame hdet hr'
        · simp
        · intro z hz hzr
          rw [List.mem_singleton.mp hz] at hzr
          exact hdisj _ hzr (by simp)

/-- The other nodes stay as they are. -/
theorem mergeChildren_of_notMem {cs rs : List ℕ} {z : PNode}
    (ht : IsRing s.links (.children t) (cs.map .ptnode))
    (hr : IsRing s.links (.children r) (rs.map .ptnode))
    (hdisj : ∀ z ∈ PNode.children r :: rs.map .ptnode, z ∉ PNode.children t :: cs.map .ptnode)
    (hzt : z ∉ PNode.children t :: cs.map .ptnode)
    (hzr : z ∉ PNode.children r :: rs.map .ptnode) :
    (s.mergeChildren t r).links.next z = s.links.next z ∧
      (s.mergeChildren t r).links.prev z = s.links.prev z := by
  cases cs with
  | nil =>
      rw [mergeChildren_of_nil ht]
      exact ⟨rfl, rfl⟩
  | cons c cs =>
      have hdet : IsRing (s.links.detachFromList (.children t)) (.ptnode c) (cs.map .ptnode) :=
        ht.detach_head
      have hr' := hr.detach_frame ht hdisj (x := .children t) (by simp)
      have hz : z ∉ PNode.ptnode c :: cs.map .ptnode :=
        fun hm => hzt (List.mem_cons_of_mem _ hm)
      obtain ⟨hn, hp⟩ := hdet.merge_of_notMem hr' hz hzr
      obtain ⟨hn', hp'⟩ := ht.detach_of_notMem (x := .children t) (by simp) hzt
      rw [mergeChildren_links ht]
      exact ⟨hn.trans hn', hp.trans hp'⟩

end ProcSys

namespace Family

variable {s s' : ProcSys} {kids : ℕ → List ℕ} {t r p q c : ℕ}

theorem mem_inherit (htr : t ≠ r) : c ∈ inherit kids t r q ↔
    q ≠ t ∧ (c ∈ kids q ∨ q = r ∧ c ∈ kids t) := by
  by_cases hqt : q = t
  · subst hqt
    simp [inherit]
  · by_cases hqr : q = r
    · subst hqr
      simp [inherit, hqt, (perm_rotate (kids t)).mem_iff]
    · simp [inherit, hqt, hqr]

/-- The lists after the merge. -/
theorem ring_inherit (h : Family s kids) (ht : s.allocated t) (hr : s.allocated r) (htr : t ≠ r)
    (hq : s.allocated q) :
    IsRing (s.mergeChildren t r).links (.children q) ((inherit kids t r q).map .ptnode) := by
  obtain ⟨hroot, hself⟩ := ProcSys.mergeChildren_ring (h.ring t ht) (h.ring r hr)
    (h.disjoint hr ht htr.symm)
  by_cases hqt : q = t
  · subst hqt
    simpa [inherit] using hself
  · by_cases hqr : q = r
    · subst hqr
      simpa [inherit, hqt] using hroot
    · have hother : ∀ z ∈ PNode.children q :: (kids q).map .ptnode,
          (s.mergeChildren t r).links.next z = s.links.next z ∧
            (s.mergeChildren t r).links.prev z = s.links.prev z :=
        fun z hz => ProcSys.mergeChildren_of_notMem (h.ring t ht) (h.ring r hr)
          (h.disjoint hr ht htr.symm) (h.disjoint hq ht hqt z hz) (h.disjoint hq hr hqr z hz)
      have hnew := (h.ring q hq).congr (fun z hz => (hother z hz).1) (fun z hz => (hother z hz).2)
      simpa [inherit, hqt, hqr] using hnew

/-- The children of `t` go to `r`. -/
theorem inherit (h : Family s kids) (ht : s.allocated t) (hr : s.allocated r) (htr : t ≠ r)
    (hre : s.exited r = false) :
    Family ((ProcSys.setParents r (kids t) s).mergeChildren t r) (OsLab.inherit kids t r) := by
  obtain ⟨hsame, hproc⟩ := ProcSys.setParents_spec r (kids t) s
  set s₁ := ProcSys.setParents r (kids t) s with hs₁
  set s' := s₁.mergeChildren t r with hs'
  have hproc' : s'.proc = s₁.proc := by
    rw [hs', ProcSys.mergeChildren]
    split_ifs <;> rfl
  have hlinks : s'.links = (s.mergeChildren t r).links := by
    rw [hs', hsame, ProcSys.mergeChildren, ProcSys.mergeChildren]
    split_ifs <;> rfl
  have hrest : s'.allocated = s.allocated ∧ s'.rootproc = s.rootproc ∧
      s'.containers = s.containers ∧ s'.births = s.births ∧ s'.dying = s.dying := by
    rw [hs', hsame, ProcSys.mergeChildren]
    split_ifs <;> exact ⟨rfl, rfl, rfl, rfl, rfl⟩
  obtain ⟨halloc, hrp, hcont, hbirths, hdying⟩ := hrest
  have hfield : ∀ q, (s'.proc q).state = (s.proc q).state ∧
      (s'.proc q).container = (s.proc q).container ∧ (s'.proc q).birth = (s.proc q).birth := by
    intro q
    rw [hproc', hproc q]
    split_ifs <;> exact ⟨rfl, rfl, rfl⟩
  have hpar : ∀ q, (s'.proc q).parent = if q ∈ kids t then some r else (s.proc q).parent := by
    intro q
    rw [hproc', hproc q]
    split_ifs <;> rfl
  have hexit : s'.exited = s.exited := by
    funext q
    simp only [ProcSys.exited, (hfield q).1, hdying]
  constructor
  case ring =>
    intro q hq
    rw [halloc] at hq
    rw [hlinks]
    exact h.ring_inherit ht hr htr hq
  case mem =>
    intro q c hq
    rw [halloc] at hq ⊢
    rw [mem_inherit htr, hpar c]
    by_cases hc : c ∈ kids t
    · obtain ⟨h1, h2, -⟩ := (h.mem t c ht).mp hc
      have hq' : c ∈ kids q → q = t := fun hcq => h.eq_of_mem hq ht hcq hc
      rw [if_pos hc, Option.some.injEq]
      constructor
      · rintro ⟨hqt, hcq | ⟨rfl, -⟩⟩
        · exact absurd (hq' hcq) hqt
        · exact ⟨h1, h2, rfl⟩
      · rintro ⟨-, -, rfl⟩
        exact ⟨htr.symm, .inr ⟨rfl, hc⟩⟩
    · rw [if_neg hc, ← h.mem q c hq]
      constructor
      · rintro ⟨-, hcq | ⟨-, hct⟩⟩
        · exact hcq
        · exact absurd hct hc
      · intro hcq
        refine ⟨?_, .inl hcq⟩
        rintro rfl
        exact hc hcq
  case parent =>
    intro c q hc hp
    rw [halloc] at hc ⊢
    rw [hexit]
    rw [hpar c] at hp
    split_ifs at hp with hct
    · cases hp
      exact ⟨hr, hre⟩
    · exact h.parent c q hc hp
  case started =>
    intro c hc hused
    rw [halloc] at hc
    rw [(hfield c).1] at hused
    rw [hpar c]
    split_ifs
    · simp
    · exact h.started c hc hused
  case rootproc =>
    intro k hk
    rw [hcont] at hk
    rw [halloc, hrp, hexit, (hfield _).2.1]
    exact h.rootproc k hk
  case container =>
    intro c hc
    rw [halloc] at hc
    rw [hcont, (hfield c).2.1]
    exact h.container c hc
  case root =>
    have hroot : ProcSys.root ∉ kids t := fun hmem => ((h.mem t _ ht).mp hmem).2.1 rfl
    rw [halloc, hrp, (hfield _).2.1, (hfield _).1, hpar, if_neg hroot]
    exact h.root
  case birth =>
    intro c hc
    rw [halloc] at hc
    rw [hbirths, (hfield c).2.2]
    exact h.birth c hc
  case inj =>
    intro c d hc hd heq
    rw [halloc] at hc hd
    rw [(hfield c).2.2, (hfield d).2.2] at heq
    exact h.inj c d hc hd heq
  case dying =>
    intro c hc
    rw [hdying] at hc
    rw [halloc, (hfield c).1]
    exact h.dying c hc

/-- A process that nobody has as parent any more starts to die. -/
theorem setDying (h : Family s kids) (ht : s.allocated t) (hrun : (s.proc t).state = .runnable)
    (hkids : kids t = []) (hrp : s.rootproc (s.proc t).container ≠ t) (hd : s.dying = none)
    (pids : PidPool) (exits : List Exited) :
    Family { s with dying := some t, pids := pids, exits := exits } kids := by
  set s' : ProcSys := { s with dying := some t, pids := pids, exits := exits } with hs'
  have hexit : ∀ q, q ≠ t → s'.exited q = s.exited q := by
    intro q hq
    simp [ProcSys.exited, hs', hd, hq.symm]
  have hroot : t ≠ ProcSys.root := by
    rintro rfl
    rw [h.root.2.1, h.root.2.2.1] at hrp
    exact hrp rfl
  refine ⟨h.ring, h.mem, ?_, h.started, ?_, h.container, h.root, h.birth, h.inj, ?_⟩
  · intro c q hc hpar
    obtain ⟨h1, h2⟩ := h.parent c q hc hpar
    have hqt : q ≠ t := by
      rintro rfl
      have hcr : c ≠ ProcSys.root := by
        rintro rfl
        have := h.root.2.2.2.2.symm.trans hpar
        exact hroot (Option.some.inj this).symm
      have hmem := (h.mem q c ht).mpr ⟨hc, hcr, hpar⟩
      rw [hkids] at hmem
      cases hmem
    rw [hexit q hqt]
    exact ⟨h1, h2⟩
  · intro k hk
    obtain ⟨h1, h2, h3⟩ := h.rootproc k hk
    change s.allocated (s.rootproc k) = true ∧ (s.proc (s.rootproc k)).container = k ∧
      s'.exited (s.rootproc k) = false
    rw [hexit _ (h.rootproc_ne hrp hk)]
    exact ⟨h1, h2, h3⟩
  · intro c hc
    cases hc
    exact ⟨ht, hrun⟩

/-- The dying process becomes a zombie. -/
theorem zombie (h : Family s kids) (hd : s.dying = some t) :
    Family { s.setProc t { s.proc t with state := .zombie } with dying := none } kids := by
  obtain ⟨ht, hrun⟩ := h.dying t hd
  have hused : (s.proc t).state ≠ .unused := by simp [hrun]
  refine h.congr rfl rfl rfl rfl rfl ?_ ?_ ?_ ?_ (by simp)
  · intro q
    by_cases hq : q = t
    · subst hq
      simp [ProcSys.setProc]
    · simp [ProcSys.setProc, hq]
  · intro q hu
    by_cases hq : q = t
    · subst hq
      simp [ProcSys.setProc] at hu
    · simpa [ProcSys.setProc, hq] using hu
  · intro q hu hu'
    by_cases hq : q = t
    · subst hq
      exact absurd hu' hused
    · exact absurd hu' (by simpa [ProcSys.setProc, hq] using hu)
  · funext q
    by_cases hq : q = t
    · subst hq
      simp [ProcSys.exited, ProcSys.setProc, hd]
    · simp [ProcSys.exited, ProcSys.setProc, hd, hq, Ne.symm hq]

/-- A zombie is taken out of the tree. -/
theorem free (h : Family s kids) (ht : s.allocated t) (hc : c ∈ kids t)
    (hz : (s.proc c).state = .zombie) (hd : s.dying = none) :
    Family (s.free t c) (Function.update kids t ((kids t).erase c)) := by
  obtain ⟨hca, hcr, hcp⟩ := (h.mem t c ht).mp hc
  have hce : s.exited c = true := by simp [ProcSys.exited, hz]
  have halloc : ∀ q, (s.free t c).allocated q = true ↔ q ≠ c ∧ s.allocated q = true := by
    intro q
    by_cases hq : q = c
    · simp [ProcSys.free, hq]
    · simp [ProcSys.free, hq]
  have hnode : PNode.ptnode c ∈ (kids t).map PNode.ptnode := List.mem_map_of_mem hc
  have hinj : Function.Injective PNode.ptnode := by
    intro a b hab
    cases hab
    rfl
  have hexit : (s.free t c).exited = s.exited := rfl
  have hlinks : (s.free t c).links = s.links.detachFromList (.ptnode c) := rfl
  have hproc : (s.free t c).proc = s.proc := rfl
  constructor
  case ring =>
    intro q hq
    obtain ⟨-, hqa⟩ := (halloc q).mp hq
    rw [hlinks]
    by_cases hqt : q = t
    · subst hqt
      rw [Function.update_self, List.map_erase hinj]
      exact (h.ring q hqa).detach_erase hnode
    · rw [Function.update_of_ne hqt]
      exact (h.ring q hqa).detach_frame (h.ring t ht) (h.disjoint hqa ht hqt)
        (List.mem_cons_of_mem _ hnode)
  case mem =>
    intro q d hq
    obtain ⟨-, hqa⟩ := (halloc q).mp hq
    rw [halloc, hproc]
    by_cases hqt : q = t
    · subst hqt
      rw [Function.update_self, (h.nodup hqa).mem_erase_iff, h.mem q d hqa]
      tauto
    · rw [Function.update_of_ne hqt, h.mem q d hqa]
      constructor
      · rintro ⟨h1, h2, h3⟩
        refine ⟨⟨?_, h1⟩, h2, h3⟩
        rintro rfl
        rw [hcp] at h3
        exact hqt (Option.some.inj h3).symm
      · rintro ⟨⟨-, h1⟩, h2, h3⟩
        exact ⟨h1, h2, h3⟩
  case parent =>
    intro d q hda hpar
    obtain ⟨-, hda⟩ := (halloc d).mp hda
    obtain ⟨h1, h2⟩ := h.parent d q hda hpar
    refine ⟨(halloc q).mpr ⟨?_, h1⟩, h2⟩
    rintro rfl
    rw [hce] at h2
    cases h2
  case started =>
    intro d hda
    exact h.started d ((halloc d).mp hda).2
  case rootproc =>
    intro k hk
    obtain ⟨h1, h2, h3⟩ := h.rootproc k hk
    refine ⟨(halloc _).mpr ⟨?_, h1⟩, h2, h3⟩
    intro heq
    change s.rootproc k = c at heq
    rw [heq, hce] at h3
    cases h3
  case container =>
    intro d hda
    exact h.container d ((halloc d).mp hda).2
  case root => exact ⟨(halloc _).mpr ⟨hcr.symm, h.root.1⟩, h.root.2⟩
  case birth =>
    intro d hda
    exact h.birth d ((halloc d).mp hda).2
  case inj =>
    intro d e hda hea heq
    exact h.inj d e ((halloc d).mp hda).2 ((halloc e).mp hea).2 heq
  case dying =>
    intro d hdd
    change s.dying = some d at hdd
    rw [hd] at hdd
    cases hdd

end Family

end OsLab
