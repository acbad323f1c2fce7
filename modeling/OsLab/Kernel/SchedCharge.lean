import OsLab.Kernel.SchedQueue

/-!
# Charging the time

A process that yields is charged for the time it has run, and so is each container above it
but the root.  The containers are linked while their keys change: each is taken out of its
queue and put back at its new place.

## Main definitions

* `SchedLayout.path` — the containers that are charged with a process.
* `charged v δ l` — the vruntimes after the nodes in `l` are charged.
* `updateThisState_spec` — what becomes of the queues.
-/

namespace OsLab

open RbTree

namespace SchedLayout

variable (L : SchedLayout)

/-- The containers from `g` up, without the root -/
def path : ℕ → ℕ → List ℕ
  | 0, _ => []
  | fuel + 1, g => if L.parent g = 0 then [] else g :: path fuel (L.parent g)

/-- **The containers that are charged with a process in `g`** -/
def ancestors (g : ℕ) : List ℕ := L.path (L.depth g + 1) g

variable {L} {fuel g n : ℕ}

theorem mem_path (hg : g ∈ L.containers) (hn : n ∈ L.path fuel g) :
    n ∈ L.containers ∧ n ≠ L.rootContainer ∧ L.depth n ≤ L.depth g := by
  induction fuel generalizing g with
  | zero => cases hn
  | succ fuel ih =>
      rw [path] at hn
      split at hn
      · cases hn
      · rename_i h0
        have hne : g ≠ L.rootContainer := fun heq => h0 ((parent_eq_zero hg).mpr heq)
        rcases List.mem_cons.mp hn with rfl | hn
        · exact ⟨hg, hne, le_rfl⟩
        · obtain ⟨hc, hroot, hd⟩ := ih (L.parent_mem g hg hne) hn
          exact ⟨hc, hroot, hd.trans (L.depth_parent g hg hne).le⟩

/-- The nodes in the queue of `g` are not on the way up from there. -/
theorem notMem_path (hg : g ∈ L.containers) (hn : L.home n = g) : n ∉ L.path fuel g := by
  intro hin
  obtain ⟨hc, hne, hd⟩ := mem_path hg hin
  have hlt := L.depth_parent n hc hne
  rw [← home_container hc, hn] at hlt
  exact absurd hd (not_le.mpr hlt)

theorem path_eq {fuel' : ℕ} (hg : g ∈ L.containers) (hf : L.depth g < fuel)
    (hf' : L.depth g < fuel') : L.path fuel g = L.path fuel' g := by
  induction fuel generalizing g fuel' with
  | zero => cases hf
  | succ fuel ih =>
      cases fuel' with
      | zero => cases hf'
      | succ fuel' =>
          rw [path, path]
          by_cases h0 : L.parent g = 0
          · rw [if_pos h0, if_pos h0]
          · have hne : g ≠ L.rootContainer := fun heq => h0 ((parent_eq_zero hg).mpr heq)
            have hd := L.depth_parent g hg hne
            rw [if_neg h0, if_neg h0, ih (L.parent_mem g hg hne) (by omega : _ < fuel)
              (by omega : _ < fuel')]

theorem ancestors_root : L.ancestors L.rootContainer = [] := if_pos L.root_parent

theorem ancestors_cons (hg : g ∈ L.containers) (hne : g ≠ L.rootContainer) :
    L.ancestors g = g :: L.ancestors (L.parent g) := by
  have hd := L.depth_parent g hg hne
  rw [ancestors, path, if_neg fun h0 => hne ((parent_eq_zero hg).mp h0), ancestors,
    path_eq (L.parent_mem g hg hne) hd (Nat.lt_succ_self _)]

end SchedLayout

/-- The vruntimes after the nodes in `l` are charged with `δ` -/
def charged (v : ℕ → UInt64) (δ : UInt64) (l : List ℕ) (n : ℕ) : UInt64 :=
  if n ∈ l then v n + δ else v n

section Charged

variable {v : ℕ → UInt64} {δ : UInt64} {l : List ℕ} {n m : ℕ}

theorem charged_nil : charged v δ [] = v := by
  ext n
  simp [charged]

theorem charged_of_notMem (h : n ∉ l) : charged v δ l n = v n := if_neg h

theorem charged_cons (h : n ∉ l) :
    charged (Function.update v n (v n + δ)) δ l = charged v δ (n :: l) := by
  ext m
  by_cases hm : m = n
  · subst hm
    simp [charged, h]
  · simp [charged, hm]

end Charged

variable {L : SchedLayout} {s : Sched} {Q : Set ℕ} {t : ℕ → RbTree ℕ} {g n : ℕ} {δ base : UInt64}

/-- A node is taken out of its queue after its vruntime has changed, and put back. -/
theorem requeue_spec (h : Queued L s Q t) (hn : n ∈ Q)
    (hw : ∀ a ∈ (t (L.home n)).toList, ((s.addVruntime n δ).vruntime a - base).toNat < 2 ^ 63) :
    ∃ s₁ F t', (s.addVruntime n δ).dequeue n (L.home n) = some s₁ ∧
      s₁.enqueue n (L.home n) = some { s.addVruntime n δ with rq := F } ∧
      Queued L { s.addVruntime n δ with rq := F } Q t' := by
  have hmem : n ∈ (t (L.home n)).toList := (h.planted.mem n _).mpr ⟨hn, rfl⟩
  obtain ⟨F₁, u₁, hexec₁, hp₁, hlist⟩ := Sched.dequeue_spec (s := s.addVruntime n δ)
    (v := s.vruntime) h.planted hn (fun a ha => Sched.addVruntime_vruntime_of_ne ha)
    (h.lt_fuel _)
  have hsub : ∀ a ∈ u₁.toList, a ∈ (t (L.home n)).toList := fun a ha =>
    List.mem_of_mem_erase (hlist ▸ ha)
  have hw' : ∀ a ∈ n :: (Function.update t (L.home n) u₁ (L.home n)).toList,
      ((s.addVruntime n δ).vruntime a - base).toNat < 2 ^ 63 := by
    intro a ha
    rw [Function.update_self] at ha
    rcases List.mem_cons.mp ha with rfl | ha
    · exact hw a hmem
    · exact hw a (hsub a ha)
  have hfuel : (Function.update t (L.home n) u₁ (L.home n)).toList.length < s.fuel (L.home n) := by
    rw [Function.update_self, hlist]
    exact List.length_erase_le.trans_lt (h.lt_fuel _)
  obtain ⟨F₂, u₂, hexec₂, hp₂, hperm⟩ := Sched.enqueue_spec
    (s := { s.addVruntime n δ with rq := F₁ }) hp₁ (h.member n hn) (by simp) hw' hfuel
  rw [Function.update_self, hlist] at hperm
  refine ⟨_, F₂, Function.update (Function.update t (L.home n) u₁) (L.home n) u₂, hexec₁, hexec₂,
    ⟨?_, fun g => ?_, h.member⟩⟩
  · have hQ : Set.insert n (Q \ {n}) = Q := Set.insert_sdiff_self_of_mem hn
    rw [hQ] at hp₂
    exact hp₂
  · change s.nodeCnt g = _
    by_cases hg : g = L.home n
    · subst hg
      rw [Function.update_self, h.count, (hperm.trans (List.perm_cons_erase hmem).symm).length_eq]
    · rw [Function.update_of_ne hg, Function.update_of_ne hg, h.count]

/-- **The loop of `update_this_state`** charges the containers from `g` up. -/
theorem chargeLoop_spec {fuel : ℕ} (h : Queued L s Q t) (hg : g ∈ L.containers)
    (hup : ∀ c ∈ L.path fuel g, c ∈ Q)
    (hw : InWindow (charged s.vruntime δ (L.path fuel g)) base Q) (hfuel : L.depth g < fuel) :
    ∃ F t', Sched.chargeLoop L δ fuel g s =
        some { s with rq := F, vruntime := charged s.vruntime δ (L.path fuel g) } ∧
      Queued L { s with rq := F, vruntime := charged s.vruntime δ (L.path fuel g) } Q t' := by
  induction fuel generalizing s t g with
  | zero => cases hfuel
  | succ fuel ih =>
      by_cases h0 : L.parent g = 0
      · have hpath : L.path (fuel + 1) g = [] := by rw [SchedLayout.path, if_pos h0]
        rw [hpath, charged_nil, Sched.chargeLoop, if_pos h0]
        exact ⟨s.rq, t, rfl, h⟩
      · have hpath : L.path (fuel + 1) g = g :: L.path fuel (L.parent g) := by
          rw [SchedLayout.path, if_neg h0]
        have hne : g ≠ L.rootContainer := fun heq => h0 ((SchedLayout.parent_eq_zero hg).mpr heq)
        have hpar := L.parent_mem g hg hne
        have hhome := SchedLayout.home_container hg
        have hself : g ∉ L.path fuel (L.parent g) := SchedLayout.notMem_path hpar hhome
        rw [hpath] at hup hw ⊢
        rw [← charged_cons hself] at hw ⊢
        have hw' : ∀ a ∈ (t (L.home g)).toList,
            ((s.addVruntime g δ).vruntime a - base).toNat < 2 ^ 63 := by
          intro a ha
          obtain ⟨hQ, ha⟩ := h.mem_home ha
          have hnot : a ∉ L.path fuel (L.parent g) :=
            SchedLayout.notMem_path hpar (ha.trans hhome)
          have := hw a hQ
          rwa [charged_of_notMem hnot] at this
        obtain ⟨s₁, F₁, t₁, hdeq, henq, hq₁⟩ := requeue_spec h (hup g (by simp)) hw'
        rw [hhome] at hdeq henq
        obtain ⟨F, t', hexec, hq⟩ := ih (s := { s.addVruntime g δ with rq := F₁ }) hq₁ hpar
          (fun c hc => hup c (by simp [hc])) hw
          (by have := L.depth_parent g hg hne; omega)
        refine ⟨F, t', ?_, hq⟩
        rw [Sched.chargeLoop, if_neg h0]
        simp only [hdeq, Option.bind_eq_bind, Option.bind_some, henq]
        exact hexec

/-- A node is put into its queue and counted. -/
theorem enqueue_count (h : Queued L s Q t) (hm : L.Member n) (hn : n ∉ Q)
    (hw : ∀ a ∈ n :: (t (L.home n)).toList, (s.vruntime a - base).toNat < 2 ^ 63) :
    ∃ s₁ F t', s.enqueue n (L.home n) = some s₁ ∧
      s₁.addCnt (L.home n) 1 = { s.addCnt (L.home n) 1 with rq := F } ∧
      Queued L { s.addCnt (L.home n) 1 with rq := F } (Set.insert n Q) t' := by
  obtain ⟨F, u, hexec, hplanted, hperm⟩ := Sched.enqueue_spec h.planted hm hn hw (h.lt_fuel _)
  refine ⟨_, F, _, hexec, rfl, hplanted, fun g => ?_, ?_⟩
  · by_cases hg : g = L.home n
    · subst hg
      rw [Function.update_self, hperm.length_eq, List.length_cons]
      change (s.addCnt (L.home n) 1).nodeCnt (L.home n) = _
      rw [Sched.addCnt_nodeCnt, h.count]
      omega
    · rw [Function.update_of_ne hg, ← h.count]
      exact Function.update_of_ne hg ..
  · rintro m (rfl | hm')
    · exact hm
    · exact h.member m hm'

/-- **A process yields**: it is charged with its containers, and put into its queue. -/
theorem updateThisState_yield {this : ℕ} (now : UInt64) (h : Queued L s Q t)
    (hp : this ∈ L.procs) (hrun : s.state this = .running) (hn : this ∉ Q)
    (hup : ∀ c ∈ L.ancestors (L.container this), c ∈ Q)
    (hw : InWindow (charged s.vruntime (s.deltaTime L this now)
      (this :: L.ancestors (L.container this))) base (Set.insert this Q)) :
    ∃ F t', s.updateThisState L this .runnable now =
        some (Sched.setState { s.addCnt (L.container this) 1 with
          rq := F,
          vruntime := charged s.vruntime (s.deltaTime L this now)
            (this :: L.ancestors (L.container this)) } this .runnable) ∧
      Queued L { s.addCnt (L.container this) 1 with
          rq := F,
          vruntime := charged s.vruntime (s.deltaTime L this now)
            (this :: L.ancestors (L.container this)) } (Set.insert this Q) t' := by
  have hhome := SchedLayout.home_proc hp
  have hcont := L.container_mem this hp
  have hself : this ∉ L.ancestors (L.container this) := SchedLayout.notMem_path hcont hhome
  let δ := s.deltaTime L this now
  change InWindow (charged s.vruntime δ (this :: L.ancestors (L.container this))) base _ at hw
  rw [← charged_cons hself] at hw ⊢
  have h₁ : Queued L (s.addVruntime this δ) Q t := by
    refine ⟨h.planted.congr_cmp fun a b ha hb hab => ?_, h.count, h.member⟩
    have hne : ∀ x ∈ Q, x ≠ this := fun x hx heq => hn (heq ▸ hx)
    rwa [schedCmp, Sched.addVruntime_vruntime_of_ne (hne a ha),
      Sched.addVruntime_vruntime_of_ne (hne b hb)]
  have hw' : ∀ a ∈ this :: (t (L.home this)).toList,
      ((s.addVruntime this δ).vruntime a - base).toNat < 2 ^ 63 := by
    intro a ha
    have hhome' : L.home a = L.container this ∧ a ∈ Set.insert this Q := by
      rcases List.mem_cons.mp ha with rfl | ha
      · exact ⟨hhome, .inl rfl⟩
      · obtain ⟨hQ, heq⟩ := h.mem_home ha
        exact ⟨heq.trans hhome, .inr hQ⟩
    have hnot : a ∉ L.ancestors (L.container this) := SchedLayout.notMem_path hcont hhome'.1
    have := hw a hhome'.2
    rwa [charged_of_notMem hnot] at this
  obtain ⟨s₁, F₁, t₁, henq, hcnt, h₂⟩ := enqueue_count h₁ (.inl hp) hn hw'
  rw [hhome] at henq hcnt h₂
  obtain ⟨F, t', hloop, h₃⟩ := chargeLoop_spec h₂ hcont (fun c hc => .inr (hup c hc)) hw
    (Nat.lt_succ_self _)
  refine ⟨F, t', ?_, h₃⟩
  have hidle : ¬L.idle this = true := by simp [L.proc_idle this hp]
  rw [Sched.updateThisState, if_pos ⟨hidle, hrun, rfl⟩]
  simp only [Option.bind_eq_bind]
  rw [henq, Option.bind_some, hcnt]
  exact congrArg (fun o => Option.bind o _) hloop

end OsLab
