import OsLab.Fs.LogProtocol

/-!
# When `cache_end_op` means durable

An operation whose `cache_end_op` has returned should find every block it synced
installed by a commit that started after the sync (`Installed`).  This is so of the
runs of `LogSys` whose steps are `Timely`: a thread goes to sleep on `s2` only while
every commit that is about to post `s2` started after the thread's operation was
admitted, and a commit finds the log area large enough, since `write_log` would
otherwise write on a block of a client.

`OsLab.Fs.LogCacheRuns` has the result over the cached blocks themselves.

## Main definitions

* `Installed` — a commit after the sync has written the block.
* `Timely` — the condition on a step.
* `Durable`, `Durable.step` — the invariant, kept by every timely step.
* `Durable.installed` — what it says of a call that has returned.
-/

namespace OsLab

/-- The block of a sync was installed by a commit that started after it, and the disk holds
the content of that sync or a later one. -/
def LogSys.Installed (s : LogSys) (x : ℕ × ℕ × ℕ) : Prop :=
  x.2.2 < s.inst x.1 ∧ ∃ j, x.2.1 ≤ j ∧ (s.hist x.1)[j]? = some (s.disk x.1)

/-- The thread has cleared `log.committing` and has not posted `s2` yet. -/
def Pc.posting (p : Pc) : Prop := p = .postS1 ∨ p = .postS2

/-- The condition on a step. -/
def Timely (sb : SuperBlock) (s : LogSys) : ℕ × Act → Prop
  | (t, .run) => s.pc t = .waitS2 → ∀ u, (s.pc u).posting → s.began t < s.commitNo u
  | (_, .endOp) => s.log.outstanding = 1 → s.log.header.numBlocks < sb.numLogBlocks
  | _ => True

/-! ## The invariant -/

/-- What the loops of a commit have done so far. -/
def Progress (sb : SuperBlock) (s : LogSys) : Phase → Prop
  | .logTo i | .logFrom i | .logCopy i =>
      ∀ j < i, s.view (sb.logBlock j) = s.view (s.log.header.blockNo j)
  | .writeHeader =>
      ∀ j < s.log.header.numBlocks, s.view (sb.logBlock j) = s.view (s.log.header.blockNo j)
  | .installFrom i | .installTo i | .installCopy i =>
      (∀ j < s.log.header.numBlocks,
        s.view (sb.logBlock j) = s.view (s.log.header.blockNo j)) ∧
      ∀ j < i, s.disk (s.log.header.blockNo j) = s.view (s.log.header.blockNo j) ∧
        s.inst (s.log.header.blockNo j) = s.started
  | .clear =>
      ∀ j < s.log.header.numBlocks,
        s.disk (s.log.header.blockNo j) = s.view (s.log.header.blockNo j) ∧
        s.inst (s.log.header.blockNo j) = s.started
  | .check | .clearHeader | .finish => True

/-- What is known of a thread at a point. -/
def At (sb : SuperBlock) (s : LogSys) (t : ℕ) : Pc → Prop
  | .inOp => t ∈ s.ctxs.map Prod.fst ∧ s.began t = s.started
  | .returned => s.began t < s.finished
  | .commit ph => s.commitNo t = s.started ∧ s.log.header.numBlocks < sb.numLogBlocks ∧
      Progress sb s ph
  | .postS1 | .postS2 | .postS3 => s.began t < s.commitNo t ∧ s.commitNo t ≤ s.finished
  | _ => True

/-- The invariant of timely runs. -/
structure Durable (sb : SuperBlock) (s : LogSys) : Prop where
  started : s.started = s.finished + if s.log.committing then 1 else 0
  quiet : s.log.committing = true → s.ctxs = []
  began : ∀ t, s.began t ≤ s.finished
  here : ∀ t, At sb s t (s.pc t)
  window : ∀ t u, s.pc t = .asleepS2 → (s.pc u).posting → s.began t < s.commitNo u
  client : ∀ b ∈ s.log.header.entries, sb.Client b
  last : ∀ b, sb.Client b → (s.hist b).getLast? = some (s.view b)
  clean : ∀ b, sb.Client b → s.dirty b = false → b ∉ s.log.header.entries →
    s.view b = s.disk b
  synced : ∀ t, ∀ x ∈ s.synced t,
    sb.Client x.1 ∧ x.2.1 < (s.hist x.1).length ∧ x.2.2 = s.began t
  pending : ∀ t, ∀ x ∈ s.synced t, x.1 ∈ s.log.header.entries ∨ s.Installed x
  committed : ∀ t, ∀ x ∈ s.synced t, s.began t < s.finished → s.Installed x

namespace Durable

variable {sb : SuperBlock} {s s' : LogSys} {t u b rm : ℕ} {p : Pc} {ph : Phase}

/-- Two states that differ only in where the threads are and in the locks. -/
structure Agree (s s' : LogSys) : Prop where
  log : s'.log = s.log
  ctxs : s'.ctxs = s.ctxs
  dirty : s'.dirty = s.dirty
  view : s'.view = s.view
  disk : s'.disk = s.disk
  started : s'.started = s.started
  finished : s'.finished = s.finished
  began : s'.began = s.began
  commitNo : s'.commitNo = s.commitNo
  synced : s'.synced = s.synced
  hist : s'.hist = s.hist
  inst : s'.inst = s.inst

theorem Agree.at (ha : Agree s s') : At sb s' t p ↔ At sb s t p := by
  have hprog : Progress sb s' = Progress sb s := by
    funext ph
    cases ph <;> simp only [Progress, ha.view, ha.log, ha.disk, ha.inst, ha.started]
  cases p <;>
    simp only [At, ha.ctxs, ha.began, ha.finished, ha.commitNo, ha.started, ha.log, hprog]

/-- **A step that only moves threads.** -/
theorem of_agree (h : Durable sb s) (ha : Agree s s') (hat : ∀ t, At sb s t (s'.pc t))
    (hwin : ∀ t u, s'.pc t = .asleepS2 → (s'.pc u).posting → s.began t < s.commitNo u) :
    Durable sb s' := by
  have hinst : s'.Installed = s.Installed := by
    funext x
    simp only [LogSys.Installed, ha.inst, ha.hist, ha.disk]
  constructor
  · rw [ha.started, ha.finished, ha.log]
    exact h.started
  · rw [ha.log, ha.ctxs]
    exact h.quiet
  · rw [ha.began, ha.finished]
    exact h.began
  · intro t
    rw [ha.at]
    exact hat t
  · rw [ha.began, ha.commitNo]
    exact hwin
  · rw [ha.log]
    exact h.client
  · rw [ha.hist, ha.view]
    exact h.last
  · rw [ha.dirty, ha.log, ha.view, ha.disk]
    exact h.clean
  · rw [ha.synced, ha.hist, ha.began]
    exact h.synced
  · rw [ha.synced, ha.log, hinst]
    exact h.pending
  · rw [ha.synced, ha.began, ha.finished, hinst]
    exact h.committed

/-- One thread moves, to a point other than the sleep on `s2` and the posts. -/
theorem goto (h : Durable sb s) (ha : Agree s s') (hpc : s'.pc = (s.goto t p).pc)
    (hat : At sb s t p) (hsleep : p ≠ .asleepS2)
    (hpost : p.posting → (s.pc t).posting) : Durable sb s' := by
  refine h.of_agree ha ?_ ?_
  · intro u
    rw [hpc]
    by_cases hu : u = t
    · rw [hu, LogSys.goto_pc_self]
      exact hat
    · rw [s.goto_pc_of_ne p hu]
      exact h.here u
  · intro u v hu hv
    rw [hpc] at hu hv
    have hut : u ≠ t := by
      rintro rfl
      rw [LogSys.goto_pc_self] at hu
      exact hsleep hu
    rw [s.goto_pc_of_ne p hut] at hu
    by_cases hvt : v = t
    · subst hvt
      rw [LogSys.goto_pc_self] at hv
      exact h.window u v hu (hpost hv)
    · rw [s.goto_pc_of_ne p hvt] at hv
      exact h.window u v hu hv

/-- A thread that is neither in an operation nor in a commit only looks at the counts. -/
theorem at_mono (h : At sb s t p) (hop : p ≠ .inOp) (hcom : ∀ ph, p ≠ .commit ph)
    (hbegan : s'.began t = s.began t) (hno : s'.commitNo t = s.commitNo t)
    (hfin : s.finished ≤ s'.finished) : At sb s' t p := by
  cases p with
  | inOp => exact absurd rfl hop
  | commit ph => exact absurd rfl (hcom ph)
  | returned =>
      simp only [At, hbegan] at h ⊢
      omega
  | postS1 | postS2 | postS3 =>
      simp only [At, hbegan, hno] at h ⊢
      omega
  | _ => trivial

/-! ## Steps of an operation -/

theorem finished_eq (h : Durable sb s) (hidle : s.log.committing = false) :
    s.started = s.finished := by
  have := h.started
  rw [hidle] at this
  simpa using this

theorem idle_of_mem (h : Durable sb s) (hx : (t, rm) ∈ s.ctxs) : s.log.committing = false := by
  cases hc : s.log.committing with
  | false => rfl
  | true =>
      rw [h.quiet hc] at hx
      cases hx

/-- A later state of a block that was installed. -/
theorem installed_mono {x : ℕ × ℕ × ℕ} (h : s.Installed x) (hinst : s'.inst = s.inst)
    (hdisk : s'.disk = s.disk) (hhist : ∀ b, s.hist b <+: s'.hist b) : s'.Installed x := by
  obtain ⟨hlt, j, hj, hget⟩ := h
  refine ⟨by rw [hinst]; exact hlt, j, hj, ?_⟩
  rw [hdisk]
  obtain ⟨l, hl⟩ := hhist x.1
  rw [← hl, List.getElem?_append_left (List.getElem?_eq_some_iff.mp hget).1]
  exact hget

/-- **A step of an operation**: nobody commits, one thread moves, contents and header grow. -/
private theorem of_op (h : Durable sb s) (hno : ∀ u ph, s.pc u ≠ .commit ph)
    (hidle : s.log.committing = false) (hidle' : s'.log.committing = false)
    (hfin : s'.finished = s.finished) (hstart : s'.started = s.started)
    (hcno : s'.commitNo = s.commitNo) (hdisk : s'.disk = s.disk) (hinst : s'.inst = s.inst)
    (hhist : ∀ b, s.hist b <+: s'.hist b)
    (hent : ∀ b ∈ s.log.header.entries, b ∈ s'.log.header.entries)
    (hpc : ∀ u, u ≠ t → s'.pc u = s.pc u)
    (hbegan : ∀ u, u ≠ t → s'.began u = s.began u)
    (hsynced : ∀ u, u ≠ t → s'.synced u = s.synced u)
    (hkeys : ∀ u, u ≠ t → u ∈ s.ctxs.map Prod.fst → u ∈ s'.ctxs.map Prod.fst)
    (hclient : ∀ b ∈ s'.log.header.entries, sb.Client b)
    (hlast : ∀ b, sb.Client b → (s'.hist b).getLast? = some (s'.view b))
    (hclean : ∀ b, sb.Client b → s'.dirty b = false → b ∉ s'.log.header.entries →
      s'.view b = s'.disk b)
    (hat : At sb s' t (s'.pc t)) (hsleep : s'.pc t ≠ .asleepS2) (hpost : ¬ (s'.pc t).posting)
    (hbt : s'.began t ≤ s.finished)
    (hst : ∀ x ∈ s'.synced t, sb.Client x.1 ∧ x.2.1 < (s'.hist x.1).length ∧
      x.2.2 = s'.began t)
    (hpt : ∀ x ∈ s'.synced t, x.1 ∈ s'.log.header.entries ∨ s'.Installed x)
    (hct : ∀ x ∈ s'.synced t, s'.began t < s.finished → s'.Installed x) : Durable sb s' := by
  constructor
  · rw [hstart, hfin, hidle', h.finished_eq hidle]
    rfl
  · rw [hidle']
    simp
  · intro u
    rw [hfin]
    by_cases hu : u = t
    · rw [hu]
      exact hbt
    · rw [hbegan u hu]
      exact h.began u
  · intro u
    by_cases hu : u = t
    · rw [hu]
      exact hat
    · rw [hpc u hu]
      by_cases hop : s.pc u = .inOp
      · have hu' := h.here u
        rw [hop] at hu' ⊢
        exact ⟨hkeys u hu hu'.1, (hbegan u hu).trans (hu'.2.trans hstart.symm)⟩
      · exact at_mono (h.here u) hop (hno u) (hbegan u hu) (congrFun hcno u) (le_of_eq hfin.symm)
  · intro u v hu hv
    have hut : u ≠ t := by
      rintro rfl
      exact hsleep hu
    have hvt : v ≠ t := by
      rintro rfl
      exact hpost hv
    rw [hpc u hut] at hu
    rw [hpc v hvt] at hv
    rw [hbegan u hut, hcno]
    exact h.window u v hu hv
  · exact hclient
  · exact hlast
  · exact hclean
  · intro u x hx
    by_cases hu : u = t
    · subst hu
      exact hst x hx
    · rw [hsynced u hu] at hx
      rw [hbegan u hu]
      obtain ⟨h₁, h₂, h₃⟩ := h.synced u x hx
      exact ⟨h₁, lt_of_lt_of_le h₂ (hhist x.1).length_le, h₃⟩
  · intro u x hx
    by_cases hu : u = t
    · subst hu
      exact hpt x hx
    · rw [hsynced u hu] at hx
      rcases h.pending u x hx with hmem | hi
      · exact Or.inl (hent _ hmem)
      · exact Or.inr (installed_mono hi hinst hdisk hhist)
  · intro u x hx hlt
    rw [hfin] at hlt
    by_cases hu : u = t
    · subst hu
      exact hct x hx hlt
    · rw [hsynced u hu] at hx
      rw [hbegan u hu] at hlt
      exact installed_mono (h.committed u x hx hlt) hinst hdisk hhist

theorem enter (hP : Proto s) (h : Durable sb s) (hpc : s.pc t = .entering) :
    Durable sb (s.enter t) := by
  rw [LogSys.enter]
  split
  · exact h.goto (t := t) ⟨rfl, rfl, rfl, rfl, rfl, rfl, rfl, rfl, rfl, rfl, rfl, rfl⟩ rfl trivial
      (by simp) (by simp [Pc.posting])
  · exact h.goto (t := t) ⟨rfl, rfl, rfl, rfl, rfl, rfl, rfl, rfl, rfl, rfl, rfl, rfl⟩ rfl trivial
      (by simp) (by simp [Pc.posting])
  · rename_i rm l hl
    have hnot : t ∉ s.ctxs.map Prod.fst := by
      intro ht
      rw [hP.keys t ht] at hpc
      cases hpc
    obtain ⟨-, -, hidle, hidle', hhdr⟩ := hP.reserved.beginOp hnot hl
    have hno : ∀ u ph, s.pc u ≠ .commit ph := by
      intro u ph hu
      rw [(hP.alone u ph hu).2] at hidle
      cases hidle
    have hpc' : (s.goto t .inOp).pc t = .inOp := s.goto_pc_self _ _
    refine h.of_op (t := t) hno hidle hidle' rfl rfl rfl rfl rfl (fun _ => List.prefix_refl _)
      ?_ ?_ ?_ ?_ ?_ ?_ h.last ?_ ?_ ?_ ?_ ?_ ?_ ?_ ?_
    · simp only [hhdr]
      exact fun _ hb => hb
    · exact fun u hu => s.goto_pc_of_ne _ hu
    · exact fun u hu => Function.update_of_ne hu _ _
    · exact fun u hu => Function.update_of_ne hu _ _
    · exact fun u _ hu => List.mem_cons_of_mem _ hu
    · simp only [hhdr]
      exact h.client
    · simp only [hhdr]
      exact h.clean
    · simp only [hpc']
      exact ⟨List.mem_cons_self, Function.update_self _ _ _⟩
    · simp
    · simp [Pc.posting]
    · simp [h.finished_eq hidle]
    · simp
    · simp
    · simp

theorem modify (hP : Proto s) (h : Durable sb s) (hpc : s.pc t = .inOp) {d : Sector} :
    Durable sb { s with
      view := Function.update s.view b d
      dirty := Function.update s.dirty b true
      hist := Function.update s.hist b (s.hist b ++ [d]) } := by
  have hin := h.here t
  rw [hpc] at hin
  obtain ⟨⟨t', rm⟩, hmem, rfl⟩ := List.mem_map.mp hin.1
  have hidle := h.idle_of_mem hmem
  have hhist : ∀ c, s.hist c <+: Function.update s.hist b (s.hist b ++ [d]) c := by
    intro c
    by_cases hc : c = b
    · rw [hc, Function.update_self]
      exact List.prefix_append _ _
    · simp [Function.update_of_ne hc]
  refine h.of_op (t := t') (fun u ph hu => hP.not_commit hmem hu) hidle hidle rfl rfl rfl rfl rfl
    hhist (fun _ hb => hb) (fun _ _ => rfl) (fun _ _ => rfl) (fun _ _ => rfl) (fun _ _ hu => hu)
    h.client ?_ ?_ ?_ ?_ ?_ ?_ ?_ ?_ ?_
  · intro c hc
    by_cases hcb : c = b
    · simp [hcb]
    · simp only [Function.update_of_ne hcb]
      exact h.last c hc
  · intro c hc hd hne
    have hcb : c ≠ b := by
      rintro rfl
      simp at hd
    simp only [Function.update_of_ne hcb] at hd ⊢
    exact h.clean c hc hd hne
  · simp only [hpc]
    exact hin
  · simp [hpc]
  · simp [hpc, Pc.posting]
  · exact h.began t'
  · intro x hx
    obtain ⟨h₁, h₂, h₃⟩ := h.synced t' x hx
    exact ⟨h₁, lt_of_lt_of_le h₂ (hhist x.1).length_le, h₃⟩
  · intro x hx
    rcases h.pending t' x hx with hm | hi
    · exact Or.inl hm
    · exact Or.inr (installed_mono hi rfl rfl hhist)
  · intro x hx hlt
    exact installed_mono (h.committed t' x hx hlt) rfl rfl hhist

theorem sync (hP : Proto s) (h : Durable sb s) (hpc : s.pc t = .inOp) (hb : sb.Client b)
    (hs : s.sync t b = some s') : Durable sb s' := by
  simp only [LogSys.sync, Option.bind_eq_bind, Option.bind_eq_some_iff] at hs
  obtain ⟨rm, hrm, ⟨new, rm', l⟩, hl, hs⟩ := hs
  cases hs
  have hin := h.here t
  rw [hpc] at hin
  have hmem := Proto.rm_mem hrm
  have hidle := h.idle_of_mem hmem
  obtain ⟨-, hcom, hbmem, hent, -⟩ := hP.reserved.sync hmem hl
  have hlen : (s.hist b).length - 1 < (s.hist b).length := by
    have hne : s.hist b ≠ [] := by
      intro hnil
      have := h.last b hb
      rw [hnil] at this
      cases this
    have := List.length_pos_of_ne_nil hne
    omega
  have hstarted : s.began t = s.finished := hin.2.trans (h.finished_eq hidle)
  refine h.of_op (t := t) (fun u ph hu => hP.not_commit hmem hu) hidle (hcom.trans hidle) rfl rfl
    rfl rfl rfl (fun _ => List.prefix_refl _) (fun c hc => (hent c).mpr (Or.inl hc))
    (fun _ _ => rfl) (fun _ _ => rfl) (fun u hu => Function.update_of_ne hu _ _) ?_ ?_ h.last ?_
    ?_ ?_ ?_ (h.began t) ?_ ?_ ?_
  · intro u hu hmem'
    obtain ⟨x, hx, rfl⟩ := List.mem_map.mp hmem'
    refine List.mem_cons_of_mem _ (List.mem_map_of_mem ?_)
    refine (List.mem_erase_of_ne ?_).mpr hx
    rintro rfl
    exact hu rfl
  · intro c hc
    rcases (hent c).mp hc with hc | rfl
    · exact h.client c hc
    · exact hb
  · intro c hc hd hne
    have hcb : c ≠ b := fun hcb => hne ((hent c).mpr (Or.inr hcb))
    simp only [Function.update_of_ne hcb] at hd
    exact h.clean c hc hd (fun hm => hne ((hent c).mpr (Or.inl hm)))
  · simp only [hpc]
    exact ⟨List.mem_cons_self, hin.2⟩
  · simp [hpc]
  · simp [hpc, Pc.posting]
  · intro x hx
    simp only [Function.update_self, List.mem_append, List.mem_singleton] at hx
    rcases hx with hx | rfl
    · exact h.synced t x hx
    · exact ⟨hb, hlen, hin.2.symm⟩
  · intro x hx
    simp only [Function.update_self, List.mem_append, List.mem_singleton] at hx
    rcases hx with hx | rfl
    · rcases h.pending t x hx with hm | hi
      · exact Or.inl ((hent _).mpr (Or.inl hm))
      · exact Or.inr hi
    · exact Or.inl hbmem
  · intro x _ hlt
    have : s.began t < s.finished := hlt
    omega

theorem leave (hP : Proto s) (h : Durable sb s) (hpc : s.pc t = .inOp)
    (hroom : s.log.outstanding = 1 → s.log.header.numBlocks < sb.numLogBlocks)
    (hs : s.leave t = some s') : Durable sb s' := by
  simp only [LogSys.leave, Option.bind_eq_bind, Option.bind_eq_some_iff] at hs
  obtain ⟨rm, hrm, hs⟩ := hs
  have hmem := Proto.rm_mem hrm
  have hidle := h.idle_of_mem hmem
  have hno : ∀ u ph, s.pc u ≠ .commit ph := fun u ph hu => hP.not_commit hmem hu
  split at hs
  · -- the last operation: a commit starts
    rename_i l hl
    cases hs
    obtain ⟨-, hhdr, hlast, -⟩ := hP.reserved.endOp hmem hl
    obtain ⟨hnil, hcom⟩ := hlast rfl
    have hone : s.log.outstanding = 1 := by
      have hlen := congrArg List.length hnil
      rw [List.length_erase_of_mem hmem] at hlen
      have := List.length_pos_of_mem hmem
      rw [hP.reserved.outstanding]
      simp only [List.length_nil] at hlen
      omega
    have honly : ∀ u, u ≠ t → s.pc u ≠ .inOp := by
      intro u hu hop
      have hu' := h.here u
      rw [hop] at hu'
      obtain ⟨x, hx, rfl⟩ := List.mem_map.mp hu'.1
      have : x ∈ s.ctxs.erase (t, rm) := by
        refine (List.mem_erase_of_ne ?_).mpr hx
        rintro rfl
        exact hu rfl
      rw [hnil] at this
      cases this
    have hpc' : (s.goto t (.commit .check)).pc t = .commit .check := s.goto_pc_self _ _
    constructor
    · simp only [hcom, if_true]
      rw [h.finished_eq hidle]
      rfl
    · exact fun _ => hnil
    · exact h.began
    · intro u
      by_cases hu : u = t
      · subst hu
        simp only [hpc']
        refine ⟨Function.update_self _ _ _, ?_, trivial⟩
        simp only [hhdr]
        exact hroom hone
      · have hpcu : (s.goto t (.commit .check)).pc u = s.pc u := s.goto_pc_of_ne _ hu
        simp only [hpcu]
        exact at_mono (h.here u) (honly u hu) (hno u) rfl (Function.update_of_ne hu _ _) le_rfl
    · intro u v hu hv
      have hut : u ≠ t := by
        rintro rfl
        simp at hu
      have hvt : v ≠ t := by
        rintro rfl
        simp [Pc.posting] at hv
      simp only [s.goto_pc_of_ne _ hut, s.goto_pc_of_ne _ hvt] at hu hv
      simp only [Function.update_of_ne hvt]
      exact h.window u v hu hv
    · simp only [hhdr]
      exact h.client
    · exact h.last
    · simp only [hhdr]
      exact h.clean
    · exact h.synced
    · simp only [hhdr]
      exact h.pending
    · exact h.committed
  · rename_i l hl
    cases hs
    obtain ⟨-, hhdr, -, hcom⟩ := hP.reserved.endOp hmem hl
    have hpc' : (s.goto t .leaving).pc t = .leaving := s.goto_pc_self _ _
    refine h.of_op (t := t) hno hidle ((hcom rfl).trans hidle) rfl rfl rfl rfl rfl
      (fun _ => List.prefix_refl _) ?_ (fun u hu => s.goto_pc_of_ne _ hu) (fun _ _ => rfl)
      (fun _ _ => rfl) ?_ ?_ h.last ?_ ?_ ?_ ?_ (h.began t) (h.synced t) ?_ (h.committed t)
    · simp only [hhdr]
      exact fun _ hb => hb
    · intro u hu hmem'
      obtain ⟨x, hx, rfl⟩ := List.mem_map.mp hmem'
      refine List.mem_map_of_mem ((List.mem_erase_of_ne ?_).mpr hx)
      rintro rfl
      exact hu rfl
    · simp only [hhdr]
      exact h.client
    · simp only [hhdr]
      exact h.clean
    · simp only [hpc']
      trivial
    · simp
    · simp [Pc.posting]
    · simp only [hhdr]
      exact h.pending t

/-! ## Steps of a commit -/

/-- **A step of the committing thread**, which is alone with the contents and the log. -/
private theorem of_commit (hP : Proto s) (h : Durable sb s) (ht : s.pc t = .commit ph)
    (hpc : ∀ u, u ≠ t → s'.pc u = s.pc u) (hctxs : s'.ctxs = s.ctxs)
    (hbegan : s'.began = s.began) (hcno : s'.commitNo = s.commitNo)
    (hsynced : s'.synced = s.synced) (hhist : s'.hist = s.hist) (hfin : s.finished ≤ s'.finished)
    (hstart : s'.started = s'.finished + if s'.log.committing then 1 else 0)
    (hat : At sb s' t (s'.pc t)) (hsleep : s'.pc t ≠ .asleepS2)
    (hpost : (s'.pc t).posting → ∀ u, s.began u < s.commitNo t)
    (hclient : ∀ b ∈ s'.log.header.entries, sb.Client b)
    (hlast : ∀ b, sb.Client b → s'.view b = s.view b)
    (hclean : ∀ b, sb.Client b → s'.dirty b = false → b ∉ s'.log.header.entries →
      s'.view b = s'.disk b)
    (hpend : ∀ u, ∀ x ∈ s.synced u, x.1 ∈ s'.log.header.entries ∨ s'.Installed x)
    (hcomm : ∀ u, ∀ x ∈ s.synced u, s.began u < s'.finished → s'.Installed x) :
    Durable sb s' := by
  have hnil := (hP.alone t ph ht).1
  constructor
  · exact hstart
  · rw [hctxs]
    exact fun _ => hnil
  · rw [hbegan]
    exact fun u => le_trans (h.began u) hfin
  · intro u
    by_cases hu : u = t
    · rw [hu]
      exact hat
    · rw [hpc u hu]
      refine at_mono (h.here u) ?_ ?_ (congrFun hbegan u) (congrFun hcno u) hfin
      · intro hop
        have hu' := h.here u
        rw [hop] at hu'
        have := hu'.1
        rw [hnil] at this
        cases this
      · intro ph' hu'
        exact hu (hP.unique u t ph' ph hu' ht)
  · intro u v hu hv
    have hut : u ≠ t := by
      rintro rfl
      exact hsleep hu
    rw [hpc u hut] at hu
    rw [hbegan, hcno]
    by_cases hvt : v = t
    · subst hvt
      exact hpost hv u
    · rw [hpc v hvt] at hv
      exact h.window u v hu hv
  · exact hclient
  · intro b hb
    rw [hhist, hlast b hb]
    exact h.last b hb
  · exact hclean
  · rw [hsynced, hhist, hbegan]
    exact h.synced
  · rw [hsynced]
    exact hpend
  · rw [hsynced, hbegan]
    exact hcomm

/-- A write of the commit that goes to the log area. -/
private theorem of_log_write (hP : Proto s) (h : Durable sb s) (ht : s.pc t = .commit ph)
    {ph' : Phase} (hpc : s'.pc = (s.goto t (.commit ph')).pc) (hlog : s'.log = s.log)
    (hctxs : s'.ctxs = s.ctxs) (hbegan : s'.began = s.began) (hcno : s'.commitNo = s.commitNo)
    (hsynced : s'.synced = s.synced) (hhist : s'.hist = s.hist) (hfin : s'.finished = s.finished)
    (hstart : s'.started = s.started) (hinst : s'.inst = s.inst) (hdirty : s'.dirty = s.dirty)
    (hview : ∀ b, sb.Client b → s'.view b = s.view b)
    (hdisk : ∀ b, sb.Client b → s'.disk b = s.disk b) (hprog : Progress sb s' ph') :
    Durable sb s' := by
  have hself : s'.pc t = .commit ph' := by rw [hpc, LogSys.goto_pc_self]
  have hhere := h.here t
  rw [ht] at hhere
  have hinstalled : ∀ u, ∀ x ∈ s.synced u, s.Installed x → s'.Installed x := by
    intro u x hx hi
    obtain ⟨hlt, j, hj, hget⟩ := hi
    refine ⟨by rw [hinst]; exact hlt, j, hj, ?_⟩
    rw [hhist, hdisk x.1 (h.synced u x hx).1]
    exact hget
  refine h.of_commit hP ht ?_ hctxs hbegan hcno hsynced hhist (le_of_eq hfin.symm) ?_ ?_ ?_ ?_ ?_
    hview ?_ ?_ ?_
  · intro u hu
    rw [hpc, s.goto_pc_of_ne _ hu]
  · rw [hstart, hfin, hlog]
    exact h.started
  · rw [hself]
    refine ⟨?_, ?_, hprog⟩
    · rw [hcno, hstart]
      exact hhere.1
    · rw [hlog]
      exact hhere.2.1
  · simp [hself]
  · simp [hself, Pc.posting]
  · rw [hlog]
    exact h.client
  · intro b hb hd hne
    rw [hdirty] at hd
    rw [hlog] at hne
    rw [hview b hb, hdisk b hb]
    exact h.clean b hb hd hne
  · intro u x hx
    rw [hlog]
    rcases h.pending u x hx with hm | hi
    · exact Or.inl hm
    · exact Or.inr (hinstalled u x hx hi)
  · intro u x hx hlt
    rw [hfin] at hlt
    exact hinstalled u x hx (h.committed u x hx hlt)

/-- The committing thread moves within its commit. -/
private theorem goto_commit (h : Durable sb s) (ht : s.pc t = .commit ph) (ph' : Phase)
    (ha : Agree s s') (hpc : s'.pc = (s.goto t (.commit ph')).pc) (hprog : Progress sb s ph') :
    Durable sb s' := by
  have hhere := h.here t
  rw [ht] at hhere
  exact h.goto ha hpc ⟨hhere.1, hhere.2.1, hprog⟩ (by simp) (by simp [Pc.posting])

/-- A client's block is not in the log area. -/
theorem client_ne_logBlock (hroom : s.log.header.numBlocks < sb.numLogBlocks) {i : ℕ}
    (hi : i < s.log.header.numBlocks) (hb : sb.Client b) : b ≠ sb.logBlock i := by
  rintro rfl
  apply hb.1
  simp only [SuperBlock.InLog, SuperBlock.logBlock]
  omega

/-- A block whose content is on disk by the hand of the running commit is installed. -/
theorem installed_of_current (h : Durable sb s) {x : ℕ × ℕ × ℕ} (hx : x ∈ s.synced u)
    (hinst : s.finished < s'.inst x.1) (hhist : s'.hist = s.hist)
    (hdisk : s'.disk x.1 = s.view x.1) : s'.Installed x := by
  obtain ⟨hcl, hlen, hbeg⟩ := h.synced u x hx
  have := h.began u
  refine ⟨by omega, (s.hist x.1).length - 1, by omega, ?_⟩
  rw [hhist, hdisk, ← List.getLast?_eq_getElem?]
  exact h.last x.1 hcl

/-- A round of `install_trans` puts the content a block has on disk. -/
private theorem installCopy (hP : Proto s) (h : Durable sb s) {i : ℕ}
    (ht : s.pc t = .commit (.installCopy i)) (hstarted : s.started = s.finished + 1)
    (hs : s.commitStep sb t (.installCopy i) = some s') : Durable sb s' := by
  have hi : i < s.log.header.numBlocks := hP.within t _ ht
  have hhere := h.here t
  rw [ht] at hhere
  obtain ⟨hno, hroom, hlogs, hdone⟩ := hhere
  obtain ⟨B, hB⟩ : ∃ B, s.log.header.blockNo i = B := ⟨_, rfl⟩
  have hcopy : s.view (sb.logBlock i) = s.view B := hB ▸ hlogs i hi
  have hview : Function.update s.view B (s.view (sb.logBlock i)) = s.view := by
    rw [hcopy, Function.update_eq_self]
  simp only [LogSys.commitStep, hB] at hs
  obtain ⟨hpc, hlog, hctxs, hbegan, hcno, hsynced, hhist, hfin, hstart, hdirty, hv, hd, hin⟩ :
      s'.pc = (s.goto t (.commit (.installFrom (i + 1)))).pc ∧ s'.log = s.log ∧
      s'.ctxs = s.ctxs ∧ s'.began = s.began ∧ s'.commitNo = s.commitNo ∧ s'.synced = s.synced ∧
      s'.hist = s.hist ∧ s'.finished = s.finished ∧ s'.started = s.started ∧
      s'.dirty = s.dirty ∧ s'.view = s.view ∧ s'.disk = Function.update s.disk B (s.view B) ∧
      s'.inst = Function.update s.inst B (s.commitNo t) := by
    cases hs
    exact ⟨rfl, rfl, rfl, rfl, rfl, rfl, rfl, rfl, rfl, rfl, hview, by simp [LogSys.goto,
      LogSys.copyTo, hcopy], rfl⟩
  have hself : s'.pc t = .commit (.installFrom (i + 1)) := by rw [hpc, LogSys.goto_pc_self]
  -- an installed block stays installed, and `B` is installed now
  have hinstalled : ∀ u, ∀ x ∈ s.synced u, (x.1 = B ∨ s.Installed x) → s'.Installed x := by
    intro u x hx hxi
    by_cases hxB : x.1 = B
    · refine h.installed_of_current hx ?_ hhist ?_
      · rw [hin, hxB, Function.update_self]
        omega
      · rw [hd, hxB, Function.update_self]
    · obtain ⟨hlt, j, hj, hget⟩ := hxi.resolve_left hxB
      refine ⟨?_, j, hj, ?_⟩
      · rw [hin, Function.update_of_ne hxB]
        exact hlt
      · rw [hhist, hd, Function.update_of_ne hxB]
        exact hget
  refine h.of_commit hP ht ?_ hctxs hbegan hcno hsynced hhist (le_of_eq hfin.symm) ?_ ?_ ?_ ?_ ?_
    ?_ ?_ ?_ ?_
  · intro u hu
    rw [hpc, s.goto_pc_of_ne _ hu]
  · rw [hstart, hfin, hlog]
    exact h.started
  · rw [hself]
    refine ⟨by rw [hcno, hstart]; exact hno, by rw [hlog]; exact hroom, ?_⟩
    simp only [Progress, hlog, hv, hd, hin, hstart]
    refine ⟨hlogs, ?_⟩
    intro j hj
    by_cases hjB : s.log.header.blockNo j = B
    · rw [hjB, Function.update_self, Function.update_self]
      exact ⟨rfl, hno⟩
    · have hji : j ≠ i := by
        rintro rfl
        exact hjB hB
      rw [Function.update_of_ne hjB, Function.update_of_ne hjB]
      exact hdone j (by omega)
  · simp [hself]
  · simp [hself, Pc.posting]
  · rw [hlog]
    exact h.client
  · intro b _
    rw [hv]
  · intro b hb hdirt hne
    rw [hdirty] at hdirt
    rw [hlog] at hne
    have hbB : b ≠ B := by
      rintro rfl
      exact hne (hB ▸ LogHeader.blockNo_mem hi)
    rw [hv, hd, Function.update_of_ne hbB]
    exact h.clean b hb hdirt hne
  · intro u x hx
    rw [hlog]
    rcases h.pending u x hx with hm | hxi
    · exact Or.inl hm
    · exact Or.inr (hinstalled u x hx (Or.inr hxi))
  · intro u x hx hlt
    rw [hfin] at hlt
    exact hinstalled u x hx (Or.inr (h.committed u x hx hlt))

/-- Emptying the header: every recorded block has been installed. -/
private theorem clear (hP : Proto s) (h : Durable sb s) (ht : s.pc t = .commit .clear)
    (hstarted : s.started = s.finished + 1)
    (hs : s.commitStep sb t .clear = some s') : Durable sb s' := by
  have hhere := h.here t
  rw [ht] at hhere
  obtain ⟨hno, hroom, hdone⟩ := hhere
  cases hs
  have hdisk : ∀ b ∈ s.log.header.entries, s.disk b = s.view b ∧ s.inst b = s.started := by
    intro b hb
    obtain ⟨j, hj, rfl⟩ := LogHeader.mem_entries.mp hb
    exact hdone j hj
  refine h.of_commit hP ht (fun u hu => s.goto_pc_of_ne _ hu) rfl rfl rfl rfl rfl le_rfl
    h.started ?_ ?_ ?_ ?_ (fun _ _ => rfl) ?_ ?_ ?_
  · simp only [LogSys.goto_pc_self]
    refine ⟨hno, ?_, trivial⟩
    simp only [LogHeader.numBlocks_clear]
    omega
  · simp
  · simp [Pc.posting]
  · simp
  · intro b hb hd _
    by_cases hmem : b ∈ s.log.header.entries
    · exact (hdisk b hmem).1.symm
    · exact h.clean b hb hd hmem
  · intro u x hx
    right
    rcases h.pending u x hx with hm | hi
    · refine h.installed_of_current hx ?_ rfl (hdisk _ hm).1
      have hlt : s.finished < s.inst x.1 := by
        rw [(hdisk _ hm).2]
        omega
      exact hlt
    · exact hi
  · exact h.committed

/-- The end of a commit: everything synced before is installed. -/
private theorem finish (hP : Proto s) (h : Durable sb s) (ht : s.pc t = .commit .finish)
    (hstarted : s.started = s.finished + 1)
    (hs : s.commitStep sb t .finish = some s') : Durable sb s' := by
  have hhere := h.here t
  rw [ht] at hhere
  obtain ⟨hno, -, -⟩ := hhere
  have hempty : s.log.header.entries = [] := by
    have hn : s.log.header.numBlocks = 0 := hP.within t _ ht
    rw [LogHeader.entries, hn]
    rfl
  have hbegan : ∀ u, s.began u < s.commitNo t := by
    intro u
    have := h.began u
    omega
  cases hs
  refine h.of_commit hP ht (fun u hu => s.goto_pc_of_ne _ hu) rfl rfl rfl rfl rfl
    (Nat.le_succ _) ?_ ?_ ?_ (fun _ => hbegan) h.client (fun _ _ => rfl) h.clean h.pending ?_
  · exact hstarted
  · simp only [LogSys.goto_pc_self]
    refine ⟨hbegan t, ?_⟩
    have : (s.goto t .postS1).commitNo t = s.commitNo t := rfl
    rw [this, hno, hstarted]
  · simp
  · intro u x hx _
    rcases h.pending u x hx with hm | hi
    · rw [hempty] at hm
      cases hm
    · exact hi

theorem commitStep (hP : Proto s) (h : Durable sb s) (ht : s.pc t = .commit ph)
    (hs : s.commitStep sb t ph = some s') : Durable sb s' := by
  have hw := hP.within t ph ht
  have hhere := h.here t
  rw [ht] at hhere
  obtain ⟨hno, hroom, hprog⟩ := hhere
  have hcom := (hP.alone t ph ht).2
  have hstarted : s.started = s.finished + 1 := by
    have := h.started
    rw [hcom] at this
    simpa using this
  have hclient : ∀ {j}, j < s.log.header.numBlocks → sb.Client (s.log.header.blockNo j) :=
    fun hj => h.client _ (LogHeader.blockNo_mem hj)
  have htake : ∀ {b} (ph' : Phase) {S : LogSys}, Progress sb s ph' →
      (s.take t b).map (fun r => r.goto t (.commit ph')) = some S → Durable sb S := by
    intro b ph' S hp hS
    obtain ⟨r, hr, rfl⟩ := Option.map_eq_some_iff.mp hS
    obtain ⟨-, rfl⟩ := Proto.take_some hr
    exact h.goto_commit ht ph' ⟨rfl, rfl, rfl, rfl, rfl, rfl, rfl, rfl, rfl, rfl, rfl, rfl⟩ rfl hp
  cases ph with
  | check =>
      simp only [LogSys.commitStep] at hs
      split at hs
      · cases hs
        refine h.goto_commit ht (.logTo 0)
          ⟨rfl, rfl, rfl, rfl, rfl, rfl, rfl, rfl, rfl, rfl, rfl, rfl⟩ rfl ?_
        exact fun j hj => absurd hj (Nat.not_lt_zero j)
      · cases hs
        exact h.goto_commit ht .finish
          ⟨rfl, rfl, rfl, rfl, rfl, rfl, rfl, rfl, rfl, rfl, rfl, rfl⟩ rfl trivial
  | logTo i =>
      simp only [LogSys.commitStep] at hs
      split at hs
      · exact htake (.logFrom i) hprog hs
      · rename_i hi
        cases hs
        refine h.goto_commit ht .writeHeader
          ⟨rfl, rfl, rfl, rfl, rfl, rfl, rfl, rfl, rfl, rfl, rfl, rfl⟩ rfl ?_
        exact fun j hj => hprog j (by omega)
  | logFrom i => exact htake (.logCopy i) hprog hs
  | logCopy i =>
      cases hs
      have hi : i < s.log.header.numBlocks := hw
      have hne : ∀ {b}, sb.Client b → b ≠ sb.logBlock i :=
        fun hb => client_ne_logBlock hroom hi hb
      refine h.of_log_write hP ht rfl rfl rfl rfl rfl rfl rfl rfl rfl rfl rfl ?_ ?_ ?_
      · exact fun b hb => Function.update_of_ne (hne hb) _ _
      · exact fun b hb => Function.update_of_ne (hne hb) _ _
      · intro j hj
        have hj' : j < s.log.header.numBlocks := by omega
        simp only [LogSys.goto, LogSys.copyTo, Function.update_of_ne (hne (hclient hj'))]
        by_cases hji : j = i
        · rw [hji, Function.update_self]
        · rw [Function.update_of_ne (fun hj => hji (sb.logBlock_inj hj))]
          exact hprog j (by omega)
  | writeHeader =>
      cases hs
      have hne : ∀ {b}, sb.Client b → b ≠ sb.logStart := fun hb => Sim.client_ne hb (by omega)
      refine h.of_log_write hP ht rfl rfl rfl rfl rfl rfl rfl rfl rfl rfl rfl (fun _ _ => rfl) ?_ ?_
      · exact fun b hb => Function.update_of_ne (hne hb) _ _
      · exact ⟨hprog, fun j hj => absurd hj (Nat.not_lt_zero j)⟩
  | installFrom i =>
      simp only [LogSys.commitStep] at hs
      split at hs
      · exact htake (.installTo i) hprog hs
      · rename_i hi
        cases hs
        refine h.goto_commit ht .clear
          ⟨rfl, rfl, rfl, rfl, rfl, rfl, rfl, rfl, rfl, rfl, rfl, rfl⟩ rfl ?_
        exact fun j hj => hprog.2 j (by omega)
  | installTo i => exact htake (.installCopy i) hprog hs
  | installCopy i => exact h.installCopy hP ht hstarted hs
  | clear => exact h.clear hP ht hstarted hs
  | clearHeader =>
      cases hs
      have hne : ∀ {b}, sb.Client b → b ≠ sb.logStart := fun hb => Sim.client_ne hb (by omega)
      refine h.of_log_write hP ht rfl rfl rfl rfl rfl rfl rfl rfl rfl rfl rfl (fun _ _ => rfl) ?_
        trivial
      exact fun b hb => Function.update_of_ne (hne hb) _ _
  | finish => exact h.finish hP ht hstarted hs

/-! ## Waits and posts -/

/-- A wait on a balanced semaphore moves the caller to its sleep. -/
theorem wait_eq {sem : Semaphore} {put : LogSys → Semaphore → LogSys} {asleep awake : Pc}
    (hb : sem.Balanced) : s.wait t sem put asleep awake =
      (put s ⟨sem.val - 1, t :: sem.sleeplist⟩).goto t asleep := by
  rw [LogSys.wait, Semaphore.waitSem_of_balanced hb]

/-- A post on a balanced semaphore wakes its sleepers. -/
theorem post_eq {sem : Semaphore} {put : LogSys → Semaphore → LogSys} {awake : Pc}
    (hb : sem.Balanced) : s.post t sem put awake p = some
      (((put s (Semaphore.initSem 0)).wake sem.sleeplist.reverse awake).goto t p) := by
  rw [LogSys.post, Semaphore.postAllSem_of_balanced hb]
  rfl

theorem waitS2 (hP : Proto s) (h : Durable sb s)
    (hok : ∀ u, (s.pc u).posting → s.began t < s.commitNo u) :
    Durable sb (s.wait t s.s2 LogSys.setS2 .asleepS2 .returned) := by
  rw [wait_eq hP.balanced.2.1]
  refine h.of_agree ⟨rfl, rfl, rfl, rfl, rfl, rfl, rfl, rfl, rfl, rfl, rfl, rfl⟩ ?_ ?_
  · intro u
    by_cases hu : u = t
    · rw [hu, LogSys.goto_pc_self]
      trivial
    · rw [LogSys.goto_pc_of_ne _ _ hu]
      exact h.here u
  · intro u v hu hv
    have hvt : v ≠ t := by
      rintro rfl
      simp [Pc.posting] at hv
    rw [LogSys.goto_pc_of_ne _ _ hvt] at hv
    by_cases hut : u = t
    · rw [hut]
      exact hok v hv
    · rw [LogSys.goto_pc_of_ne _ _ hut] at hu
      exact h.window u v hu hv

/-- A post moves the sleepers to `awake` and the caller to `p`. -/
private theorem of_post (h : Durable sb s) {ts : List ℕ} {awake : Pc} (ha : Agree s s')
    (hpc : s'.pc = ((s.wake ts awake).goto t p).pc) (hawake : ∀ u ∈ ts, At sb s u awake)
    (hat : At sb s t p) (hsleep : awake ≠ .asleepS2 ∧ p ≠ .asleepS2)
    (hpost : ¬ awake.posting ∧ (p.posting → (s.pc t).posting)) : Durable sb s' := by
  refine h.of_agree ha ?_ ?_
  · intro u
    rw [hpc]
    by_cases hu : u = t
    · rw [hu, LogSys.goto_pc_self]
      exact hat
    · rw [LogSys.goto_pc_of_ne _ _ hu, LogSys.wake]
      simp only
      split
      · rename_i hmem
        exact hawake u hmem
      · exact h.here u
  · intro u v hu hv
    rw [hpc] at hu hv
    have hut : u ≠ t := by
      rintro rfl
      rw [LogSys.goto_pc_self] at hu
      exact hsleep.2 hu
    have hu' : s.pc u = .asleepS2 := by
      rw [LogSys.goto_pc_of_ne _ _ hut, LogSys.wake] at hu
      simp only at hu
      split at hu
      · exact absurd hu hsleep.1
      · exact hu
    by_cases hvt : v = t
    · subst hvt
      rw [LogSys.goto_pc_self] at hv
      exact h.window u v hu' (hpost.2 hv)
    · rw [LogSys.goto_pc_of_ne _ _ hvt, LogSys.wake] at hv
      simp only at hv
      split at hv
      · exact absurd hv hpost.1
      · exact h.window u v hu' hv

/-- **Every timely step keeps the invariant.** -/
theorem step {i : ℕ × Act} (hP : Proto s) (h : Durable sb s) (hok : Timely sb s i)
    (hs : s.step sb i = some s') : Durable sb s' := by
  obtain ⟨t, a⟩ := i
  obtain ⟨hb1, hb2, hb3⟩ := hP.balanced
  cases a with
  | beginOp =>
      simp only [LogSys.step] at hs
      split at hs
      · cases hs
        exact h.goto (t := t) ⟨rfl, rfl, rfl, rfl, rfl, rfl, rfl, rfl, rfl, rfl, rfl, rfl⟩ rfl
          trivial (by simp) (by simp [Pc.posting])
      · cases hs
  | acquire b =>
      simp only [LogSys.step] at hs
      split at hs
      · obtain ⟨-, rfl⟩ := Proto.take_some hs
        exact h.of_agree ⟨rfl, rfl, rfl, rfl, rfl, rfl, rfl, rfl, rfl, rfl, rfl, rfl⟩ h.here
          h.window
      · cases hs
  | modify b d =>
      simp only [LogSys.step] at hs
      split at hs
      · rename_i ht
        cases hs
        exact h.modify hP ht.1
      · cases hs
  | sync b =>
      simp only [LogSys.step] at hs
      split at hs
      · rename_i ht
        exact h.sync hP ht.1 ht.2.2 hs
      · cases hs
  | release b =>
      simp only [LogSys.step] at hs
      split at hs
      · cases hs
        exact h.of_agree ⟨rfl, rfl, rfl, rfl, rfl, rfl, rfl, rfl, rfl, rfl, rfl, rfl⟩ h.here
          h.window
      · cases hs
  | endOp =>
      simp only [LogSys.step] at hs
      split at hs
      · rename_i ht
        exact h.leave hP ht hok hs
      · cases hs
  | run =>
      have hhere := h.here t
      simp only [LogSys.step, LogSys.runStep] at hs
      split at hs
      · rename_i ht
        cases hs
        exact h.enter hP ht
      · cases hs
        rw [wait_eq hb3]
        exact h.goto (t := t) ⟨rfl, rfl, rfl, rfl, rfl, rfl, rfl, rfl, rfl, rfl, rfl, rfl⟩ rfl
          trivial (by simp) (by simp [Pc.posting])
      · cases hs
        rw [wait_eq hb1]
        exact h.goto (t := t) ⟨rfl, rfl, rfl, rfl, rfl, rfl, rfl, rfl, rfl, rfl, rfl, rfl⟩ rfl
          trivial (by simp) (by simp [Pc.posting])
      · rw [post_eq hb1] at hs
        cases hs
        exact h.of_post (t := t) ⟨rfl, rfl, rfl, rfl, rfl, rfl, rfl, rfl, rfl, rfl, rfl, rfl⟩ rfl
          (fun _ _ => trivial) trivial (by simp) (by simp [Pc.posting])
      · rename_i ht
        cases hs
        exact h.waitS2 hP (hok ht)
      · rename_i ph ht
        exact h.commitStep hP ht hs
      · rename_i ht
        rw [post_eq hb1] at hs
        cases hs
        rw [ht] at hhere
        exact h.of_post (t := t) ⟨rfl, rfl, rfl, rfl, rfl, rfl, rfl, rfl, rfl, rfl, rfl, rfl⟩ rfl
          (fun _ _ => trivial) hhere (by simp) (by simp [Pc.posting, ht])
      · -- the sleepers on `s2` began before this commit
        rename_i ht
        rw [post_eq hb2] at hs
        cases hs
        rw [ht] at hhere
        refine h.of_post (t := t) ⟨rfl, rfl, rfl, rfl, rfl, rfl, rfl, rfl, rfl, rfl, rfl, rfl⟩ rfl
          ?_ hhere (by simp) (by simp [Pc.posting, ht])
        intro u hu
        have hsleep := hP.asleep2 u (List.mem_reverse.mp hu)
        exact lt_of_lt_of_le (h.window u t hsleep (Or.inr ht)) hhere.2
      · rename_i ht
        rw [post_eq hb3] at hs
        cases hs
        rw [ht] at hhere
        exact h.of_post (t := t) ⟨rfl, rfl, rfl, rfl, rfl, rfl, rfl, rfl, rfl, rfl, rfl, rfl⟩ rfl
          (fun _ _ => trivial) (lt_of_lt_of_le hhere.1 hhere.2) (by simp) (by simp [Pc.posting])
      all_goals cases hs

end Durable

/-! ## What `cache_end_op` promises -/

/-- Every block synced by an operation whose `cache_end_op` has returned was installed by a commit
that started after the sync. -/
theorem Durable.installed {sb : SuperBlock} {s : LogSys} {t : ℕ} (h : Durable sb s)
    (ht : s.pc t = .returned) : ∀ x ∈ s.synced t, s.Installed x := by
  have hhere := h.here t
  rw [ht] at hhere
  intro x hx
  exact h.committed t x hx hhere

end OsLab
