import OsLab.Kernel.ProcTree

/-!
# List surgery

`_merge_list` and `_detach_from_list` of `common/list.c` on any two lists of a heap, and
the place where the kernel does both in a row: `exit` detaches the head of its children and
merges what is left, from its first node on, into the list of its root process.

## Main definitions

* `mergePtr_ring`, `detachPtr_ring` — the two functions, with what they return.
* `exit_ring` — the children of a process that exits.
* `list_surgery` — all three.
-/

namespace OsLab

universe u

namespace IsRing

variable {α : Type u} [DecidableEq α] {l : Links α} {a b x : α} {as bs ns : List α}

/-- **Two lists become one**, and no other node changes. -/
theorem mergePtr_ring (ha : IsRing l a as) (hb : IsRing l b bs)
    (hdisj : ∀ z ∈ a :: as, z ∉ b :: bs) :
    (l.mergePtr (some a) (some b)).2 = some a ∧
      IsRing (l.mergePtr (some a) (some b)).1 a (b :: (bs ++ as)) ∧
      ∀ z, z ∉ a :: as → z ∉ b :: bs →
        (l.mergePtr (some a) (some b)).1.next z = l.next z ∧
          (l.mergePtr (some a) (some b)).1.prev z = l.prev z :=
  ⟨rfl, ha.merge hb hdisj, fun _ hza hzb => ha.merge_of_notMem hb hza hzb⟩

/-- **One node leaves the list.**  What is returned is the node that was before it. -/
theorem detachPtr_ring (hr : IsRing l x ns) :
    (l.detachPtr x).2 = (if ns = [] then none else (x :: ns).getLast?) ∧
      IsRing (l.detachPtr x).1 x [] ∧
      (∀ c cs, ns = c :: cs → IsRing (l.detachPtr x).1 c cs) ∧
      ∀ z, z ∉ x :: ns →
        (l.detachPtr x).1.next z = l.next z ∧ (l.detachPtr x).1.prev z = l.prev z := by
  refine ⟨?_, IsRing.init _ _, ?_, ?_⟩
  · simp only [Links.detachPtr, hr.prev_eq_iff, hr.last]
  · rintro c cs rfl
    exact hr.detach_head
  · intro z hz
    exact hr.detach_of_notMem (by simp) hz

end IsRing

namespace ProcSys

variable {s s' : ProcSys} {t : ℕ} {code : ℤ} {cs rs : List ℕ}

/-- What `exit` does to the lists. -/
theorem exit_links (h : s.exit t code = some s') :
    t ≠ s.rootproc (s.proc t).container ∧
      s'.links = (s.mergeChildren t (s.rootproc (s.proc t).container)).links := by
  simp only [exit, Option.bind_eq_bind] at h
  split at h
  · cases h
  rename_i hne
  rw [not_or] at hne
  refine ⟨hne.1, ?_⟩
  simp only [Option.bind_eq_some_iff] at h
  obtain ⟨kids, -, s₁, hpost, parent, -, s₂, hsem, h⟩ := h
  cases h
  have hzombies : s₁.links = s.links := by rw [(postZombies_posted hpost).same]; rfl
  have hparents := (setParents_spec (s.rootproc (s.proc t).container) kids s₁).1
  show s₂.links = _
  rw [(postSem_posted hsem).same]
  show (ProcSys.mergeChildren _ _ _).links = _
  simp only [mergeChildren]
  rw [hparents]
  simp only [hzombies]
  split_ifs
  · rfl
  · rfl

/-- **The root process gets the children** of the process that exits. -/
theorem exit_ring (ht : IsRing s.links (.children t) (cs.map .ptnode))
    (hr : IsRing s.links (.children (s.rootproc (s.proc t).container)) (rs.map .ptnode))
    (hdisj : ∀ z ∈ PNode.children (s.rootproc (s.proc t).container) :: rs.map .ptnode,
      z ∉ PNode.children t :: cs.map .ptnode) (h : s.exit t code = some s') :
    (∃ ns : List ℕ, ns.Perm (rs ++ cs) ∧
      IsRing s'.links (.children (s.rootproc (s.proc t).container)) (ns.map .ptnode)) ∧
      IsRing s'.links (.children t) [] ∧
      ∀ z, z ∉ PNode.children t :: cs.map .ptnode →
        z ∉ PNode.children (s.rootproc (s.proc t).container) :: rs.map .ptnode →
        s'.links.next z = s.links.next z ∧ s'.links.prev z = s.links.prev z := by
  obtain ⟨-, hlinks⟩ := exit_links h
  rw [hlinks]
  obtain ⟨hroot, hself⟩ := mergeChildren_ring ht hr hdisj
  refine ⟨⟨rs ++ rotate cs, (perm_rotate cs).append_left rs, hroot⟩, hself, ?_⟩
  intro z hzt hzr
  exact mergeChildren_of_notMem ht hr hdisj hzt hzr

end ProcSys

/-- **List surgery** is right on all lists, of any length, and so is the splice of `exit`. -/
theorem list_surgery {α : Type u} [DecidableEq α] (l : Links α) :
    (∀ (a b : α) (as bs : List α), IsRing l a as → IsRing l b bs →
      (∀ z ∈ a :: as, z ∉ b :: bs) →
      (l.mergePtr (some a) (some b)).2 = some a ∧
        IsRing (l.mergePtr (some a) (some b)).1 a (b :: (bs ++ as)) ∧
        ∀ z, z ∉ a :: as → z ∉ b :: bs →
          (l.mergePtr (some a) (some b)).1.next z = l.next z ∧
            (l.mergePtr (some a) (some b)).1.prev z = l.prev z) ∧
    (∀ (x : α) (ns : List α), IsRing l x ns →
      (l.detachPtr x).2 = (if ns = [] then none else (x :: ns).getLast?) ∧
        IsRing (l.detachPtr x).1 x [] ∧
        (∀ c cs, ns = c :: cs → IsRing (l.detachPtr x).1 c cs) ∧
        ∀ z, z ∉ x :: ns →
          (l.detachPtr x).1.next z = l.next z ∧ (l.detachPtr x).1.prev z = l.prev z) ∧
    ∀ (s s' : ProcSys) (t r : ℕ) (code : ℤ) (cs rs : List ℕ),
      r = s.rootproc (s.proc t).container →
      IsRing s.links (.children t) (cs.map .ptnode) →
      IsRing s.links (.children r) (rs.map .ptnode) →
      (∀ z ∈ PNode.children r :: rs.map .ptnode, z ∉ PNode.children t :: cs.map .ptnode) →
      s.exit t code = some s' →
      (∃ ns : List ℕ, ns.Perm (rs ++ cs) ∧ IsRing s'.links (.children r) (ns.map .ptnode)) ∧
        IsRing s'.links (.children t) [] ∧
        ∀ z, z ∉ PNode.children t :: cs.map .ptnode → z ∉ PNode.children r :: rs.map .ptnode →
          s'.links.next z = s.links.next z ∧ s'.links.prev z = s.links.prev z := by
  refine ⟨?_, ?_, ?_⟩
  · intro a b as bs ha hb hdisj
    exact ha.mergePtr_ring hb hdisj
  · intro x ns hr
    exact hr.detachPtr_ring
  · rintro s s' t r code cs rs rfl ht hr hdisj hexit
    exact ProcSys.exit_ring ht hr hdisj hexit

/-- Two lists of two and three nodes, and a process that leaves two children to the root process,
which has one already. -/
theorem list_surgery_small : ∃ (l l₁ l₂ : Links ℕ) (s s' : ProcSys) (ns : List ℕ),
    IsRing l 0 [1] ∧ IsRing l 2 [3, 4] ∧ l.mergePtr (some 0) (some 2) = (l₁, some 0) ∧
      IsRing l₁ 0 [2, 3, 4, 1] ∧ l.detachPtr 2 = (l₂, some 4) ∧ IsRing l₂ 3 [4] ∧
      s.exit 1 0 = some s' ∧ ns.Perm [1, 2, 3] ∧
      IsRing s'.links (.children 0) (ns.map .ptnode) := by
  have hrun : (runs ProcSys.step (ProcSys.start fun _ => 0)
      [(0, .createProc 1), (0, .setParentToThis 1), (0, .startProc 1),
        (1, .createProc 2), (1, .setParentToThis 2), (1, .startProc 2),
        (1, .createProc 3), (1, .setParentToThis 3), (1, .startProc 3)]).any (fun s =>
      IsRing s.links (.children 1) ([3, 2].map .ptnode) ∧
        IsRing s.links (.children 0) ([1].map .ptnode) ∧
        s.rootproc (s.proc 1).container = 0 ∧ (s.exit 1 0).isSome) = true := by decide +kernel
  rw [Option.any_eq_true] at hrun
  obtain ⟨s, -, hs⟩ := hrun
  obtain ⟨ht, hr, hroot, hexit⟩ := of_decide_eq_true hs
  obtain ⟨s', hs'⟩ := Option.isSome_iff_exists.mp hexit
  let l : Links ℕ :=
    ⟨fun a => [1, 0, 3, 4, 2].getD a a, fun a => [1, 0, 4, 2, 3].getD a a⟩
  have ha : IsRing l 0 [1] := by decide
  have hb : IsRing l 2 [3, 4] := by decide
  obtain ⟨hmerge, hdetach, hsplice⟩ := list_surgery l
  obtain ⟨-, hmerged, -⟩ := hmerge 0 2 [1] [3, 4] ha hb (by decide)
  obtain ⟨hret, -, hrest, -⟩ := hdetach 2 [3, 4] hb
  obtain ⟨⟨ns, hperm, hring⟩, -, -⟩ :=
    hsplice s s' 1 0 0 [3, 2] [1] hroot.symm ht hr (by decide) hs'
  have hperm' : ([1] ++ [3, 2] : List ℕ).Perm [1, 2, 3] := by decide
  exact ⟨l, _, _, s, s', ns, ha, hb, rfl, hmerged, Prod.ext rfl (by simpa using hret),
    hrest 3 [4] rfl, hs', hperm.trans hperm', hring⟩

end OsLab
