import OsLab.Common.RbFrame

/-!
# Several trees in one memory

Each node has a tree it goes to, its `home`.  Insertion and deletion in one tree leave the
others as they are, and act on the order of the nodes as on a list.

The comparison needs to be an order on the nodes of one tree only, so that it may be given up
and taken up again for a node whose key changes while the node is linked.

## Main definitions

* `RbForest` — the nodes and the roots.
* `Planted home cmp F Q t` — the nodes in `Q` lie in the trees `t`, each in its home.
* `Planted.insert`, `Planted.erase` — what `_rb_insert` and `_rb_erase` do to them.
-/

namespace OsLab

open RbTree

/-- The nodes, and `rb_node` of each root. -/
structure RbForest where
  nodes : ℕ → RbNode
  root : ℕ → ℕ

namespace RbForest

/-- The memory with the root `g`. -/
def mem (F : RbForest) (g : ℕ) : RbMem := ⟨F.nodes, F.root g⟩

/-- The memory after a call for the root `g`. -/
def set (F : RbForest) (g : ℕ) (m : RbMem) : RbForest :=
  ⟨m.nodes, Function.update F.root g m.root⟩

variable {F : RbForest} {g g' : ℕ} {m : RbMem}

@[simp] theorem mem_set_self : (F.set g m).mem g = m := by simp [mem, set]

theorem mem_set_of_ne (h : g' ≠ g) : (F.set g m).mem g' = ⟨m.nodes, F.root g'⟩ := by
  simp [mem, set, h]

end RbForest

/-! ## The comparison -/

section Congr

variable {cmp cmp' : ℕ → ℕ → Bool} {node p fuel : ℕ} {m : RbMem} {t : RbTree ℕ}

theorem insertLoop_zero : insertLoop cmp node fuel 0 m = insertLoop cmp' node fuel 0 m := by
  cases fuel with
  | zero => rfl
  | succ fuel => rfl

/-- The search compares the node with the nodes of the tree only. -/
theorem insertLoop_congr (h : Holds m p t)
    (heq : ∀ x ∈ t.toList, cmp node x = cmp' node x ∧ cmp x node = cmp' x node) :
    insertLoop cmp node fuel t.ptr m = insertLoop cmp' node fuel t.ptr m := by
  induction t generalizing p fuel with
  | nil => exact insertLoop_zero
  | node c l a r ihl ihr =>
      obtain ⟨ha, hcell, hl, hr⟩ := h
      have hleft : (m.nodes a).left = l.ptr := by rw [hcell]; rfl
      have hright : (m.nodes a).right = r.ptr := by rw [hcell]; rfl
      have hsubl : insertLoop cmp node (fuel - 1) l.ptr m = insertLoop cmp' node (fuel - 1) l.ptr m :=
        ihl hl fun x hx => heq x (by simp [hx])
      have hsubr : insertLoop cmp node (fuel - 1) r.ptr m = insertLoop cmp' node (fuel - 1) r.ptr m :=
        ihr hr fun x hx => heq x (by simp [hx])
      cases fuel with
      | zero => rfl
      | succ fuel =>
          rw [Nat.add_sub_cancel] at hsubl hsubr
          have hzero : insertLoop cmp node fuel 0 = insertLoop cmp' node fuel 0 :=
            funext fun _ => insertLoop_zero
          obtain ⟨h₁, h₂⟩ := heq a (by simp)
          simp only [insertLoop, ptr_node, if_neg ha.ne, h₁, h₂, RbMem.get_eq ha,
            Option.bind_eq_bind, Option.bind_some, hleft, hright, hsubl, hsubr]
          by_cases h0 : l.ptr = 0 <;> by_cases h0' : r.ptr = 0 <;>
            simp only [h0, h0', hzero, if_true, if_false]

theorem rbInsert_congr (h : HoldsTree m t) (hN : IsNode node) (hnot : node ∉ t.toList)
    (heq : ∀ x ∈ t.toList, cmp node x = cmp' node x ∧ cmp x node = cmp' x node) :
    rbInsert cmp fuel node m = rbInsert cmp' fuel node m := by
  rw [rbInsert, rbInsert, RbMem.modify_eq hN, Option.bind_eq_bind, Option.bind_some,
    Option.bind_eq_bind, Option.bind_some, h.1, insertLoop_congr (h.2.put hnot) heq]

end Congr

/-! ## Trees with homes -/

/-- **The nodes in `Q` lie in the trees, each in its home**, in the order of `cmp`. -/
structure Planted (home : ℕ → ℕ) (cmp : ℕ → ℕ → Bool) (F : RbForest) (Q : Set ℕ)
    (t : ℕ → RbTree ℕ) : Prop where
  holds : ∀ g, HoldsTree (F.mem g) (t g)
  nodup : ∀ g, (t g).toList.Nodup
  balanced : ∀ g, ∃ n, (t g).Balanced .black n
  sorted : ∀ g, (t g).toList.Pairwise fun a b => cmp a b = true
  mem : ∀ n g, n ∈ (t g).toList ↔ n ∈ Q ∧ g = home n

namespace Planted

variable {home : ℕ → ℕ} {cmp cmp' : ℕ → ℕ → Bool} {F : RbForest} {Q : Set ℕ} {t : ℕ → RbTree ℕ}
  {n g fuel : ℕ} {m' : RbMem} {u : RbTree ℕ}

theorem notMem (h : Planted home cmp F Q t) (hn : n ∉ Q) (g : ℕ) : n ∉ (t g).toList :=
  fun hin => hn ((h.mem n g).mp hin).1

/-- Another order of the nodes that are in the trees already. -/
theorem congr_cmp (h : Planted home cmp F Q t)
    (heq : ∀ a b, a ∈ Q → b ∈ Q → cmp a b = true → cmp' a b = true) :
    Planted home cmp' F Q t where
  holds := h.holds
  nodup := h.nodup
  balanced := h.balanced
  sorted g := (h.sorted g).imp_of_mem fun {a b} ha hb =>
    heq a b ((h.mem a g).mp ha).1 ((h.mem b g).mp hb).1
  mem := h.mem

/-- **A call for one root**, which leaves the tree `u` there and writes to the nodes of its
tree and to a node in none of the others. -/
theorem replace {Q' : Set ℕ} (h : Planted home cmp F Q t) (hu : HoldsTree m' u)
    (hnd : u.toList.Nodup) (hbal : ∃ n, u.Balanced .black n)
    (hsort : u.toList.Pairwise fun a b => cmp' a b = true)
    (hmem : ∀ a, a ∈ u.toList ↔ a ∈ Q' ∧ g = home a)
    (hother : ∀ a, home a ≠ g → (a ∈ Q' ↔ a ∈ Q))
    (hcmp : ∀ a b, home a ≠ g → home b ≠ g → a ∈ Q → b ∈ Q → cmp a b = true → cmp' a b = true)
    (hframe : ∀ a, a ∈ Q → home a ≠ g → a ∉ (t g).toList → m'.nodes a = F.nodes a) :
    Planted home cmp' (F.set g m') Q' (Function.update t g u) := by
  have hin : ∀ {g' a}, g' ≠ g → a ∈ (t g').toList → a ∈ Q ∧ home a ≠ g := by
    intro g' a hg ha
    obtain ⟨hQ, rfl⟩ := (h.mem a g').mp ha
    exact ⟨hQ, hg⟩
  refine ⟨fun g' => ?_, fun g' => ?_, fun g' => ?_, fun g' => ?_, fun a g' => ?_⟩
  all_goals by_cases hg : g' = g
  · subst hg
    rwa [RbForest.mem_set_self, Function.update_self]
  · rw [RbForest.mem_set_of_ne hg, Function.update_of_ne hg]
    refine ⟨(h.holds g').1, (h.holds g').2.congr fun a ha => ?_⟩
    obtain ⟨hQ, hhome⟩ := hin hg ha
    exact hframe a hQ hhome fun hag => hhome ((h.mem a g).mp hag).2.symm
  · subst hg
    rwa [Function.update_self]
  · rw [Function.update_of_ne hg]
    exact h.nodup g'
  · subst hg
    rwa [Function.update_self]
  · rw [Function.update_of_ne hg]
    exact h.balanced g'
  · subst hg
    rwa [Function.update_self]
  · rw [Function.update_of_ne hg]
    refine (h.sorted g').imp_of_mem fun {a b} ha hb => ?_
    exact hcmp a b (hin hg ha).2 (hin hg hb).2 (hin hg ha).1 (hin hg hb).1
  · subst hg
    rw [Function.update_self, hmem]
  · rw [Function.update_of_ne hg, h.mem]
    refine and_congr_left ?_
    rintro rfl
    exact (hother a hg).symm

/-- **`_rb_insert` puts a node into its home.** -/
theorem insert [IsStrictWeakOrder ℕ fun a b => cmp' a b = true] (h : Planted home cmp F Q t)
    (hN : IsNode n) (hn : n ∉ Q)
    (hcmp : ∀ a ∈ n :: (t (home n)).toList, ∀ b ∈ n :: (t (home n)).toList, cmp' a b = cmp a b)
    (htotal : ∀ a ∈ (t (home n)).toList, cmp n a = true ∨ cmp a n = true)
    (hfuel : (t (home n)).toList.length < fuel) :
    ∃ m' u, rbInsert cmp fuel n (F.mem (home n)) = some (0, m') ∧
      Planted home cmp (F.set (home n) m') (Set.insert n Q) (Function.update t (home n) u) ∧
      u.toList.Perm (n :: (t (home n)).toList) := by
  have hnot := h.notMem hn (home n)
  have hself : n ∈ n :: (t (home n)).toList := List.mem_cons_self
  have hrest : ∀ x ∈ (t (home n)).toList, x ∈ n :: (t (home n)).toList := fun x hx =>
    List.mem_cons_of_mem n hx
  have htree : IsRbTree cmp' (F.mem (home n)) (t (home n)) := by
    refine ⟨h.holds _, (h.sorted _).imp_of_mem fun {a b} ha hb hab => ?_, h.balanced _⟩
    rwa [hcmp a (hrest a ha) b (hrest b hb)]
  obtain ⟨ret, m', u, hexec, hu, hres⟩ := rbInsert_spec htree hN hnot hfuel
  rw [← rbInsert_congr (h.holds _) hN hnot fun x hx =>
    ⟨(hcmp n hself x (hrest x hx)).symm, (hcmp x (hrest x hx) n hself).symm⟩] at hexec
  rcases hres with ⟨rfl, -, l, r, hold, hnew⟩ | ⟨-, ⟨x, hx, hnx, hxn⟩, -⟩
  · have hperm : u.toList.Perm (n :: (t (home n)).toList) := by
      rw [hnew, hold]
      exact List.perm_middle
    refine ⟨m', u, hexec, h.replace hu.holds ?_ hu.balanced ?_ ?_ ?_ ?_ ?_, hperm⟩
    · rw [hperm.nodup_iff]
      exact List.nodup_cons.mpr ⟨hnot, h.nodup _⟩
    · refine hu.sorted.imp_of_mem fun {a b} ha hb hab => ?_
      rwa [← hcmp a (hperm.mem_iff.mp ha) b (hperm.mem_iff.mp hb)]
    · intro a
      rw [hperm.mem_iff, List.mem_cons, h.mem]
      constructor
      · rintro (rfl | ⟨ha, hhome⟩)
        · exact ⟨.inl rfl, rfl⟩
        · exact ⟨.inr ha, hhome⟩
      · rintro ⟨rfl | ha, hhome⟩
        · exact .inl rfl
        · exact .inr ⟨ha, hhome⟩
    · intro a ha
      refine ⟨fun hin => hin.resolve_left ?_, .inr⟩
      rintro rfl
      exact ha rfl
    · exact fun a b _ _ _ _ hab => hab
    · intro a ha hhome hag
      refine rbInsert_frame (h.holds _) hN hnot hexec ?_ hag
      rintro rfl
      exact hn ha
  · -- no other node is equivalent
    rw [hcmp n hself x (hrest x hx)] at hnx
    rw [hcmp x (hrest x hx) n hself] at hxn
    rcases htotal x hx with htr | htr
    · rw [htr] at hnx
      cases hnx
    · rw [htr] at hxn
      cases hxn

/-- **`_rb_erase` takes a node out of its home**, whatever has become of its key. -/
theorem erase (h : Planted home cmp F Q t) (hn : n ∈ Q)
    (hcmp : ∀ a b, a ≠ n → b ≠ n → cmp' a b = cmp a b)
    (hfuel : (t (home n)).toList.length < fuel) :
    ∃ m' u, rbErase fuel n (F.mem (home n)) = some m' ∧
      Planted home cmp' (F.set (home n) m') (Q \ {n}) (Function.update t (home n) u) ∧
      u.toList = (t (home n)).toList.erase n := by
  have hmem : n ∈ (t (home n)).toList := (h.mem n _).mpr ⟨hn, rfl⟩
  obtain ⟨m', u, hexec, hu, hbal, hlist⟩ :=
    rbErase_spec (h.holds _) (h.nodup _) (h.balanced _) hmem hfuel
  have hin : ∀ a, a ∈ u.toList ↔ a ≠ n ∧ a ∈ (t (home n)).toList := by
    intro a
    rw [hlist, (h.nodup _).mem_erase_iff]
  refine ⟨m', u, hexec, h.replace hu ?_ hbal ?_ ?_ ?_ ?_ ?_, hlist⟩
  · rw [hlist]
    exact (h.nodup _).erase n
  · have hsort : u.toList.Pairwise fun a b => cmp a b = true := by
      rw [hlist]
      exact (h.sorted _).sublist List.erase_sublist
    refine hsort.imp_of_mem fun {a b} ha hb hab => ?_
    rwa [hcmp a b ((hin a).mp ha).1 ((hin b).mp hb).1]
  · intro a
    rw [hin, h.mem]
    constructor
    · rintro ⟨hne, ha, hhome⟩
      exact ⟨⟨ha, hne⟩, hhome⟩
    · rintro ⟨⟨ha, hne⟩, hhome⟩
      exact ⟨hne, ha, hhome⟩
  · intro a ha
    refine ⟨fun hin => hin.1, fun hin => ⟨hin, ?_⟩⟩
    rintro rfl
    exact ha rfl
  · intro a b ha hb _ _ hab
    rwa [hcmp a b (fun heq => ha (heq ▸ rfl)) (fun heq => hb (heq ▸ rfl))]
  · exact fun a _ _ hag => rbErase_frame (h.holds _) hmem hexec hag

/-- The tree that is home to one node -/
theorem toList_singleton {a : ℕ} (h : Planted home cmp F Q t)
    (hQ : ∀ n, n ∈ Q ∧ g = home n ↔ n = a) : (t g).toList = [a] := by
  have hmem : ∀ n, n ∈ (t g).toList ↔ n ∈ [a] := by
    intro n
    rw [h.mem, hQ, List.mem_singleton]
  exact List.perm_singleton.mp
    ((List.perm_ext_iff_of_nodup (h.nodup g) (List.nodup_singleton a)).mpr hmem)

end Planted

end OsLab
