import OsLab.Common.RbRepr
import Mathlib.Order.RelClasses

/-!
# Insertion and lookup

The rounds of `__rb_insert_fix` do to the memory what `insFix` does to the tree.  The search
of `_rb_insert` goes down to a hole and links the node there, with the nodes before it in the
order on one side and those after it on the other.

## Main definitions

* `FixState` — the memory at the beginning of a round.
* `IsRbTree` — a red-black tree in memory, in the order of `cmp`.
* `rb_insert_correct` — what `_rb_insert` does, and `_rb_lookup` and `_rb_first` after it.
-/

namespace OsLab

open RbTree

/-! ## One round of the repair -/

section Round

variable {m : RbMem} {up : Path ℕ} {s s' : Side} {cg : Color} {g p : ℕ} {u sib t : RbTree ℕ}

/-- The state of a round: `p` is a red node below `g`, and `t` is below `p`. -/
structure FixState (m : RbMem) (up : Path ℕ) (s s' : Side) (cg : Color) (g p : ℕ)
    (u sib t : RbTree ℕ) : Prop where
  above : HoldsPath m up g
  gnode : IsNode g
  gcell : m.nodes g = cell s' (pcWord up.ptr cg) p u.ptr
  uncle : Holds m g u
  pnode : IsNode p
  pcell : m.nodes p = cell s (pcWord g .red) t.ptr sib.ptr
  beside : Holds m p sib
  below : Holds m p t
  nodup : (t.toList ++ p :: (sib.toList ++ g :: (u.toList ++ up.nodes))).Nodup

theorem FixState.of_path (hp : HoldsPath m (.step s .red p sib (.step s' cg g u up)) t.ptr)
    (ht : Holds m p t)
    (hnd : (t.toList ++ (Path.step s .red p sib (.step s' cg g u up)).nodes).Nodup) :
    FixState m up s s' cg g p u sib t := by
  obtain ⟨hP, hpc, hs, hG, hgc, hu, hup⟩ := hp
  exact ⟨hup, hG, hgc, hu, hP, hpc, hs, ht, hnd⟩

/-- **Case 1**: the uncle is red, and the next round is at `g`. -/
theorem FixState.case1 (h : FixState m up s s' cg g p u sib t) (hred : u.color = .red) (node : ℕ) :
    ∃ m', m.insertFixSide s' node p g = some (m', some (g, up.ptr)) ∧ HoldsPath m' up g ∧
      Holds m' up.ptr (RbTree.mk s' .red (RbTree.mk s .black t p sib) g (paint .black u)) := by
  have hnd := h.nodup
  have hne : u ≠ .nil := by
    rintro rfl
    cases hred
  have hgu : g ∉ u.toList := by grind
  have hpu : p ∉ u.toList := by grind
  have hgp : g ≠ p := by grind
  let m₁ := m.adopted u g .black
  let m₂ := m₁.put p (cell s (pcWord g .black) t.ptr sib.ptr)
  let m₃ := m₂.put g (cell s' (pcWord up.ptr .red) p u.ptr)
  have hp₁ : m₁.nodes p = cell s (pcWord g .red) t.ptr sib.ptr := by
    rw [RbMem.adopted_of_notMem hpu, h.pcell]
  have hg₂ : m₂.nodes g = cell s' (pcWord up.ptr cg) p u.ptr := by
    rw [RbMem.put_of_ne hgp, RbMem.adopted_of_notMem hgu, h.gcell]
  have h₁ : m.rbSetParentColor u.ptr g rbBlack = some m₁ :=
    RbMem.rbSetParentColor_ptr (c := .black) h.uncle hne
  have h₂ : m₁.rbSetParentColor p g rbBlack = some m₂ :=
    RbMem.rbSetParentColor_eq (c := .black) h.pnode hp₁
  have h₃ : m₂.rbSetParentColor g up.ptr rbRed = some m₃ :=
    RbMem.rbSetParentColor_eq (c := .red) h.gnode hg₂
  refine ⟨m₃, ?_, ?_, ?_⟩
  · have hisRed : m.isRed u.ptr = true := (RbMem.isRed_ptr h.uncle h.gnode.aligned).mpr hred
    simp only [RbMem.insertFixSide, Option.bind_eq_bind, RbMem.get_eq h.gnode, Option.bind_some,
      h.gcell, cell_child_flip, hisRed, if_true, h₁, h₂, hg₂, cell_parentColor,
      pcParent_pcWord h.above.aligned, h₃]
  · refine ((h.above.adopted_frame ?_).put ?_).put ?_
    all_goals grind
  · rw [holds_mk, holds_mk, ptr_mk]
    refine ⟨h.gnode, ?_, ⟨h.pnode, ?_, ?_, ?_⟩, ?_⟩
    · rw [RbMem.put_self, ptr_paint]
    · rw [RbMem.put_of_ne hgp.symm, RbMem.put_self]
    · refine ((h.below.adopted_frame ?_).put ?_).put ?_
      all_goals grind
    · refine ((h.beside.adopted_frame ?_).put ?_).put ?_
      all_goals grind
    · refine ((h.uncle.adopted ?_).put ?_).put ?_
      all_goals grind [toList_paint]

/-- A rotation at `g`: `p` goes up, and the tree `b` between the two changes its parent. -/
theorem insertRotate_spec {x b : RbTree ℕ} {w q : ℕ} (hup : HoldsPath m up g) (hG : IsNode g)
    (hg : m.nodes g = cell s (pcWord up.ptr cg) q u.ptr) (hu : Holds m g u) (hP : IsNode p)
    (hp : m.nodes p = cell s w x.ptr b.ptr) (hx : Holds m p x) (hb : Holds m p b)
    (hblack : b.color = .black)
    (hnd : (x.toList ++ p :: (b.toList ++ g :: (u.toList ++ up.nodes))).Nodup) :
    ∃ m', m.insertRotate s p g b.ptr = some m' ∧ HoldsPath m' up p ∧
      Holds m' up.ptr (mk s cg x p (mk s .red b g u)) := by
  have hgb : g ∉ b.toList := by grind
  have hpb : p ∉ b.toList := by grind
  have hpg : p ≠ g := by grind
  have hpu : p ∉ up.nodes := by grind
  have hgup : g ∉ up.nodes := by grind
  let m₁ := m.put g (cell s (pcWord up.ptr cg) b.ptr u.ptr)
  let m₂ := m₁.adopted b g .black
  let m₃ := m₂.put p (cell s w x.ptr g)
  have hb₁ : Holds m₁ p b := hb.put hgb
  have hp₂ : m₂.nodes p = cell s w x.ptr b.ptr := by
    rw [RbMem.adopted_of_notMem hpb, RbMem.put_of_ne hpg, hp]
  have hg₃ : m₃.nodes g = cell s (pcWord up.ptr cg) b.ptr u.ptr := by
    rw [RbMem.put_of_ne hpg.symm, RbMem.adopted_of_notMem hgb, RbMem.put_self]
  have hup₃ : HoldsPath m₃ up g := by
    refine ((hup.put hgup).adopted_frame ?_).put hpu
    grind
  obtain ⟨m', hrot, hup', hg', hp', hframe⟩ := rbRotateSetParents_spec hup₃ (by grind) hG hP hpg
    hgup hpu hg₃ RbMem.put_self .red
  refine ⟨m', ?_, hup', ?_⟩
  · have h₁ : m.setChild s g b.ptr = some m₁ := RbMem.setChild_eq hG hg
    have h₂ : m₁.adopt b.ptr g rbBlack = some m₂ := RbMem.adopt_eq (c := .black) hb₁
    have h₃ : m₂.setChild s.flip p g = some m₃ := RbMem.setChild_flip_eq hP hp₂
    have h₄ : m₃.rbRotateSetParents g p rbRed = some m' := hrot
    simp only [RbMem.insertRotate, Option.bind_eq_bind, Option.bind_some, h₁, h₂, h₃, h₄]
  · -- the subtrees are as they were, with `b` below `g`
    have hkeep : ∀ t' : RbTree ℕ, (∀ a ∈ t'.toList, a ∉ up.nodes ∧ a ≠ g ∧ a ≠ p) → ∀ q',
        Holds m₂ q' t' → Holds m' q' t' := by
      intro t' hd q' h
      refine h.congr fun a ha => ?_
      obtain ⟨h1, h2, h3⟩ := hd a ha
      rw [hframe a h1 h2 h3, RbMem.put_of_ne h3]
    have hb₂ : Holds m₂ g b := hb₁.adopted_color (by grind) hblack
    rw [holds_mk, holds_mk, ptr_mk]
    refine ⟨hP, hp', hkeep x (by grind) p ?_, hG, hg', hkeep b (by grind) g hb₂,
      hkeep u (by grind) g ?_⟩
    · refine (hx.put ?_).adopted_frame ?_
      all_goals grind
    · refine (hu.put ?_).adopted_frame ?_
      all_goals grind

theorem ptr_ne_ptr {x y : RbTree ℕ} (hx : Holds m p x) (hne : x ≠ .nil)
    (hd : ∀ a ∈ x.toList, a ∉ y.toList) : x.ptr ≠ y.ptr := by
  intro heq
  cases x with
  | nil => exact hne rfl
  | node c l a r =>
      have ha : y.ptr ≠ 0 := heq ▸ hx.1.ne
      exact hd a (by simp) (by simpa [← heq] using ptr_mem ha)

/-- **Case 3**: the node is the outer child. -/
theorem FixState.case3 (h : FixState m up s s cg g p u sib t) (ht : t ≠ .nil)
    (hu : u.color = .black) (hs : sib.color = .black) :
    ∃ m', m.insertFixSide s t.ptr p g = some (m', none) ∧ HoldsPath m' up p ∧
      Holds m' up.ptr (RbTree.mk s cg t p (RbTree.mk s .red sib g u)) := by
  have hnd := h.nodup
  obtain ⟨m', hrot, hup, hm'⟩ := insertRotate_spec h.above h.gnode h.gcell h.uncle h.pnode h.pcell
    h.below h.beside hs hnd
  refine ⟨m', ?_, hup, hm'⟩
  have hisRed : m.isRed u.ptr = false := by
    rw [Bool.eq_false_iff, Ne, RbMem.isRed_ptr h.uncle h.gnode.aligned, hu]
    simp
  have hne : t.ptr ≠ sib.ptr := ptr_ne_ptr h.below ht (by grind)
  simp only [RbMem.insertFixSide, Option.bind_eq_bind, RbMem.get_eq h.gnode, Option.bind_some,
    h.gcell, cell_child_flip, hisRed, Bool.false_eq_true, if_false, RbMem.get_eq h.pnode, h.pcell,
    hne, hrot]

/-- The node `a` goes up over its parent `p`, to which it is the inner child. -/
theorem insertInner_spec {a w : ℕ} {l r : RbTree ℕ} {c : Color} (hA : IsNode a)
    (ha : m.nodes a = cell s (pcWord p c) l.ptr r.ptr) (hl : Holds m a l) (hP : IsNode p)
    (hp : m.nodes p = cell s w sib.ptr a) (hs : Holds m p sib) (hblack : l.color = .black)
    (hnd : (a :: p :: (l.toList ++ sib.toList)).Nodup) :
    ∃ m', m.insertInner s a p = some m' ∧ m'.nodes a = cell s (pcWord p c) p r.ptr ∧
      Holds m' a (mk s .red sib p l) ∧ m'.root = m.root ∧
      ∀ b, b ∉ l.toList → b ≠ a → b ≠ p → m'.nodes b = m.nodes b := by
  have hpl : p ∉ l.toList := by grind
  have hal : a ∉ l.toList := by grind
  have hap : a ≠ p := by grind
  let m₁ := m.put p (cell s w sib.ptr l.ptr)
  let m₂ := m₁.adopted l p .black
  let m₃ := m₂.put a (cell s (pcWord p c) p r.ptr)
  let m₄ := m₃.put p (cell s (pcWord a .red) sib.ptr l.ptr)
  have hl₁ : Holds m₁ a l := hl.put hpl
  have ha₂ : m₂.nodes a = cell s (pcWord p c) l.ptr r.ptr := by
    rw [RbMem.adopted_of_notMem hal, RbMem.put_of_ne hap, ha]
  have hp₃ : m₃.nodes p = cell s w sib.ptr l.ptr := by
    rw [RbMem.put_of_ne hap.symm, RbMem.adopted_of_notMem hpl, RbMem.put_self]
  have hl₂ : Holds m₂ p l := hl₁.adopted_color (by grind) hblack
  refine ⟨m₄, ?_, ?_, ?_, ?_, ?_⟩
  · have h₁ : m.setChild s.flip p l.ptr = some m₁ := RbMem.setChild_flip_eq hP hp
    have h₂ : m₁.adopt l.ptr p rbBlack = some m₂ := RbMem.adopt_eq (c := .black) hl₁
    have h₃ : m₂.setChild s a p = some m₃ := RbMem.setChild_eq hA ha₂
    have h₄ : m₃.rbSetParentColor p a rbRed = some m₄ :=
      RbMem.rbSetParentColor_eq (c := .red) hP hp₃
    simp only [RbMem.insertInner, Option.bind_eq_bind, RbMem.get_eq hA, Option.bind_some, ha,
      cell_child, h₁, h₂, h₃, h₄]
  · rw [RbMem.put_of_ne hap, RbMem.put_self]
  · rw [holds_mk]
    refine ⟨hP, RbMem.put_self, ?_, (hl₂.put hal).put hpl⟩
    refine (((hs.put ?_).adopted_frame ?_).put ?_).put ?_
    all_goals grind
  · rw [RbMem.put_root, RbMem.put_root, RbMem.adopted_root, RbMem.put_root]
  · intro b hb hba hbp
    rw [RbMem.put_of_ne hbp, RbMem.put_of_ne hba, RbMem.adopted_of_notMem hb,
      RbMem.put_of_ne hbp]

/-- **Case 2**: the node is the inner child, and goes up twice. -/
theorem FixState.case2 {a : ℕ} {l r : RbTree ℕ} {c : Color}
    (h : FixState m up s.flip s cg g p u sib (RbTree.mk s c l a r)) (hu : u.color = .black)
    (hl : l.color = .black) (hr : r.color = .black) :
    ∃ m', m.insertFixSide s a p g = some (m', none) ∧ HoldsPath m' up a ∧
      Holds m' up.ptr (RbTree.mk s cg (RbTree.mk s .red sib p l) a (RbTree.mk s .red r g u)) := by
  obtain ⟨hA, ha, hlm, hrm⟩ := holds_mk.mp h.below
  have hp : m.nodes p = cell s (pcWord g .red) sib.ptr a := by
    rw [h.pcell, cell_flip, ptr_mk]
  have hnd : (a :: (l.toList ++ r.toList) ++ p :: (sib.toList ++ g :: (u.toList ++ up.nodes))).Nodup :=
    (toList_mk_perm.append_right _).nodup_iff.mp h.nodup
  have hnd₁ : (a :: p :: (l.toList ++ sib.toList)).Nodup := by
    refine nodup_of_count_le hnd fun b => ?_
    simp only [List.count_append, List.count_cons]
    omega
  have hnd₂ : ((RbTree.mk s .red sib p l).toList ++
      a :: (r.toList ++ g :: (u.toList ++ up.nodes))).Nodup := by
    rw [(toList_mk_perm.append_right _).nodup_iff]
    refine nodup_of_count_le hnd fun b => ?_
    simp only [List.count_append, List.count_cons]
    omega
  obtain ⟨m₁, hinner, ha₁, hx, hroot, hframe⟩ :=
    insertInner_spec hA ha hlm h.pnode hp h.beside hl hnd₁
  -- everything else is where it was
  have hkeep : ∀ b ∈ r.toList ++ g :: (u.toList ++ up.nodes), m₁.nodes b = m.nodes b := by
    have hout : ∀ b ∈ r.toList ++ g :: (u.toList ++ up.nodes), b ∉ l.toList ∧ b ≠ a ∧ b ≠ p := by
      clear * - hnd
      grind
    exact fun b hb => hframe b (hout b hb).1 (hout b hb).2.1 (hout b hb).2.2
  have hup₁ : HoldsPath m₁ up g := h.above.congr hroot fun b hb => hkeep b (by simp [hb])
  have hg₁ : m₁.nodes g = cell s (pcWord up.ptr cg) p u.ptr := by
    rw [hkeep g (by simp), h.gcell]
  have hu₁ : Holds m₁ g u := h.uncle.congr fun b hb => hkeep b (by simp [hb])
  have hr₁ : Holds m₁ a r := hrm.congr fun b hb => hkeep b (by simp [hb])
  obtain ⟨m', hrot, hup, hm'⟩ := insertRotate_spec hup₁ h.gnode hg₁ hu₁ hA
    (by rw [ha₁, ptr_mk]) hx hr₁ hr hnd₂
  refine ⟨m', ?_, hup, hm'⟩
  have hisRed : m.isRed u.ptr = false := by
    rw [Bool.eq_false_iff, Ne, RbMem.isRed_ptr h.uncle h.gnode.aligned, hu]
    simp
  simp only [RbMem.insertFixSide, Option.bind_eq_bind, RbMem.get_eq h.gnode, Option.bind_some,
    h.gcell, cell_child_flip, hisRed, Bool.false_eq_true, if_false, RbMem.get_eq h.pnode, hp,
    if_true, hinner, RbMem.get_eq hA, ha₁, hrot]

/-- The comparison with `rb_right` tells the side of the parent. -/
theorem FixState.side (h : FixState m up s s' cg g p u sib t) :
    (if p ≠ (m.nodes g).right then Side.left else Side.right) = s' := by
  rw [h.gcell]
  cases s' with
  | left =>
      have hne : p ≠ u.ptr := by
        intro heq
        have hmem : p ∈ u.toList := heq ▸ ptr_mem (heq ▸ h.pnode.ne)
        have hnd := h.nodup
        clear * - hnd hmem
        grind
      exact if_pos hne
  | right => exact if_neg (not_not.mpr rfl)

/-- A round of the loop is a call of the body on the side of the parent. -/
theorem FixState.round (h : FixState m up s s' cg g p u sib t) (fuel node : ℕ) :
    insertFixLoop (fuel + 1) node p m = (m.insertFixSide s' node p g).bind fun r =>
      r.2.elim (some r.1) fun next => insertFixLoop fuel next.1 next.2 r.1 := by
  have hred : pcColor g ≠ rbBlack := by
    rw [← pcWord_red (p := g), pcColor_pcWord h.gnode.aligned]
    simp [Color.bit, rbRed, rbBlack]
  rw [insertFixLoop, if_neg h.pnode.ne]
  simp only [Option.bind_eq_bind, RbMem.get_eq h.pnode, Option.bind_some, h.pcell, cell_parentColor,
    pcWord_red, if_neg hred, RbMem.get_eq h.gnode, h.side]
  refine Option.bind_congr fun r _ => ?_
  rcases r with ⟨m, _ | next⟩ <;> rfl

end Round

/-! ## The loop -/

/-- **The loop of `__rb_insert_fix` repairs the tree.** -/
theorem insertFixLoop_spec {m : RbMem} {path : Path ℕ} {t : RbTree ℕ} {n fuel : ℕ}
    (hp : HoldsPath m path t.ptr) (ht : Holds m path.ptr t) (hnd : (t.toList ++ path.nodes).Nodup)
    (hpb : path.Balanced .black n) (htb : t.Balanced .red n) (hfuel : path.nodes.length < fuel) :
    ∃ m', insertFixLoop fuel t.ptr path.ptr m = some m' ∧ HoldsTree m' (insFix path t) := by
  have htnil : t ≠ .nil := by
    rintro rfl
    cases htb
  cases fuel with
  | zero => cases hfuel
  | succ fuel =>
  fun_induction insFix path t generalizing m n fuel with
  | case1 t =>
      refine ⟨{ m.adopted t 0 .black with root := t.ptr }, ?_, ptr_paint.symm, ?_⟩
      · have h₁ : m.rbSetParentColor t.ptr 0 rbBlack = some (m.adopted t 0 .black) :=
          RbMem.rbSetParentColor_ptr (c := .black) ht htnil
        rw [insertFixLoop, Path.ptr_root, if_pos rfl, h₁]
        rfl
      · have hnd' : t.toList.Nodup := by simpa [Path.nodes] using hnd
        exact (ht.adopted hnd').congr fun _ _ => rfl
  | case2 s p sib up t =>
      refine ⟨m, ?_, ?_⟩
      · obtain ⟨hP, hpc, -, hup⟩ := hp
        rw [insertFixLoop, Path.ptr_step, if_neg hP.ne, RbMem.get_eq hP, Option.bind_eq_bind,
          Option.bind_some, hpc, cell_parentColor, pcColor_pcWord hup.aligned]
        exact if_pos rfl
      · change HoldsTree m ((Path.step s .black p sib up).fill t)
        exact holds_fill.mpr ⟨hp, ht⟩
  | case3 s p sib t =>
      cases hpb with
      | red hs hup => cases hup
  | case4 s p sib s' cg g uncle up t hred ih =>
      have hfix := FixState.of_path hp ht hnd
      obtain ⟨m', hside, hup, hm'⟩ := hfix.case1 hred t.ptr
      cases hpb with
      | red hs hupb =>
          cases hupb with
          | @black _ _ _ _ _ d _ hu hupb =>
              obtain rfl : d = .red := hu.color_eq.symm.trans hred
              cases fuel with
              | zero => simp [Path.nodes] at hfuel
              | succ fuel =>
                  have hnd' : ((mk s' .red (mk s .black t p sib) g (paint .black uncle)).toList ++
                      up.nodes).Nodup := by
                    refine nodup_of_count_le hnd fun b => ?_
                    simp only [Path.nodes, List.count_append, count_mk, toList_paint,
                      List.count_cons]
                    omega
                  obtain ⟨m'', hloop, hm''⟩ := ih (by rwa [ptr_mk]) hm' hnd' hupb
                    (.mk_red (.mk_black htb hs) hu.paint_black) mk_ne_nil fuel (by
                      simp only [Path.nodes, List.length_cons, List.length_append] at hfuel
                      omega)
                  refine ⟨m'', ?_, hm''⟩
                  rw [Path.ptr_step, hfix.round, hside]
                  simpa using hloop
  | case5 p sib s' cg g uncle up t hblack =>
      have hfix := FixState.of_path hp ht hnd
      cases hpb with
      | red hs hupb =>
          obtain ⟨m', hside, hup, hm'⟩ := hfix.case3 htnil (color_of_ne hblack) hs.color_eq
          refine ⟨m', ?_, holds_fill.mpr ⟨by rwa [ptr_mk], hm'⟩⟩
          rw [Path.ptr_step, hfix.round, hside]
          rfl
  | case6 s p sib s' cg g uncle up hblack hs => exact absurd rfl htnil
  | case7 s p sib s' cg g uncle up hblack hs c l a r =>
      obtain rfl := Side.eq_flip hs
      rw [← mk_pick s'] at hp ht hnd
      have hfix := FixState.of_path hp ht hnd
      cases htb with
      | red hl hr =>
          obtain ⟨m', hside, hup, hm'⟩ := hfix.case2 (color_of_ne hblack)
            (Balanced.pick hl hr).color_eq (Balanced.pick hl hr).color_eq
          refine ⟨m', ?_, holds_fill.mpr ⟨by rwa [ptr_mk], hm'⟩⟩
          rw [Path.ptr_step, hfix.round, ptr_node, hside]
          rfl

/-! ## The search -/

/-- **A red-black tree in memory**, in the order of `cmp`. -/
structure IsRbTree (cmp : ℕ → ℕ → Bool) (m : RbMem) (t : RbTree ℕ) : Prop where
  holds : HoldsTree m t
  sorted : t.toList.Pairwise fun a b => cmp a b = true
  balanced : ∃ n, t.Balanced .black n

/-- The hole is between the nodes before `a` and those after it. -/
def Between (cmp : ℕ → ℕ → Bool) (a : ℕ) (path : Path ℕ) : Prop :=
  (∀ b ∈ path.before, cmp b a = true) ∧ ∀ b ∈ path.after, cmp a b = true

section Search

variable {cmp : ℕ → ℕ → Bool} [IsStrictWeakOrder ℕ fun a b => cmp a b = true] {m : RbMem}
  {node : ℕ}

theorem cmp_trans {a b c : ℕ} (hab : cmp a b = true) (hbc : cmp b c = true) : cmp a c = true :=
  trans_of (fun a b => cmp a b = true) hab hbc

theorem IsRbTree.nodup {t : RbTree ℕ} (h : IsRbTree cmp m t) : t.toList.Nodup := by
  refine h.sorted.imp ?_
  rintro a b hab rfl
  exact irrefl_of (fun a b => cmp a b = true) a hab

/-- Going to one side. -/
theorem Between.step {path : Path ℕ} {c : Color} {x y : RbTree ℕ} {a : ℕ} {s : Side}
    (h : Between cmp node path)
    (hsort : (path.fill (mk s c x a y)).toList.Pairwise fun a b => cmp a b = true)
    (ha : s.pick (cmp node a) (cmp a node) = true) : Between cmp node (.step s c a y path) := by
  cases s with
  | left =>
      rw [Path.toList_fill, mk, toList_node, List.pairwise_append, List.pairwise_append,
        List.pairwise_append, List.pairwise_cons] at hsort
      refine ⟨h.1, ?_⟩
      intro b hb
      simp only [Path.after, List.cons_append, List.mem_cons, List.mem_append] at hb
      rcases hb with rfl | hb | hb
      · exact ha
      · exact cmp_trans ha (hsort.2.1.1.2.1.1 b hb)
      · exact h.2 b hb
  | right =>
      rw [Path.toList_fill, mk, toList_node, List.pairwise_append, List.pairwise_append,
        List.pairwise_append] at hsort
      refine ⟨?_, h.2⟩
      intro b hb
      simp only [Path.before, List.mem_append, List.mem_singleton] at hb
      rcases hb with hb | hb | rfl
      · exact h.1 b hb
      · exact cmp_trans (hsort.2.1.1.2.2 b hb a (by simp)) ha
      · exact ha

omit [IsStrictWeakOrder ℕ fun a b => cmp a b = true] in
/-- The node is linked into a hole. -/
theorem link_spec {path : Path ℕ} {s : Side} {c : Color} {a q : ℕ} {sib : RbTree ℕ}
    (hp : HoldsPath m (.step s c a sib path) q) (hN : IsNode node)
    (hnd : (node :: (Path.step s c a sib path).nodes).Nodup) (hzero : m.nodes node = ⟨0, 0, 0⟩) :
    ∃ m₁ m₂, m.setChild s a node = some m₁ ∧
      (m₁.modify node fun n => { n with parentColor := a }) = some m₂ ∧
      HoldsPath m₂ (.step s c a sib path) node ∧ Holds m₂ a (.node .red .nil node .nil) := by
  obtain ⟨hA, hcell, hs, hup⟩ := hp
  simp only [Path.nodes, List.nodup_cons, List.mem_cons, List.mem_append, not_or] at hnd
  obtain ⟨⟨hna, hns, hnup⟩, ⟨has, haup⟩, -⟩ := hnd
  refine ⟨_, _, RbMem.setChild_eq hA hcell, RbMem.modify_eq hN _, ⟨hA, ?_, ?_, ?_⟩, hN, ?_, trivial,
    trivial⟩
  · rw [RbMem.put_of_ne (Ne.symm hna), RbMem.put_self]
  · exact (hs.put has).put hns
  · exact (hup.put haup).put hnup
  · rw [RbMem.put_self, RbMem.put_of_ne hna, hzero, pcWord_red]
    rfl

/-- The side that the search takes at the node `a`. -/
def Descends (cmp : ℕ → ℕ → Bool) (node a : ℕ) : Side → Prop
  | .left => cmp node a = true
  | .right => cmp node a = false ∧ cmp a node = true

omit [IsStrictWeakOrder ℕ fun a b => cmp a b = true] in
theorem Descends.pick {a : ℕ} {s : Side} (h : Descends cmp node a s) :
    s.pick (cmp node a) (cmp a node) = true := by
  cases s
  · exact h
  · exact h.2

omit [IsStrictWeakOrder ℕ fun a b => cmp a b = true] in
/-- A round of the search. -/
theorem insertLoop_round {a : ℕ} {s : Side} (hA : IsNode a) (h : Descends cmp node a s) (fuel : ℕ) :
    insertLoop cmp node (fuel + 1) a m =
      if (m.nodes a).child s = 0 then
        (m.setChild s a node).bind fun m =>
          (m.modify node fun n => { n with parentColor := a }).bind (insertLoop cmp node fuel 0)
      else insertLoop cmp node fuel ((m.nodes a).child s) m := by
  rw [insertLoop, if_neg hA.ne]
  cases s with
  | left =>
      have hc : cmp node a = true := h
      by_cases h0 : (m.nodes a).left = 0 <;> simp [hc, RbMem.get_eq hA, RbNode.child, h0]
  | right =>
      by_cases h0 : (m.nodes a).right = 0 <;>
        simp [h.1, h.2, RbMem.get_eq hA, RbNode.child, h0]

/-- What the search has found when it ends below `t`. -/
def SearchResult (cmp : ℕ → ℕ → Bool) (node : ℕ) (m : RbMem) (t : RbTree ℕ) (path : Path ℕ)
    (r : Option (Bool × RbMem)) : Prop :=
  (∃ x ∈ t.toList, cmp node x = false ∧ cmp x node = false ∧ r = some (true, m)) ∨
  ∃ path' m', r = some (false, m') ∧ path'.fill .nil = path.fill t ∧ HoldsPath m' path' node ∧
    Holds m' path'.ptr (.node .red .nil node .nil) ∧ Between cmp node path'

/-- The search goes on with the subtree `x` on the side `s`. -/
theorem insertLoop_side {path : Path ℕ} {fuel a : ℕ} {s : Side} {c : Color} {x y : RbTree ℕ}
    (hp : HoldsPath m path a) (ht : Holds m path.ptr (mk s c x a y))
    (hnd : (node :: ((mk s c x a y).toList ++ path.nodes)).Nodup) (hN : IsNode node)
    (hzero : m.nodes node = ⟨0, 0, 0⟩)
    (hsort : (path.fill (mk s c x a y)).toList.Pairwise fun a b => cmp a b = true)
    (hbet : Between cmp node path) (hdesc : Descends cmp node a s)
    (ih : x ≠ .nil → HoldsPath m (.step s c a y path) x.ptr →
      (node :: (x.toList ++ (Path.step s c a y path).nodes)).Nodup →
      Between cmp node (.step s c a y path) →
      SearchResult cmp node m x (.step s c a y path) (insertLoop cmp node (fuel + 1) x.ptr m)) :
    SearchResult cmp node m (mk s c x a y) path (insertLoop cmp node (fuel + 2) a m) := by
  obtain ⟨hA, hcell, hx, hy⟩ := holds_mk.mp ht
  have hpath : HoldsPath m (.step s c a y path) x.ptr := ⟨hA, hcell, hy, hp⟩
  have hbet' := hbet.step hsort hdesc.pick
  have hnd' : (node :: (x.toList ++ (Path.step s c a y path).nodes)).Nodup := by
    refine nodup_of_count_le hnd fun b => ?_
    simp only [Path.nodes, List.count_cons, List.count_append, count_mk]
    omega
  rw [insertLoop_round hA hdesc, hcell, cell_child]
  by_cases hnil : x = .nil
  · subst hnil
    obtain ⟨m₁, m₂, h₁, h₂, hp', ht'⟩ := link_spec hpath hN hnd' hzero
    refine .inr ⟨.step s c a y path, m₂, ?_, rfl, hp', ht', hbet'⟩
    rw [ptr_nil, if_pos rfl, h₁, Option.bind_some, h₂, Option.bind_some]
    rfl
  · have hne : x.ptr ≠ 0 := by
      cases x with
      | nil => exact absurd rfl hnil
      | node d l b r => exact hx.1.ne
    rw [if_neg hne]
    rcases ih hnil hpath hnd' hbet' with ⟨b, hb, hres⟩ | ⟨path', m', hr, hfill, hres⟩
    · exact .inl ⟨b, toList_mk_perm.mem_iff.mpr (by simp [hb]), hres⟩
    · exact .inr ⟨path', m', hr, hfill, hres⟩

/-- **The search of `_rb_insert`** ends at an equivalent node, or in a hole. -/
theorem insertLoop_spec {t : RbTree ℕ} {path : Path ℕ} {fuel : ℕ} (hp : HoldsPath m path t.ptr)
    (ht : Holds m path.ptr t) (hne : t ≠ .nil) (hnd : (node :: (t.toList ++ path.nodes)).Nodup)
    (hN : IsNode node) (hzero : m.nodes node = ⟨0, 0, 0⟩)
    (hsort : (path.fill t).toList.Pairwise fun a b => cmp a b = true)
    (hbet : Between cmp node path) (hfuel : t.toList.length ≤ fuel) :
    SearchResult cmp node m t path (insertLoop cmp node (fuel + 1) t.ptr m) := by
  induction t generalizing path fuel with
  | nil => exact absurd rfl hne
  | node c l a r ihl ihr =>
      simp only [toList_node, List.length_append, List.length_cons] at hfuel
      cases fuel with
      | zero => omega
      | succ fuel =>
      cases hca : cmp node a with
      | true =>
          refine insertLoop_side (s := .left) hp ht hnd hN hzero hsort hbet hca ?_
          intro hlnil hp' hnd' hbet'
          exact ihl hp' ht.2.2.1 hlnil hnd' hsort hbet' (by omega)
      | false =>
          cases hac : cmp a node with
          | true =>
              refine insertLoop_side (s := .right) hp ht hnd hN hzero hsort hbet ⟨hca, hac⟩ ?_
              intro hrnil hp' hnd' hbet'
              exact ihr hp' ht.2.2.2 hrnil hnd' hsort hbet' (by omega)
          | false =>
              refine .inl ⟨a, by simp, hca, hac, ?_⟩
              rw [insertLoop, ptr_node, if_neg ht.1.ne]
              simp [hca, hac]

/-! ## Lookup -/

/-- **`_rb_lookup`** finds an equivalent node if there is one. -/
theorem rbLookup_spec {t : RbTree ℕ} {p fuel : ℕ} (ht : Holds m p t)
    (hsort : t.toList.Pairwise fun a b => cmp a b = true) (q : ℕ) (hfuel : t.toList.length < fuel) :
    ∃ r, rbLookup cmp q fuel t.ptr m = some r ∧
      ((r ∈ t.toList ∧ cmp q r = false ∧ cmp r q = false) ∨
        (r = 0 ∧ ∀ x ∈ t.toList, cmp q x = true ∨ cmp x q = true)) := by
  induction t generalizing p fuel with
  | nil =>
      cases fuel with
      | zero => cases hfuel
      | succ fuel => exact ⟨0, rfl, .inr ⟨rfl, by simp⟩⟩
  | node c l a r ihl ihr =>
      obtain ⟨hA, hcell, hl, hr⟩ := ht
      have hleft : (m.nodes a).left = l.ptr := by rw [hcell]; rfl
      have hright : (m.nodes a).right = r.ptr := by rw [hcell]; rfl
      rw [toList_node, List.pairwise_append, List.pairwise_cons] at hsort
      obtain ⟨hsl, ⟨har, hsr⟩, hlr⟩ := hsort
      simp only [toList_node, List.length_append, List.length_cons] at hfuel
      cases fuel with
      | zero => cases hfuel
      | succ fuel =>
      rw [rbLookup, ptr_node, if_neg hA.ne]
      cases hqa : cmp q a with
      | true =>
          obtain ⟨x, hx, hres⟩ := ihl hl hsl (by omega : l.toList.length < fuel)
          refine ⟨x, by simpa [RbMem.get_eq hA, hleft] using hx, ?_⟩
          rcases hres with ⟨hmem, heq⟩ | ⟨h0, hall⟩
          · exact .inl ⟨by simp [hmem], heq⟩
          · refine .inr ⟨h0, ?_⟩
            intro y hy
            simp only [toList_node, List.mem_append, List.mem_cons] at hy
            rcases hy with hy | rfl | hy
            · exact hall y hy
            · exact .inl hqa
            · exact .inl (cmp_trans hqa (har y hy))
      | false =>
          cases haq : cmp a q with
          | true =>
              obtain ⟨x, hx, hres⟩ := ihr hr hsr (by omega : r.toList.length < fuel)
              refine ⟨x, by simpa [RbMem.get_eq hA, hright] using hx, ?_⟩
              rcases hres with ⟨hmem, heq⟩ | ⟨h0, hall⟩
              · exact .inl ⟨by simp [hmem], heq⟩
              · refine .inr ⟨h0, ?_⟩
                intro y hy
                simp only [toList_node, List.mem_append, List.mem_cons] at hy
                rcases hy with hy | rfl | hy
                · exact .inr (cmp_trans (hlr y hy a (by simp)) haq)
                · exact .inr haq
                · exact hall y hy
          | false => exact ⟨a, by simp, .inl ⟨by simp, hqa, haq⟩⟩

omit [IsStrictWeakOrder ℕ fun a b => cmp a b = true] in
/-- The loop of `_rb_first` gets to the first node. -/
theorem firstLoop_spec {t : RbTree ℕ} {p fuel : ℕ} (ht : Holds m p t) (hne : t ≠ .nil)
    (hfuel : t.toList.length < fuel) : firstLoop fuel t.ptr m = t.toList.head? := by
  induction t generalizing p fuel with
  | nil => exact absurd rfl hne
  | node c l a r ihl ihr =>
      obtain ⟨hA, hcell, hl, -⟩ := ht
      have hleft : (m.nodes a).left = l.ptr := by rw [hcell]; rfl
      simp only [toList_node, List.length_append, List.length_cons] at hfuel
      cases fuel with
      | zero => cases hfuel
      | succ fuel =>
      rw [firstLoop, ptr_node, RbMem.get_eq hA, Option.bind_eq_bind, Option.bind_some, hleft]
      cases l with
      | nil => rfl
      | node d l' b r' =>
          have hb : (RbTree.node d l' b r').ptr ≠ 0 := hl.1.ne
          dsimp only
          rw [if_neg hb, ihl hl (by simp) (by omega)]
          simp [List.head?_append]

/-- What `_rb_lookup` and `_rb_first` answer. -/
structure Answers (cmp : ℕ → ℕ → Bool) (fuel : ℕ) (m : RbMem) (t : RbTree ℕ) : Prop where
  lookup : ∀ q, ∃ r, rbLookup cmp q fuel m.root m = some r ∧
    ((r ∈ t.toList ∧ cmp q r = false ∧ cmp r q = false) ∨
      (r = 0 ∧ ∀ x ∈ t.toList, cmp q x = true ∨ cmp x q = true))
  first : ∃ r, rbFirst fuel m = some r ∧
    ((r ∈ t.toList ∧ ∀ x ∈ t.toList, x ≠ r → cmp r x = true) ∨ (r = 0 ∧ t.toList = []))

theorem IsRbTree.answers {t : RbTree ℕ} (h : IsRbTree cmp m t) {fuel : ℕ}
    (hfuel : t.toList.length < fuel) : Answers cmp fuel m t where
  lookup := fun q => by
    rw [h.holds.1]
    exact rbLookup_spec h.holds.2 h.sorted q hfuel
  first := by
    cases t with
    | nil =>
        have hroot : m.root = 0 := h.holds.1
        exact ⟨0, by rw [rbFirst, if_pos hroot], .inr ⟨rfl, rfl⟩⟩
    | node c l a r =>
        have hroot : m.root = a := h.holds.1
        have hfirst := firstLoop_spec h.holds.2 (by simp) hfuel
        cases hl : (RbTree.node c l a r).toList with
        | nil => simp at hl
        | cons x xs =>
            rw [hl, List.head?_cons, ptr_node] at hfirst
            refine ⟨x, ?_, .inl ⟨by simp, ?_⟩⟩
            · rw [rbFirst, hroot, if_neg h.holds.2.1.ne, hfirst]
            · intro y hy hne
              have hsort := h.sorted
              rw [hl, List.pairwise_cons] at hsort
              exact hsort.1 y ((List.mem_cons.mp hy).resolve_left hne)

/-! ## Insertion -/

omit [IsStrictWeakOrder ℕ fun a b => cmp a b = true] in
/-- The tree with a node in one of its holes. -/
theorem insert_hole {path : Path ℕ} {t : RbTree ℕ} (ht : IsRbTree cmp m t)
    (hfill : path.fill .nil = t) (hbet : Between cmp node path) :
    (∀ x ∈ t.toList, cmp node x = true ∨ cmp x node = true) ∧
    (insFix path (.node .red .nil node .nil)).toList.Pairwise (fun a b => cmp a b = true) ∧
    (∃ n, (insFix path (.node .red .nil node .nil)).Balanced .black n) ∧
    ∃ l r, t.toList = l ++ r ∧
      (insFix path (.node .red .nil node .nil)).toList = l ++ node :: r := by
  have hold : t.toList = path.before ++ path.after := by
    rw [← hfill, Path.toList_fill, toList_nil, List.nil_append]
  have hnew : (insFix path (.node .red .nil node .nil)).toList =
      path.before ++ node :: path.after := by
    rw [toList_insFix, Path.toList_fill]
    simp
  refine ⟨?_, ?_, ?_, _, _, hold, hnew⟩
  · intro x hx
    rw [hold, List.mem_append] at hx
    rcases hx with hx | hx
    · exact .inr (hbet.1 x hx)
    · exact .inl (hbet.2 x hx)
  · have hsort := ht.sorted
    rw [hold, List.pairwise_append] at hsort
    rw [hnew, List.pairwise_append, List.pairwise_cons]
    refine ⟨hsort.1, ⟨hbet.2, hsort.2.1⟩, ?_⟩
    intro b hb x hx
    rcases List.mem_cons.mp hx with rfl | hx
    · exact hbet.1 b hb
    · exact hsort.2.2 b hb x hx
  · obtain ⟨n, hb⟩ := ht.balanced
    rw [← hfill] at hb
    obtain ⟨c, k, hpath, hnil⟩ := Path.Balanced.of_fill hb
    cases hnil
    exact Balanced.insFix hpath (.red .nil .nil)

/-- What `_rb_insert` returns, and what it does to the tree. -/
def InsertResult (cmp : ℕ → ℕ → Bool) (node : ℕ) (m m' : RbMem) (t t' : RbTree ℕ) (ret : ℤ) :
    Prop :=
  (ret = 0 ∧ (∀ x ∈ t.toList, cmp node x = true ∨ cmp x node = true) ∧
    ∃ l r, t.toList = l ++ r ∧ t'.toList = l ++ node :: r) ∨
  (ret = -1 ∧ (∃ x ∈ t.toList, cmp node x = false ∧ cmp x node = false) ∧ t' = t ∧
    m'.root = m.root ∧ ∀ a ≠ node, m'.nodes a = m.nodes a)

theorem rbInsert_spec {t : RbTree ℕ} {fuel : ℕ} (ht : IsRbTree cmp m t) (hN : IsNode node)
    (hnot : node ∉ t.toList) (hfuel : t.toList.length < fuel) :
    ∃ ret m' t', rbInsert cmp fuel node m = some (ret, m') ∧ IsRbTree cmp m' t' ∧
      InsertResult cmp node m m' t t' ret := by
  let m₀ := m.put node ⟨0, 0, 0⟩
  have hroot : m₀.root = t.ptr := ht.holds.1
  have hm₀ : Holds m₀ 0 t := ht.holds.2.put hnot
  have hstart : rbInsert cmp fuel node m = (insertLoop cmp node fuel t.ptr m₀).bind fun r =>
      if r.1 then some (-1, r.2) else (rbInsertFix fuel node r.2).bind fun m => some (0, m) := by
    rw [rbInsert, RbMem.modify_eq hN, Option.bind_eq_bind, Option.bind_some, ht.holds.1]
    rfl
  -- it is enough to say what the repair leaves
  have hdone : ∀ m₁ m' path, insertLoop cmp node fuel t.ptr m₀ = some (false, m₁) →
      path.fill .nil = t → Between cmp node path → rbInsertFix fuel node m₁ = some m' →
      HoldsTree m' (insFix path (.node .red .nil node .nil)) →
      ∃ ret m' t', rbInsert cmp fuel node m = some (ret, m') ∧ IsRbTree cmp m' t' ∧
        InsertResult cmp node m m' t t' ret := by
    intro m₁ m' path hloop hfill hbet hfix hholds
    obtain ⟨hno, hsort, hbal, l, r, hold, hnew⟩ := insert_hole ht hfill hbet
    refine ⟨0, m', _, ?_, ⟨hholds, hsort, hbal⟩, .inl ⟨rfl, hno, l, r, hold, hnew⟩⟩
    rw [hstart, hloop, Option.bind_some, if_neg (by simp), hfix, Option.bind_some]
  cases fuel with
  | zero => cases hfuel
  | succ fuel =>
  by_cases hnil : t = .nil
  · -- the node is the root
    subst hnil
    let m' : RbMem := { m₀.put node (cell .left (pcWord 0 .black) 0 0) with root := node }
    refine hdone m₀ m' .root rfl rfl ⟨by simp [Path.before], by simp [Path.after]⟩ ?_ ⟨rfl, hN, ?_,
      trivial, trivial⟩
    · have hset : m₀.rbSetParentColor node 0 rbBlack = some (m₀.put node _) :=
        RbMem.rbSetParentColor_eq (s := .left) (c := .black) hN RbMem.put_self
      rw [rbInsertFix, RbMem.get_eq hN, Option.bind_eq_bind, Option.bind_some, RbMem.put_self,
        insertFixLoop, if_pos rfl, hset]
      rfl
    · exact RbMem.put_self
  · have hnd : (node :: (t.toList ++ (Path.root : Path ℕ).nodes)).Nodup := by
      simpa [Path.nodes, hnot] using ht.nodup
    have hloop : SearchResult cmp node m₀ t .root (insertLoop cmp node (fuel + 1) t.ptr m₀) :=
      insertLoop_spec hroot hm₀ hnil hnd hN RbMem.put_self ht.sorted
        ⟨by simp [Path.before], by simp [Path.after]⟩ (by omega)
    rcases hloop with ⟨x, hx, hnx, hxn, hloop⟩ | ⟨path, m₁, hloop, hfill, hpath, hleaf, hbet⟩
    · refine ⟨-1, m₀, t, ?_, ⟨⟨hroot, hm₀⟩, ht.sorted, ht.balanced⟩,
        .inr ⟨rfl, ⟨x, hx, hnx, hxn⟩, rfl, rfl, fun a ha => RbMem.put_of_ne ha⟩⟩
      rw [hstart, hloop, Option.bind_some, if_pos rfl]
    · have hperm : (node :: path.nodes).Perm (node :: t.toList) := by
        have := Path.toList_fill_perm path .nil
        rw [hfill] at this
        exact this.symm.cons node
      obtain ⟨n, hb⟩ := ht.balanced
      rw [← show path.fill .nil = t from hfill] at hb
      obtain ⟨c, k, hpb, hnb⟩ := Path.Balanced.of_fill hb
      cases hnb
      obtain ⟨m', hfix, hm'⟩ := insertFixLoop_spec (n := 0) hpath hleaf
        (hperm.nodup_iff.mpr (List.nodup_cons.mpr ⟨hnot, ht.nodup⟩)) hpb (.red .nil .nil) (by
          have := hperm.length_eq
          simp only [List.length_cons] at this
          omega : path.nodes.length < fuel + 1)
      refine hdone m₁ m' path hloop hfill hbet ?_ hm'
      rw [rbInsertFix, RbMem.get_eq hN, Option.bind_eq_bind, Option.bind_some, hleaf.2.1,
        cell_parentColor, pcWord_red]
      exact hfix

/-- **Insertion into a red-black tree.** -/
theorem rb_insert_correct (cmp : ℕ → ℕ → Bool) [IsStrictWeakOrder ℕ fun a b => cmp a b = true]
    (m : RbMem) (t : RbTree ℕ) (node fuel : ℕ) (ht : IsRbTree cmp m t) (hN : IsNode node)
    (hnot : node ∉ t.toList) (hfuel : t.toList.length + 1 < fuel) :
    ∃ ret m' t', rbInsert cmp fuel node m = some (ret, m') ∧ IsRbTree cmp m' t' ∧
      Answers cmp fuel m' t' ∧ InsertResult cmp node m m' t t' ret := by
  obtain ⟨ret, m', t', hexec, htree, hres⟩ := rbInsert_spec ht hN hnot (by omega : _ < fuel)
  refine ⟨ret, m', t', hexec, htree, htree.answers ?_, hres⟩
  rcases hres with ⟨-, -, l, r, hold, hnew⟩ | ⟨-, -, rfl, -⟩
  · rw [hold, List.length_append] at hfuel
    rw [hnew, List.length_append, List.length_cons]
    omega
  · omega

end Search

/-- A node after the root of a tree with one node. -/
theorem rb_insert_correct_second : ∃ ret m' t',
    rbInsert (fun a b => decide (a < b)) 5 16 ⟨fun _ => cell .left (pcWord 0 .black) 0 0, 8⟩ =
      some (ret, m') ∧ IsRbTree (fun a b => decide (a < b)) m' t' ∧
    Answers (fun a b => decide (a < b)) 5 m' t' ∧
    InsertResult (fun a b => decide (a < b)) 16 ⟨fun _ => cell .left (pcWord 0 .black) 0 0, 8⟩ m'
      (.node .black .nil 8 .nil) t' ret := by
  have : IsStrictWeakOrder ℕ fun a b => decide (a < b) = true := by
    simp only [decide_eq_true_eq]
    exact isStrictWeakOrder_of_isOrderConnected
  apply rb_insert_correct
  · exact ⟨⟨rfl, ⟨by decide, by decide⟩, rfl, trivial, trivial⟩, by simp, 1, .black .nil .nil⟩
  · exact ⟨by decide, by decide⟩
  · simp
  · simp

end OsLab
