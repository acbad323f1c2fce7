import OsLab.Common.RbInsert
import OsLab.Common.RbUnlink

/-!
# Deletion

The rounds of `__rb_erase_fix` do to the memory what `eraseFix` does to the tree, and
`__rb_erase` leaves the tree with a hole that lacks at most one black node.

## Main definitions

* `EraseState` — the memory at the beginning of a round.
* `rb_erase_correct` — what `_rb_erase` does.
-/

namespace OsLab

open RbTree

/-! ## One round of the repair -/

section Round

variable {m : RbMem} {up : Path ℕ} {s : Side} {cp : Color} {p : ℕ} {sib t : RbTree ℕ}

/-- The state of a round: the tree `t` below `p` lacks a black node. -/
structure EraseState (m : RbMem) (up : Path ℕ) (s : Side) (cp : Color) (p : ℕ)
    (sib t : RbTree ℕ) : Prop where
  above : HoldsPath m up p
  pnode : IsNode p
  pcell : m.nodes p = cell s (pcWord up.ptr cp) t.ptr sib.ptr
  beside : Holds m p sib
  below : Holds m p t
  nodup : (t.toList ++ p :: (sib.toList ++ up.nodes)).Nodup

theorem EraseState.of_path (hp : HoldsPath m (.step s cp p sib up) t.ptr) (ht : Holds m p t)
    (hnd : (t.toList ++ (Path.step s cp p sib up).nodes).Nodup) :
    EraseState m up s cp p sib t := by
  obtain ⟨hP, hpc, hs, hup⟩ := hp
  exact ⟨hup, hP, hpc, hs, ht, hnd⟩

/-- **Case 4**: a rotation at `p`; the node `b` goes up. -/
theorem eraseRotate_spec {x y : RbTree ℕ} {b w v q q' : ℕ} (hup : HoldsPath m up p)
    (hP : IsNode p) (hp : m.nodes p = cell s (pcWord up.ptr cp) t.ptr v) (ht : Holds m p t)
    (hB : IsNode b) (hb : m.nodes b = cell s w x.ptr y.ptr) (hx : Holds m q x) (hq : 8 ∣ q)
    (hy : Holds m q' y) (hyne : y ≠ .nil)
    (hnd : (t.toList ++ p :: (x.toList ++ b :: (y.toList ++ up.nodes))).Nodup) :
    ∃ m', m.eraseRotate s p b y.ptr = some m' ∧ HoldsPath m' up b ∧
      Holds m' up.ptr (mk s cp (mk s .black t p x) b (paint .black y)) := by
  have hbp : b ≠ p := by grind
  have hpx : p ∉ x.toList := by grind
  have hbx : b ∉ x.toList := by grind
  have hpy : p ∉ y.toList := by grind
  have hby : b ∉ y.toList := by grind
  have hpup : p ∉ up.nodes := by grind
  have hbup : b ∉ up.nodes := by grind
  let m₁ := m.put p (cell s (pcWord up.ptr cp) t.ptr x.ptr)
  let m₂ := m₁.adopted x p x.color
  let m₃ := m₂.put b (cell s w p y.ptr)
  let m₄ := m₃.adopted y b .black
  have hx₁ : Holds m₁ q x := hx.put hpx
  have hb₂ : m₂.nodes b = cell s w x.ptr y.ptr := by
    rw [RbMem.adopted_of_notMem hbx, RbMem.put_of_ne hbp, hb]
  have hy₃ : Holds m₃ q' y := by
    refine ((hy.put ?_).adopted_frame ?_).put ?_
    all_goals clear * - hnd; grind
  have hp₄ : m₄.nodes p = cell s (pcWord up.ptr cp) t.ptr x.ptr := by
    rw [RbMem.adopted_of_notMem hpy, RbMem.put_of_ne hbp.symm, RbMem.adopted_of_notMem hpx,
      RbMem.put_self]
  have hb₄ : m₄.nodes b = cell s w p y.ptr := by
    rw [RbMem.adopted_of_notMem hby, RbMem.put_self]
  have hup₄ : HoldsPath m₄ up p := by
    refine (((hup.put hpup).adopted_frame ?_).put hbup).adopted_frame ?_
    all_goals clear * - hnd; grind
  obtain ⟨m', hrot, hup', hp', hb', hframe⟩ := rbRotateSetParents_spec hup₄ (by grind) hP hB hbp
    hpup hbup hp₄ hb₄ .black
  refine ⟨m', ?_, hup', ?_⟩
  · have h₁ : m.setChild s.flip p x.ptr = some m₁ := RbMem.setChild_flip_eq hP hp
    have h₂ : m₁.reparent x.ptr p = some m₂ := RbMem.reparent_eq hx₁ hq
    have h₃ : m₂.setChild s b p = some m₃ := RbMem.setChild_eq hB hb₂
    have h₄ : m₃.rbSetParentColor y.ptr b rbBlack = some m₄ :=
      RbMem.rbSetParentColor_ptr (c := .black) hy₃ hyne
    have h₅ : m₄.rbRotateSetParents p b rbBlack = some m' := hrot
    simp only [RbMem.eraseRotate, Option.bind_eq_bind, RbMem.get_eq hB, Option.bind_some, hb,
      cell_child, h₁, h₂, h₃, h₄, h₅]
  · have hkeep : ∀ t' : RbTree ℕ, (∀ a ∈ t'.toList, a ∉ up.nodes ∧ a ≠ p ∧ a ≠ b) → ∀ q',
        Holds m₄ q' t' → Holds m' q' t' := by
      intro t' hd q' h
      refine h.congr fun a ha => ?_
      obtain ⟨h1, h2, h3⟩ := hd a ha
      exact hframe a h1 h2 h3
    have ht₄ : Holds m₄ p t := by
      refine (((ht.put ?_).adopted_frame ?_).put ?_).adopted_frame ?_
      all_goals clear * - hnd; grind
    have hx₄ : Holds m₄ p x := by
      refine ((hx₁.adopted_color ?_ rfl).put ?_).adopted_frame ?_
      all_goals clear * - hnd; grind
    have hy₄ : Holds m₄ b (paint .black y) := hy₃.adopted (by clear * - hnd; grind)
    rw [holds_mk, holds_mk, ptr_mk, ptr_paint]
    refine ⟨hB, hb', ⟨hP, hp', hkeep t ?_ p ht₄, hkeep x ?_ p hx₄⟩, hkeep _ ?_ b hy₄⟩
    · clear * - hnd; grind
    · clear * - hnd; grind
    · rw [toList_paint]
      clear * - hnd; grind

section Black

variable {b : ℕ} {c : Color} {x y : RbTree ℕ}

theorem EraseState.isRed_far (h : EraseState m up s cp p (RbTree.mk s c x b y) t) :
    m.isRed y.ptr = true ↔ y.color = .red := by
  obtain ⟨hB, -, -, hy⟩ := holds_mk.mp h.beside
  exact RbMem.isRed_ptr hy hB.aligned

theorem EraseState.isRed_near (h : EraseState m up s cp p (RbTree.mk s c x b y) t) :
    m.isRed x.ptr = true ↔ x.color = .red := by
  obtain ⟨hB, -, hx, -⟩ := holds_mk.mp h.beside
  exact RbMem.isRed_ptr hx hB.aligned

/-- The far child of the sibling is red. -/
theorem EraseState.far (h : EraseState m up s cp p (RbTree.mk s c x b y) t)
    (hred : y.color = .red) :
    ∃ m', m.eraseFixBlack s p b = some (m', none) ∧ HoldsPath m' up b ∧
      Holds m' up.ptr (RbTree.mk s cp (RbTree.mk s .black t p x) b (paint .black y)) := by
  obtain ⟨hB, hb, hx, hy⟩ := holds_mk.mp h.beside
  have hyne : y ≠ .nil := by
    rintro rfl
    cases hred
  have hnd : (t.toList ++ p :: (x.toList ++ b :: (y.toList ++ up.nodes))).Nodup := by
    refine nodup_of_count_le h.nodup fun a => ?_
    simp only [List.count_append, List.count_cons, count_mk]
    omega
  obtain ⟨m', hrot, hres⟩ := eraseRotate_spec h.above h.pnode h.pcell h.below hB hb hx hB.aligned hy
    hyne hnd
  refine ⟨m', ?_, hres⟩
  simp only [RbMem.eraseFixBlack, Option.bind_eq_bind, RbMem.get_eq hB, Option.bind_some, hb,
    cell_child_flip, h.isRed_far.mpr hred, if_true, hrot]

/-- **Case 3**: only the near child of the sibling is red. -/
theorem EraseState.near {a : ℕ} {x' y' : RbTree ℕ}
    (h : EraseState m up s cp p (RbTree.mk s .black (RbTree.mk s .red x' a y') b y) t)
    (hy : y.color = .black) (hy' : y'.color = .black) :
    ∃ m', m.eraseFixBlack s p b = some (m', none) ∧ HoldsPath m' up a ∧
      Holds m' up.ptr
        (RbTree.mk s cp (RbTree.mk s .black t p x') a (RbTree.mk s .black y' b y)) := by
  obtain ⟨hB, hb, hx, hym⟩ := holds_mk.mp h.beside
  obtain ⟨hA, ha, hxm', hym'⟩ := holds_mk.mp hx
  rw [ptr_mk] at hb
  have hnd : (p :: a :: b :: (t.toList ++ (x'.toList ++ (y'.toList ++
      (y.toList ++ up.nodes))))).Nodup := by
    refine nodup_of_count_le h.nodup fun a => ?_
    simp only [List.count_append, List.count_cons, count_mk]
    omega
  have hnd' : (t.toList ++ p :: (x'.toList ++ a ::
      ((RbTree.mk s .black y' b y).toList ++ up.nodes))).Nodup := by
    refine nodup_of_count_le hnd fun a => ?_
    simp only [List.count_append, List.count_cons, count_mk]
    omega
  obtain ⟨hpa, hpb, hab⟩ : p ≠ a ∧ p ≠ b ∧ a ≠ b := by
    simp only [List.nodup_cons, List.mem_cons, not_or] at hnd
    exact ⟨hnd.1.1, hnd.1.2.1, hnd.2.1.1⟩
  -- the nodes that are written to, and the rest
  have hnew : ∀ d ∈ [p, a, b], d ∉ y'.toList := fun d hd => notMem_of_count hnd (fun d => by
    simp only [List.count_append, List.count_cons, List.count_nil]
    omega) hd
  have hout : ∀ d ∈ t.toList ++ (x'.toList ++ (y.toList ++ up.nodes)),
      d ∉ p :: a :: b :: y'.toList := fun d hd => notMem_of_count hnd (fun d => by
    simp only [List.count_append, List.count_cons]
    omega) hd
  let m₁ := m.put b (cell s (pcWord p .black) y'.ptr y.ptr)
  let m₂ := m₁.adopted y' b .black
  let m₃ := m₂.put a (cell s (pcWord b .red) x'.ptr b)
  let m₄ := m₃.put p (cell s (pcWord up.ptr cp) t.ptr a)
  have hy₁ : Holds m₁ a y' := hym'.put (hnew b (by simp))
  have ha₂ : m₂.nodes a = cell s (pcWord b .red) x'.ptr y'.ptr := by
    rw [RbMem.adopted_of_notMem (hnew a (by simp)), RbMem.put_of_ne hab, ha]
  have hp₃ : m₃.nodes p = cell s (pcWord up.ptr cp) t.ptr b := by
    rw [RbMem.put_of_ne hpa, RbMem.adopted_of_notMem (hnew p (by simp)), RbMem.put_of_ne hpb,
      h.pcell, ptr_mk]
  have hkeep : ∀ d ∈ t.toList ++ (x'.toList ++ (y.toList ++ up.nodes)),
      m₄.nodes d = m.nodes d := by
    intro d hd
    have hd' := hout d hd
    simp only [List.mem_cons, not_or] at hd'
    rw [RbMem.put_of_ne hd'.1, RbMem.put_of_ne hd'.2.1, RbMem.adopted_of_notMem hd'.2.2.2,
      RbMem.put_of_ne hd'.2.2.1]
  have hsib : Holds m₄ p (RbTree.mk s .black y' b y) := by
    rw [holds_mk]
    refine ⟨hB, ?_, ?_, hym.congr fun d hd => hkeep d (by simp [hd])⟩
    · rw [RbMem.put_of_ne hpb.symm, RbMem.put_of_ne hab.symm,
        RbMem.adopted_of_notMem (hnew b (by simp)), RbMem.put_self]
    · have hnd₁ : y'.toList.Nodup := nodup_of_count_le hnd fun d => by
        simp only [List.count_append, List.count_cons]
        omega
      exact ((hy₁.adopted_color hnd₁ hy').put (hnew a (by simp))).put (hnew p (by simp))
  have hup₄ : HoldsPath m₄ up p := by
    refine h.above.congr ?_ fun d hd => hkeep d (by simp [hd])
    rw [RbMem.put_root, RbMem.put_root, RbMem.adopted_root, RbMem.put_root]
  have ht₄ : Holds m₄ p t := h.below.congr fun d hd => hkeep d (by simp [hd])
  have hx₄ : Holds m₄ a x' := hxm'.congr fun d hd => hkeep d (by simp [hd])
  have ha₄ : m₄.nodes a = cell s (pcWord b .red) x'.ptr (RbTree.mk s .black y' b y).ptr := by
    rw [RbMem.put_of_ne hpa.symm, RbMem.put_self, ptr_mk]
  obtain ⟨m', hrot, hres⟩ := eraseRotate_spec hup₄ h.pnode RbMem.put_self ht₄ hA ha₄ hx₄ hA.aligned
    hsib mk_ne_nil hnd'
  rw [ptr_mk] at hrot
  refine ⟨m', ?_, by simpa [paint_color] using hres⟩
  have hfar : m.isRed y.ptr = false := by
    rw [Bool.eq_false_iff, Ne, h.isRed_far, hy]
    simp
  have hnear : m.isRed a = true := by
    have := h.isRed_near.mpr color_mk
    rwa [ptr_mk] at this
  have h₁ : m.setChild s b y'.ptr = some m₁ := RbMem.setChild_eq hB hb
  have h₂ : m₁.adopt y'.ptr b rbBlack = some m₂ := RbMem.adopt_eq (c := .black) hy₁
  have h₃ : m₂.setChild s.flip a b = some m₃ := RbMem.setChild_flip_eq hA ha₂
  have h₄ : m₃.setChild s.flip p a = some m₄ := RbMem.setChild_flip_eq h.pnode hp₃
  simp only [RbMem.eraseFixBlack, Option.bind_eq_bind, RbMem.get_eq hB, Option.bind_some, hb,
    cell_child_flip, cell_child, hfar, Bool.false_eq_true, if_false, hnear, if_true,
    RbMem.get_eq hA, ha, h₁, h₂, h₃, h₄, hrot]

/-- Both children of the sibling are black. -/
theorem EraseState.none (h : EraseState m up s cp p (RbTree.mk s c x b y) t)
    (hx : x.color = .black) (hy : y.color = .black) :
    ∃ m', m.eraseFixBlack s p b = some (m', if cp = .black ∧ up.ptr ≠ 0 then some (p, up.ptr)
        else Option.none) ∧ HoldsPath m' up p ∧
      Holds m' up.ptr (RbTree.mk s .black t p (RbTree.mk s .red x b y)) := by
  obtain ⟨hB, hb, hxm, hym⟩ := holds_mk.mp h.beside
  have hnd : (t.toList ++ p :: (x.toList ++ b :: (y.toList ++ up.nodes))).Nodup := by
    refine nodup_of_count_le h.nodup fun a => ?_
    simp only [List.count_append, List.count_cons, count_mk]
    omega
  have hpb : p ≠ b := by grind
  have hfar : m.isRed y.ptr = false := by
    rw [Bool.eq_false_iff, Ne, h.isRed_far, hy]
    simp
  have hnear : m.isRed x.ptr = false := by
    rw [Bool.eq_false_iff, Ne, h.isRed_near, hx]
    simp
  let m₁ := m.put b (cell s (pcWord p .red) x.ptr y.ptr)
  have h₁ : m.rbSetParentColor b p rbRed = some m₁ :=
    RbMem.rbSetParentColor_eq (c := .red) hB hb
  have hp₁ : m₁.nodes p = cell s (pcWord up.ptr cp) t.ptr b := by
    rw [RbMem.put_of_ne hpb, h.pcell, ptr_mk]
  have hup₁ : HoldsPath m₁ up p := h.above.put (by clear * - hnd; grind)
  have ht₁ : Holds m₁ p t := h.below.put (by clear * - hnd; grind)
  have hs₁ : Holds m₁ p (RbTree.mk s .red x b y) := by
    rw [holds_mk]
    refine ⟨hB, RbMem.put_self, hxm.put ?_, hym.put ?_⟩
    all_goals clear * - hnd; grind
  have hstart : m.eraseFixBlack s p b = if pcColor (pcWord up.ptr cp) = rbRed then
      (m₁.rbSetBlack p).bind fun m => some (m, Option.none)
      else some (m₁, if up.ptr = 0 then Option.none else some (p, up.ptr)) := by
    simp only [RbMem.eraseFixBlack, Option.bind_eq_bind, RbMem.get_eq hB, Option.bind_some, hb,
      cell_child_flip, cell_child, hfar, hnear, Bool.false_eq_true, if_false, h₁,
      RbMem.get_eq h.pnode, hp₁, cell_parentColor, pcParent_pcWord h.above.aligned]
  rw [hstart, pcColor_pcWord h.above.aligned]
  cases cp with
  | red =>
      let m₂ := m₁.put p (cell s (pcWord up.ptr .black) t.ptr b)
      have h₂ : m₁.rbSetBlack p = some m₂ := by
        rw [RbMem.rbSetBlack, RbMem.modify_eq h.pnode, hp₁, cell_setPc, cell_parentColor,
          pcWord_or_black]
      refine ⟨m₂, ?_, hup₁.put (by clear * - hnd; grind), ?_⟩
      · rw [if_pos (bit_eq_rbRed.mpr rfl), h₂]
        rfl
      · rw [holds_mk, ptr_mk]
        refine ⟨h.pnode, RbMem.put_self, ht₁.put ?_, hs₁.put ?_⟩
        · clear * - hnd
          grind
        · rw [toList_mk_perm.mem_iff]
          clear * - hnd
          grind
  | black =>
      refine ⟨m₁, ?_, hup₁, ?_⟩
      · rw [if_neg (by simp [Color.bit, rbRed, rbBlack])]
        by_cases h0 : up.ptr = 0 <;> simp [h0]
      · rw [holds_mk, ptr_mk]
        exact ⟨h.pnode, hp₁, ht₁, hs₁⟩

/-- **Case 1**: the sibling is red and goes up; its near child is the sibling now. -/
theorem EraseState.case1 (h : EraseState m up s cp p (RbTree.mk s .red x b y) t)
    (hxne : x ≠ .nil) (hx : x.color = .black) :
    ∃ m', m.eraseFixSide s p = m'.eraseFixBlack s p x.ptr ∧
      EraseState m' (.step s cp b y up) s .red p x t := by
  obtain ⟨hB, hb, hxm, hym⟩ := holds_mk.mp h.beside
  have hpc := h.pcell
  rw [ptr_mk] at hpc
  have hnd : (p :: b :: (t.toList ++ (x.toList ++ (y.toList ++ up.nodes)))).Nodup := by
    refine nodup_of_count_le h.nodup fun d => ?_
    simp only [List.count_append, List.count_cons, count_mk]
    omega
  have hbp : b ≠ p := by
    simp only [List.nodup_cons, List.mem_cons, not_or] at hnd
    exact Ne.symm hnd.1.1
  have hnew : ∀ d ∈ [p, b], d ∉ t.toList ++ (x.toList ++ (y.toList ++ up.nodes)) :=
    fun d hd => notMem_of_count hnd (fun d => by
      simp only [List.count_append, List.count_cons, List.count_nil]
      omega) hd
  have hout : ∀ d ∈ t.toList ++ (y.toList ++ up.nodes), d ∉ x.toList :=
    fun d hd => notMem_of_count hnd (fun d => by
      simp only [List.count_append, List.count_cons]
      omega) hd
  have hnx : ∀ d ∈ [p, b], d ∉ x.toList := fun d hd hmem => hnew d hd (by simp [hmem])
  have hnup : ∀ d ∈ [p, b], d ∉ up.nodes := fun d hd hmem => hnew d hd (by simp [hmem])
  have hndup : up.nodes.Nodup := nodup_of_count_le hnd fun d => by
    simp only [List.count_append, List.count_cons]
    omega
  have hndx : x.toList.Nodup := nodup_of_count_le hnd fun d => by
    simp only [List.count_append, List.count_cons]
    omega
  let m₁ := m.put p (cell s (pcWord up.ptr cp) t.ptr x.ptr)
  let m₂ := m₁.adopted x p .black
  let m₃ := m₂.put b (cell s (pcWord p .red) p y.ptr)
  have hx₁ : Holds m₁ b x := hxm.put (hnx p (by simp))
  have hb₂ : m₂.nodes b = cell s (pcWord p .red) x.ptr y.ptr := by
    rw [RbMem.adopted_of_notMem (hnx b (by simp)), RbMem.put_of_ne hbp, hb]
  have hp₃ : m₃.nodes p = cell s (pcWord up.ptr cp) t.ptr x.ptr := by
    rw [RbMem.put_of_ne hbp.symm, RbMem.adopted_of_notMem (hnx p (by simp)), RbMem.put_self]
  have hup₃ : HoldsPath m₃ up p := by
    refine ((h.above.put (hnup p (by simp))).adopted_frame ?_).put (hnup b (by simp))
    exact fun d hd => hout d (by simp [hd])
  obtain ⟨m', hrot, hup', hp', hb', hframe⟩ := rbRotateSetParents_spec hup₃ hndup h.pnode hB hbp
    (hnup p (by simp)) (hnup b (by simp)) hp₃ RbMem.put_self .red
  -- the subtrees are out of reach of the rotation
  have hkeep : ∀ d ∈ t.toList ++ (x.toList ++ y.toList), m'.nodes d = m₂.nodes d := by
    intro d hd
    have hup : d ∉ up.nodes := notMem_of_count hnd (fun d => by
      simp only [List.count_append, List.count_cons]
      omega) hd
    have hne : ∀ e ∈ [p, b], d ≠ e := by
      rintro e he rfl
      refine hnew d he ?_
      simp only [List.mem_append] at hd ⊢
      tauto
    rw [hframe d hup (hne p (by simp)) (hne b (by simp)), RbMem.put_of_ne (hne b (by simp))]
  have hkeep' : ∀ d ∈ t.toList ++ y.toList, m'.nodes d = m.nodes d := by
    intro d hd
    have hdx : d ∉ x.toList := hout d (by
      simp only [List.mem_append] at hd ⊢
      tauto)
    have hdp : d ≠ p := by
      rintro rfl
      refine hnew d (by simp) ?_
      simp only [List.mem_append] at hd ⊢
      tauto
    rw [hkeep d (by
      simp only [List.mem_append] at hd ⊢
      tauto), RbMem.adopted_of_notMem hdx, RbMem.put_of_ne hdp]
  refine ⟨m', ?_, ⟨hB, hb', hym.congr fun d hd => hkeep' d (by simp [hd]), hup'⟩, h.pnode, hp', ?_,
    h.below.congr fun d hd => hkeep' d (by simp [hd]), ?_⟩
  · have h₁ : m.setChild s.flip p x.ptr = some m₁ := RbMem.setChild_flip_eq h.pnode hpc
    have h₂ : m₁.rbSetParentColor x.ptr p rbBlack = some m₂ :=
      RbMem.rbSetParentColor_ptr (c := .black) hx₁ hxne
    have h₃ : m₂.setChild s b p = some m₃ := RbMem.setChild_eq hB hb₂
    have h₄ : m₃.rbRotateSetParents p b rbRed = some m' := hrot
    have hred : pcColor p = rbRed := by
      rw [← pcWord_red (p := p), pcColor_pcWord h.pnode.aligned]
      rfl
    simp only [RbMem.eraseFixSide, Option.bind_eq_bind, RbMem.get_eq h.pnode, Option.bind_some, hpc,
      cell_child_flip, RbMem.get_eq hB, hb, cell_parentColor, pcWord_red, hred, if_true, cell_child,
      h₁, h₂, h₃, h₄]
  · exact (hx₁.adopted_color hndx hx).congr fun d hd => hkeep d (by simp [hd])
  · refine nodup_of_count_le hnd fun d => ?_
    simp only [Path.nodes, List.count_append, List.count_cons]
    omega

end Black

/-- **The rest of a round**, with a black sibling. -/
theorem EraseState.black {n : ℕ} (h : EraseState m up s cp p sib t)
    (hs : sib.Balanced .black (n + 1)) :
    ∃ m', m.eraseFixBlack s p sib.ptr = some (m',
        if (shiftBlack s cp p sib t).2 ∧ up.ptr ≠ 0 then some (p, up.ptr) else Option.none) ∧
      HoldsPath m' up (shiftBlack s cp p sib t).1.ptr ∧ Holds m' up.ptr (shiftBlack s cp p sib t).1 ∧
      ((shiftBlack s cp p sib t).2 = true → (shiftBlack s cp p sib t).1.ptr = p) := by
  cases hs with
  | @black l r b _ _ _ hl hr =>
      obtain ⟨d, hx⟩ := Balanced.exists_pick s hl hr
      obtain ⟨e, hy⟩ := Balanced.exists_pick s.flip hl hr
      rw [← mk_pick s] at h ⊢
      generalize s.pick l r = x at hx h ⊢
      generalize s.flip.pick l r = y at hy h ⊢
      rw [ptr_mk]
      cases e with
      | red =>
          obtain ⟨m', hexec, hup, hm'⟩ := h.far hy.color_eq
          rw [shiftBlack_far hy.color_eq]
          exact ⟨m', by simpa using hexec, by simpa using hup, hm', by simp⟩
      | black =>
          cases d with
          | red =>
              cases hx with
              | @red l' r' a _ hl' hr' =>
                  rw [← mk_pick s] at h ⊢
                  obtain ⟨m', hexec, hup, hm'⟩ := h.near hy.color_eq (Balanced.pick hl' hr').color_eq
                  rw [shiftBlack_near hy.color_eq]
                  exact ⟨m', by simpa using hexec, by simpa using hup, hm', by simp⟩
          | black =>
              obtain ⟨m', hexec, hup, hm'⟩ := h.none hx.color_eq hy.color_eq
              rw [shiftBlack_none hx.color_eq hy.color_eq]
              exact ⟨m', by simpa using hexec, by simpa using hup, hm', by simp⟩

/-- The comparison with `rb_right` tells the side of the hole. -/
theorem EraseState.side (h : EraseState m up s cp p sib t) (hne : sib ≠ .nil) :
    (if t.ptr ≠ (m.nodes p).right then Side.left else Side.right) = s := by
  rw [h.pcell]
  cases s with
  | left =>
      have hd : ∀ a ∈ sib.toList, a ∉ t.toList := fun a ha => notMem_of_count h.nodup (fun a => by
        simp only [List.count_append, List.count_cons]
        omega) ha
      exact if_pos (ptr_ne_ptr h.beside hne hd).symm
  | right => exact if_neg (not_not.mpr rfl)

theorem EraseState.round (h : EraseState m up s cp p sib t) (hne : sib ≠ .nil) (fuel : ℕ) :
    eraseFixLoop (fuel + 1) t.ptr p m = (m.eraseFixSide s p).bind fun r =>
      r.2.elim (some r.1) fun next => eraseFixLoop fuel next.1 next.2 r.1 := by
  rw [eraseFixLoop]
  simp only [Option.bind_eq_bind, RbMem.get_eq h.pnode, Option.bind_some, h.side hne]
  refine Option.bind_congr fun r _ => ?_
  rcases r with ⟨m, _ | next⟩ <;> rfl

theorem EraseState.fixSide_black (h : EraseState m up s cp p sib t) (hne : sib ≠ .nil)
    (hs : sib.color = .black) : m.eraseFixSide s p = m.eraseFixBlack s p sib.ptr := by
  cases sib with
  | nil => exact absurd rfl hne
  | node c l b r =>
      obtain rfl : c = .black := hs
      have hblack : pcColor (pcWord p .black) ≠ rbRed := by
        rw [pcColor_pcWord h.pnode.aligned]
        simp [Color.bit, rbRed, rbBlack]
      obtain ⟨hB, hb, -, -⟩ := h.beside
      simp only [RbMem.eraseFixSide, Option.bind_eq_bind, RbMem.get_eq h.pnode, Option.bind_some,
        h.pcell, cell_child_flip, ptr_node, RbMem.get_eq hB, hb, cell_parentColor, hblack, if_false]

end Round

/-! ## The loop -/

/-- A round without a next one. -/
theorem EraseState.last {m m' : RbMem} {up : Path ℕ} {s : Side} {cp : Color} {p : ℕ}
    {sib t : RbTree ℕ} (h : EraseState m up s cp p sib t) (hne : sib ≠ .nil) {fuel : ℕ}
    (hexec : m.eraseFixSide s p = some (m', Option.none)) :
    eraseFixLoop (fuel + 1) t.ptr p m = some m' := by
  rw [h.round hne, hexec]
  rfl

theorem RbTree.Balanced.ne_nil {t : RbTree ℕ} {c : Color} {n : ℕ} (h : t.Balanced c (n + 1)) :
    t ≠ .nil := by
  rintro rfl
  cases h

/-- **The loop of `__rb_erase_fix` repairs the tree.** -/
theorem eraseFixLoop_spec {m : RbMem} {path : Path ℕ} {t : RbTree ℕ} {n fuel : ℕ}
    (hroot : path ≠ .root) (hp : HoldsPath m path t.ptr) (ht : Holds m path.ptr t)
    (hnd : (t.toList ++ path.nodes).Nodup) (hpb : path.Balanced .black (n + 1))
    (htb : t.Balanced .black n) (hfuel : path.nodes.length < fuel) :
    ∃ m', eraseFixLoop fuel t.ptr path.ptr m = some m' ∧ HoldsTree m' (eraseFix path t) := by
  induction path generalizing m t n fuel with
  | root => exact absurd rfl hroot
  | step s cp p sib up ih =>
      have hst := EraseState.of_path hp ht hnd
      simp only [Path.nodes, List.length_cons, List.length_append] at hfuel
      cases fuel with
      | zero => cases hfuel
      | succ fuel =>
      rw [Path.ptr_step]
      cases hpb with
      | red hs hup =>
          obtain ⟨c, hmore, -⟩ := Balanced.shiftBlack_red (s := s) (p := p) hs htb
          obtain ⟨m', hexec, hpath, hm', -⟩ := hst.black hs
          rw [← hst.fixSide_black hs.ne_nil hs.color_eq] at hexec
          simp only [hmore, Bool.false_eq_true, false_and, if_false] at hexec
          refine ⟨m', hst.last hs.ne_nil hexec, ?_⟩
          rw [eraseFix_black hs.color_eq, hmore, if_neg (by simp)]
          exact holds_fill.mpr ⟨hpath, hm'⟩
      | @black _ _ _ _ _ d _ hs hup =>
          cases d with
          | red =>
              -- the sibling goes up, and `p` is red in the rest of the round
              cases hs with
              | @red l r b _ hl hr =>
                  rw [← mk_pick s] at hst
                  have hx : (s.pick l r).Balanced .black (n + 1) := .pick hl hr
                  obtain ⟨c, hmore, -⟩ := Balanced.shiftBlack_red (s := s) (p := p) hx htb
                  obtain ⟨m₁, hside, hst₁⟩ := hst.case1 hx.ne_nil hx.color_eq
                  obtain ⟨m', hexec, hpath, hm', -⟩ := hst₁.black hx
                  simp only [hmore, Bool.false_eq_true, false_and, if_false] at hexec
                  have htree : HoldsTree m' ((Path.step s .black b (s.flip.pick l r) up).fill
                      (shiftBlack s .red p (s.pick l r) t).1) := holds_fill.mpr ⟨hpath, hm'⟩
                  exact ⟨m', hst.last mk_ne_nil (hside.trans hexec), htree⟩
          | black =>
              have hu := Balanced.shiftBlack_black (s := s) (p := p) hs htb
              obtain ⟨m', hexec, hpath, hm', hptr⟩ := hst.black hs
              rw [← hst.fixSide_black hs.ne_nil hs.color_eq] at hexec
              rw [eraseFix_black hs.color_eq]
              cases hmore : (shiftBlack s .black p sib t).2 with
              | false =>
                  simp only [hmore, Bool.false_eq_true, false_and, if_false] at hexec
                  exact ⟨m', hst.last hs.ne_nil hexec, holds_fill.mpr ⟨hpath, hm'⟩⟩
              | true =>
                  rw [hmore, if_pos rfl] at hu
                  rw [if_pos rfl]
                  cases hcase : up with
                  | root =>
                      subst hcase
                      simp only [Path.ptr_root, ne_eq, not_true, and_false, if_false] at hexec
                      exact ⟨m', hst.last hs.ne_nil hexec, hpath, hm'⟩
                  | step s' c' q sib' up' =>
                      have hup0 : up.ptr ≠ 0 := by
                        have := hst.above
                        rw [hcase] at this ⊢
                        exact this.1.ne
                      have hnd' : ((shiftBlack s .black p sib t).1.toList ++ up.nodes).Nodup := by
                        refine nodup_of_count_le hnd fun a => ?_
                        rw [toList_shiftBlack]
                        simp only [Path.nodes, List.count_append, List.count_cons, count_mk]
                        omega
                      obtain ⟨m₂, hloop, hm₂⟩ := ih (by simp [hcase]) hpath hm' hnd' hup hu
                        (by omega : up.nodes.length < fuel)
                      rw [hmore, if_pos ⟨rfl, hup0⟩] at hexec
                      refine ⟨m₂, ?_, hcase ▸ hm₂⟩
                      rw [hst.round hs.ne_nil, hexec, ← hloop, hptr hmore]
                      rfl

/-! ## Deletion -/

theorem Path.Balanced.eraseFix_nil {q : Path ℕ} {m : RbMem} {fuel : ℕ} (hq : q.Balanced .black 1)
    (hp : HoldsPath m q 0) (hnd : q.nodes.Nodup) (hfuel : q.nodes.length < fuel) :
    ∃ m', (if q.ptr ≠ 0 then rbEraseFix fuel q.ptr m else some m) = some m' ∧
      HoldsTree m' (eraseFix q .nil) := by
  by_cases hroot : q = .root
  · subst hroot
    exact ⟨m, by simp, hp, trivial⟩
  · have hptr : q.ptr ≠ 0 := by
      cases q with
      | root => exact absurd rfl hroot
      | step s c a sib up => exact hp.1.ne
    rw [if_pos hptr]
    exact eraseFixLoop_spec (t := .nil) (n := 0) hroot hp trivial hnd hq .nil hfuel

theorem rbErase_spec {m : RbMem} {t : RbTree ℕ} {node fuel : ℕ} (ht : HoldsTree m t)
    (hnd : t.toList.Nodup) (hbal : ∃ n, t.Balanced .black n) (hmem : node ∈ t.toList)
    (hfuel : t.toList.length < fuel) :
    ∃ m' t', rbErase fuel node m = some m' ∧ HoldsTree m' t' ∧ (∃ n, t'.Balanced .black n) ∧
      t'.toList = t.toList.erase node := by
  obtain ⟨path, c, l, r, hfill⟩ := Path.exists_fill hmem
  have hperm := Path.toList_fill_perm path (.node c l node r)
  have hlist := Path.toList_fill path (.node c l node r)
  obtain ⟨hp, hsub⟩ := holds_fill.mp (hfill ▸ ht)
  rw [ptr_node] at hp
  obtain ⟨n, hb⟩ := hbal
  rw [hfill] at hperm hlist
  rw [← hfill] at hb
  obtain ⟨m₁, q, t₁, short, hexec, hun, hlist₁⟩ := rbUnlink_spec hp hsub
    (hperm.nodup_iff.mp hnd) hb (by
      have := hperm.length_eq
      rw [List.length_append] at this
      omega : _ < fuel)
  -- the node is gone from the order
  have herase : (q.fill t₁).toList = t.toList.erase node := by
    have hnot : node ∉ path.before ++ l.toList := by
      simp only [hlist, toList_node, List.append_assoc, List.cons_append] at hnd
      rw [← List.append_assoc, List.nodup_append] at hnd
      exact fun hin => hnd.2.2 node hin node (by simp) rfl
    have heq : t.toList = path.before ++ l.toList ++ node :: (r.toList ++ path.after) := by
      simp [hlist]
    rw [hlist₁, heq, List.erase_append_right _ hnot, List.erase_cons_head]
    simp
  have hstart : rbErase fuel node m = if (if short then q.ptr else 0) ≠ 0 then
      rbEraseFix fuel (if short then q.ptr else 0) m₁ else some m₁ := by
    rw [rbErase, hexec]
    rfl
  cases short with
  | false =>
      exact ⟨m₁, q.fill t₁, by simp [hstart], holds_fill.mpr ⟨hun.above, hun.below⟩,
        hun.whole rfl, herase⟩
  | true =>
      obtain ⟨rfl, hqb⟩ := hun.lacks rfl
      have hq := Path.toList_fill_perm q .nil
      rw [herase] at hq
      obtain ⟨m', hfix, hm'⟩ := hqb.eraseFix_nil hun.above (hq.nodup_iff.mp (hnd.erase node)) (by
        have := hq.length_eq
        have := List.length_erase_le (a := node) (l := t.toList)
        simp only [toList_nil, List.nil_append] at *
        omega : q.nodes.length < fuel)
      refine ⟨m', eraseFix q .nil, by simpa [hstart] using hfix, hm', ?_, ?_⟩
      · exact Balanced.eraseFix hqb .nil
      · rw [toList_eraseFix, herase]

/-- **Deletion from a red-black tree.** -/
theorem rb_erase_correct (cmp : ℕ → ℕ → Bool) [IsStrictWeakOrder ℕ fun a b => cmp a b = true]
    (m : RbMem) (t : RbTree ℕ) (node fuel : ℕ) (ht : IsRbTree cmp m t) (hmem : node ∈ t.toList)
    (hfuel : t.toList.length < fuel) :
    ∃ m' t', rbErase fuel node m = some m' ∧ IsRbTree cmp m' t' ∧
      t'.toList = t.toList.erase node := by
  obtain ⟨m', t', hexec, hm', hbal, hlist⟩ :=
    rbErase_spec ht.holds ht.nodup ht.balanced hmem hfuel
  refine ⟨m', t', hexec, ⟨hm', ?_, hbal⟩, hlist⟩
  rw [hlist]
  exact ht.sorted.sublist List.erase_sublist

/-- The root of a tree of three black nodes: the successor takes its place, and the tree has to
be repaired. -/
theorem rb_erase_correct_root : ∃ m' t',
    rbErase 5 16 ⟨fun a => if a = 16 then cell .left (pcWord 0 .black) 8 24
      else cell .left (pcWord 16 .black) 0 0, 16⟩ = some m' ∧
    IsRbTree (fun a b => decide (a < b)) m' t' ∧ t'.toList = [8, 16, 24].erase 16 := by
  have : IsStrictWeakOrder ℕ fun a b => decide (a < b) = true := by
    simp only [decide_eq_true_eq]
    exact isStrictWeakOrder_of_isOrderConnected
  refine rb_erase_correct (fun a b => decide (a < b)) _
    (.node .black (.node .black .nil 8 .nil) 16 (.node .black .nil 24 .nil)) 16 5 ?_ ?_ ?_
  · refine ⟨⟨rfl, ⟨by decide, by decide⟩, rfl, ⟨⟨by decide, by decide⟩, rfl, trivial, trivial⟩,
      ⟨by decide, by decide⟩, rfl, trivial, trivial⟩, ?_, 2, .black (.black .nil .nil)
      (.black .nil .nil)⟩
    simp
  · simp
  · simp

end OsLab
