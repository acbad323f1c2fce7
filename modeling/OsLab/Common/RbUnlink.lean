import OsLab.Common.RbRepr

/-!
# Unlinking a node

`__rb_erase` takes a node out of the tree.  With at most one child that child goes up; with
two the successor, the leftmost node on the right, takes the place of the node, and its own
child goes up.  The way down to the successor is a segment of a path: `HoldsSeg` says that it
lies in memory between a parent and a pointer in its hole.

## Main definitions

* `HoldsSeg m p a q` — the path `p` lies in memory below `a`, with `q` in its hole.
* `successorLoop_spec` — the way down to the successor.
* `Unlinked`, `rbUnlink_spec` — what `__rb_erase` leaves.
-/

namespace OsLab

open RbTree

/-- The node above the hole, or `a`. -/
def Path.ptrOr (a : ℕ) : Path ℕ → ℕ
  | .root => a
  | .step _ _ b _ _ => b

/-- The node on top of the path, or `q`. -/
def Path.top : Path ℕ → ℕ → ℕ
  | .root, q => q
  | .step _ _ b _ up, _ => up.top b

/-- The path lies in memory below `a`, with the pointer `q` in its hole. -/
def HoldsSeg (m : RbMem) : Path ℕ → ℕ → ℕ → Prop
  | .root, _, _ => True
  | .step s c b sib up, a, q =>
      IsNode b ∧ m.nodes b = cell s (pcWord (up.ptrOr a) c) q sib.ptr ∧ Holds m b sib ∧
        HoldsSeg m up a b

section Segment

variable {m m' : RbMem} {p q : Path ℕ} {t : RbTree ℕ} {a b x : ℕ}

theorem Path.ptr_append : (p.append q).ptr = p.ptrOr q.ptr := by cases p <;> rfl

theorem Path.ptr_fill : (p.fill t).ptr = p.top t.ptr := by
  induction p generalizing t with
  | root => rfl
  | step s c b sib up ih => rw [Path.fill, ih, ptr_mk, Path.top]

theorem Path.top_mem (hp : p ≠ .root) : p.top x ∈ p.nodes := by
  induction p generalizing x with
  | root => exact absurd rfl hp
  | step s c b sib up ih =>
      rw [Path.top]
      by_cases hup : up = .root
      · simp [hup, Path.top, Path.nodes]
      · simp [Path.nodes, ih hup]

/-- **A path cut in two.** -/
theorem holdsPath_append :
    HoldsPath m (p.append q) x ↔ HoldsPath m q (p.top x) ∧ HoldsSeg m p q.ptr x := by
  induction p generalizing x with
  | root => exact (and_iff_left trivial).symm
  | step s c b sib up ih =>
      rw [Path.append, HoldsPath, HoldsSeg, ih, Path.top, Path.ptr_append]
      tauto

/-- **A tree cut at a path**, below a node. -/
theorem holds_fill_seg :
    Holds m a (p.fill t) ↔ HoldsSeg m p a t.ptr ∧ Holds m (p.ptrOr a) t := by
  induction p generalizing t with
  | root => exact (and_iff_right trivial).symm
  | step s c b sib up ih =>
      rw [Path.fill, ih, holds_mk, ptr_mk, HoldsSeg, Path.ptrOr]
      tauto

theorem HoldsSeg.congr (h : HoldsSeg m p a x) (heq : ∀ b ∈ p.nodes, m'.nodes b = m.nodes b) :
    HoldsSeg m' p a x := by
  induction p generalizing x with
  | root => trivial
  | step s c b sib up ih =>
      obtain ⟨hb, hcell, hs, hup⟩ := h
      refine ⟨hb, by rw [heq b (by simp [Path.nodes]), hcell], hs.congr ?_, ih hup ?_⟩
      · exact fun d hd => heq d (by simp [Path.nodes, hd])
      · exact fun d hd => heq d (by simp [Path.nodes, hd])

theorem HoldsSeg.put {n : RbNode} (h : HoldsSeg m p a x) (hb : b ∉ p.nodes) :
    HoldsSeg (m.put b n) p a x :=
  h.congr fun _ hd => RbMem.put_of_ne fun heq => hb (heq ▸ hd)

/-- `rb_set_parent` on the top of the segment. -/
theorem HoldsSeg.rbSetParent (h : HoldsSeg m p a x) (hp : p ≠ .root) (hnd : p.nodes.Nodup)
    (ha : 8 ∣ a) (b : ℕ) :
    ∃ m', m.rbSetParent (p.top x) b = some m' ∧ HoldsSeg m' p b x ∧ m'.root = m.root ∧
      ∀ d ≠ p.top x, m'.nodes d = m.nodes d := by
  induction p generalizing x with
  | root => exact absurd rfl hp
  | step s c e sib up ih =>
      obtain ⟨hE, hcell, hs, hseg⟩ := h
      simp only [Path.nodes, List.nodup_cons, List.mem_append, not_or] at hnd
      obtain ⟨⟨hes, heup⟩, hnd⟩ := hnd
      by_cases hup : up = .root
      · subst hup
        refine ⟨m.put e (cell s (pcWord b c) x sib.ptr), ?_, ⟨hE, RbMem.put_self, hs.put hes, trivial⟩,
          rfl, fun d hd => RbMem.put_of_ne hd⟩
        rw [Path.top, Path.top, RbMem.rbSetParent, RbMem.modify_eq hE, hcell, cell_parentColor,
          Path.ptrOr, pcColor_pcWord ha, bit_or, cell_setPc]
      · obtain ⟨m', hexec, hseg', hroot, hframe⟩ := ih hseg hup (List.nodup_append.mp hnd).2.1
        have htop : up.top e ∈ up.nodes := Path.top_mem hup
        refine ⟨m', hexec, ⟨hE, ?_, hs.congr fun d hd => hframe d ?_, hseg'⟩, hroot, hframe⟩
        · have hne : e ≠ up.top e := fun heq => heup (heq ▸ htop)
          rw [hframe e hne, hcell]
          cases up with
          | root => exact absurd rfl hup
          | step s' c' e' sib' up' => rfl
        · exact (List.nodup_append.mp hnd).2.2 d hd _ htop

end Segment

/-! ## The successor -/

/-- **The loop of `__rb_erase`** goes down to the leftmost node `b` below `a`, whose parent is
`e`. -/
theorem successorLoop_spec {m : RbMem} {l r : RbTree ℕ} {up : Path ℕ} {c : Color} {a fuel : ℕ}
    (hl : Holds m a l) (hne : l ≠ .nil) (hbefore : up.before = [])
    (hfuel : l.toList.length < fuel) :
    ∃ p cb b y ce e sib, successorLoop fuel a l.ptr m = some (e, b) ∧
      (Path.step .left ce e sib p).fill (node cb .nil b y) = (Path.step .left c a r up).fill l ∧
      p.before = [] := by
  induction l generalizing up c a r fuel with
  | nil => exact absurd rfl hne
  | node d l' b r' ihl _ =>
      obtain ⟨hB, hcell, hl', -⟩ := hl
      have hleft : (m.nodes b).left = l'.ptr := by rw [hcell]; rfl
      simp only [toList_node, List.length_append, List.length_cons] at hfuel
      cases fuel with
      | zero => cases hfuel
      | succ fuel =>
      rw [successorLoop, ptr_node, RbMem.get_eq hB, Option.bind_eq_bind, Option.bind_some, hleft]
      by_cases hnil : l' = .nil
      · subst hnil
        exact ⟨up, d, b, r', c, a, r, by simp, rfl, hbefore⟩
      · have hptr : l'.ptr ≠ 0 := by
          cases l' with
          | nil => exact absurd rfl hnil
          | node c' l₁ b' r₁ => exact hl'.1.ne
        dsimp only
        rw [if_neg hptr]
        have hbefore' : (Path.step .left c a r up).before = [] := hbefore
        obtain ⟨p, cb, b', y, ce, e, sib, hloop, hfill, hp⟩ := ihl (r := r') (c := d) hl' hnil
          hbefore' (by omega : l'.toList.length < fuel)
        exact ⟨p, cb, b', y, ce, e, sib, hloop, hfill, hp⟩

/-! ## The successor takes the place -/

section Replace

variable {m : RbMem} {path q : Path ℕ} {l y : RbTree ℕ} {c : Color} {a b v w x : ℕ}

/-- `rb_set_parent` on the root of a tree. -/
theorem RbMem.rbSetParent_ptr {t : RbTree ℕ} (h : Holds m a t) (ha : 8 ∣ a) (ht : t.ptr ≠ 0) :
    m.rbSetParent t.ptr b = some (m.adopted t b t.color) := by
  have := RbMem.reparent_eq (p := b) h ha
  rwa [RbMem.reparent, if_neg ht] at this

/-- The word of the parent is written to the root of a tree. -/
theorem RbMem.modify_pc {t : RbTree ℕ} (h : Holds m a t) (ht : t.ptr ≠ 0) :
    m.modify t.ptr (fun n => { n with parentColor := pcWord b c }) = some (m.adopted t b c) := by
  cases t with
  | nil => exact absurd rfl ht
  | node d l e r =>
      rw [ptr_node, RbMem.modify_eq h.1, h.2.1, cell_setPc]
      rfl

/-- **The end of `__rb_erase`**: `b` takes the place of `a`, and `y` goes into the hole. -/
theorem replaceNode_spec (hpath : HoldsPath m path a) (hA : IsNode a)
    (ha : m.nodes a = cell .left (pcWord path.ptr c) l.ptr v) (hl : Holds m a l) (hne : l.ptr ≠ 0)
    (hB : IsNode b) (hb : m.nodes b = cell .left w 0 (q.top y.ptr)) (hq : HoldsSeg m q b y.ptr)
    (hy : Holds m x y)
    (hnd : (a :: b :: (l.toList ++ (q.nodes ++ (y.toList ++ path.nodes)))).Nodup) :
    ∃ m', m.replaceNode a (q.ptrOr b) b y.ptr =
        some (if y.ptr = 0 ∧ pcColor w = rbBlack then q.ptrOr b else 0, m') ∧
      HoldsPath m' (q.append (.step .right c b l path)) y.ptr ∧
      Holds m' (q.ptrOr b) (paint .black y) := by
  have hab : a ≠ b := by
    rintro rfl
    simp at hnd
  have hnew : ∀ d ∈ [a, b], d ∉ l.toList ++ (q.nodes ++ (y.toList ++ path.nodes)) :=
    fun d hd => notMem_of_count hnd (fun d => by
      simp only [List.count_append, List.count_cons, List.count_nil]
      omega) hd
  have hlout : ∀ d ∈ q.nodes ++ (y.toList ++ path.nodes), d ∉ l.toList :=
    fun d hd => notMem_of_count hnd (fun d => by
      simp only [List.count_append, List.count_cons]
      omega) hd
  have hpout : ∀ d ∈ l.toList ++ (q.nodes ++ y.toList), d ∉ path.nodes :=
    fun d hd => notMem_of_count hnd (fun d => by
      simp only [List.count_append, List.count_cons]
      omega) hd
  have hyout : ∀ d ∈ l.toList ++ (q.nodes ++ path.nodes), d ∉ y.toList :=
    fun d hd => notMem_of_count hnd (fun d => by
      simp only [List.count_append, List.count_cons]
      omega) hd
  have hndl : l.toList.Nodup := nodup_of_count_le hnd fun d => by
    simp only [List.count_append, List.count_cons]
    omega
  have hndy : y.toList.Nodup := nodup_of_count_le hnd fun d => by
    simp only [List.count_append, List.count_cons]
    omega
  have hndp : path.nodes.Nodup := nodup_of_count_le hnd fun d => by
    simp only [List.count_append, List.count_cons]
    omega
  have hnot : ∀ d ∈ [a, b], d ∉ l.toList ∧ d ∉ q.nodes ∧ d ∉ y.toList ∧ d ∉ path.nodes := by
    intro d hd
    have := hnew d hd
    simpa only [List.mem_append, not_or] using this
  obtain ⟨hal, -, -, hap⟩ := hnot a (by simp)
  obtain ⟨hbl, hbq, hby, hbp⟩ := hnot b (by simp)
  let m₁ := m.put b (cell .left w l.ptr (q.top y.ptr))
  let m₂ := m₁.adopted l b l.color
  have hl₁ : Holds m₁ a l := hl.put hbl
  have h₁ : m.setChild .left b l.ptr = some m₁ := RbMem.setChild_eq hB hb
  have h₂ : m₁.rbSetParent l.ptr b = some m₂ := RbMem.rbSetParent_ptr hl₁ hA.aligned hne
  have ha₂ : m₂.nodes a = cell .left (pcWord path.ptr c) l.ptr v := by
    rw [RbMem.adopted_of_notMem hal, RbMem.put_of_ne hab, ha]
  have hpath₂ : HoldsPath m₂ path a :=
    (hpath.put hbp).adopted_frame fun d hd => hlout d (by simp [hd])
  obtain ⟨m₃, h₃, hpath₃, hframe⟩ := rbChangeChild_spec hpath₂ hndp hA.ne hap b
  let m₄ := m₃.put b (cell .left (pcWord path.ptr c) l.ptr (q.top y.ptr))
  let m₅ := m₄.adopted y (q.ptrOr b) .black
  have hb₃ : m₃.nodes b = cell .left w l.ptr (q.top y.ptr) := by
    rw [hframe b hbp, RbMem.adopted_of_notMem hbl, RbMem.put_self]
  -- away from `b` and the path the memory after the fourth write is that after the second
  have hkeep : ∀ d ∈ l.toList ++ (q.nodes ++ y.toList), m₄.nodes d = m₂.nodes d := by
    intro d hd
    have hdb : d ≠ b := by
      rintro rfl
      simp only [List.mem_append] at hd
      tauto
    rw [RbMem.put_of_ne hdb, hframe d (hpout d hd)]
  have hy₂ : Holds m₂ x y := (hy.put hby).adopted_frame fun d hd => hlout d (by simp [hd])
  have hy₄ : Holds m₄ x y := hy₂.congr fun d hd => hkeep d (by simp [hd])
  have hl₄ : Holds m₄ b l :=
    (hl₁.adopted_color hndl rfl).congr fun d hd => hkeep d (by simp [hd])
  have hq₄ : HoldsSeg m₄ q b y.ptr := by
    have hq₂ : HoldsSeg m₂ q b y.ptr :=
      (hq.put hbq).congr fun d hd => RbMem.adopted_of_notMem (hlout d (by simp [hd]))
    exact hq₂.congr fun d hd => hkeep d (by simp [hd])
  refine ⟨m₅, ?_, holdsPath_append.mpr ⟨⟨hB, ?_, hl₄.adopted_frame fun d hd => hyout d (by simp [hd]),
    (hpath₃.put hbp).adopted_frame fun d hd => hyout d (by simp [hd])⟩,
    hq₄.congr fun d hd => RbMem.adopted_of_notMem (hyout d (by simp [hd]))⟩, hy₄.adopted hndy⟩
  · have h₄ : m₃.modify b (fun n => { n with parentColor := pcWord path.ptr c }) = some m₄ := by
      rw [RbMem.modify_eq hB, hb₃, cell_setPc]
    have hparent : pcParent (pcWord path.ptr c) = path.ptr := pcParent_pcWord hpath.aligned
    have hleft : (m.nodes a).left = l.ptr := by rw [ha]; rfl
    simp only [RbMem.replaceNode, Option.bind_eq_bind, RbMem.get_eq hA, Option.bind_some, hleft, h₁,
      h₂, ha₂, cell_parentColor, hparent, h₃, RbMem.get_eq hB, hb₃, h₄]
    by_cases hy0 : y.ptr = 0
    · have hnil : y = .nil := by
        cases y with
        | nil => rfl
        | node d l' e r' => exact absurd hy0 hy.1.ne
      subst hnil
      simp [m₅, RbMem.adopted]
    · have h₅ : m₄.rbSetParentColor y.ptr (q.ptrOr b) rbBlack = some m₅ := by
        refine RbMem.rbSetParentColor_ptr (c := .black) hy₄ ?_
        rintro rfl
        exact hy0 rfl
      simp [hy0, h₅]
  · rw [RbMem.adopted_of_notMem hby, RbMem.put_self]
    rfl

end Replace

/-! ## The four shapes -/

/-- What `__rb_erase` leaves: a tree in the hole of a path, of which `short` says whether it
lacks a black node there. -/
structure Unlinked (m : RbMem) (path : Path ℕ) (t : RbTree ℕ) (short : Bool) : Prop where
  above : HoldsPath m path t.ptr
  below : Holds m path.ptr t
  lacks : short = true → t = .nil ∧ path.Balanced .black 1
  whole : short = false → ∃ n, (path.fill t).Balanced .black n

section Shapes

variable {m : RbMem} {path : Path ℕ} {l r : RbTree ℕ} {c k : Color} {a n fuel : ℕ}

/-- A node without children is gone. -/
theorem Unlinked.leaf (hp : HoldsPath m path 0) (hpb : path.Balanced k n)
    (hb : (node c .nil a .nil).Balanced k n) : Unlinked m path .nil (decide (c = .black)) where
  above := hp
  below := trivial
  lacks h := by
    obtain rfl : c = .black := of_decide_eq_true h
    exact ⟨rfl, hpb.remove_black hb⟩
  whole h := by
    cases c with
    | red => exact hpb.remove_red hb
    | black => cases h

/-- The only child of a node has gone up. -/
theorem Unlinked.single {s : Side} {t : RbTree ℕ} (hp : HoldsPath m path t.ptr)
    (ht : Holds m path.ptr (paint .black t)) (hpb : path.Balanced k n)
    (hb : (RbTree.mk s c t a .nil).Balanced k n) (hne : t ≠ .nil) :
    Unlinked m path (paint .black t) false where
  above := by rwa [ptr_paint]
  below := ht
  lacks h := by cases h
  whole _ := (hpb.remove_single hb hne).2

/-- No left child. -/
theorem rbUnlink_right (hp : HoldsPath m path a) (ht : Holds m path.ptr (node c .nil a r))
    (hnd : ((node c .nil a r).toList ++ path.nodes).Nodup) (hpb : path.Balanced k n)
    (hb : (node c .nil a r).Balanced k n) :
    ∃ m' t short, rbUnlink fuel a m = some (if short then path.ptr else 0, m') ∧
      Unlinked m' path t short ∧ t.toList = r.toList := by
  obtain ⟨hA, hcell, -, hr⟩ := ht
  have hnot : ∀ d ∈ a :: r.toList, d ∉ path.nodes := fun d hd => notMem_of_count hnd (fun d => by
    simp only [toList_node, toList_nil, List.nil_append, List.count_append]
    omega) hd
  obtain ⟨m₁, hexec, hp₁, hframe⟩ := rbChangeChild_spec hp (by
    refine nodup_of_count_le hnd fun d => ?_
    simp only [List.count_append]
    omega) hA.ne (hnot a (by simp)) r.ptr
  have hr₁ : Holds m₁ a r := hr.congr fun d hd => hframe d (hnot d (by simp [hd]))
  have hpc : pcParent (pcWord path.ptr c) = path.ptr := pcParent_pcWord hp.aligned
  have hcol : pcColor (pcWord path.ptr c) = c.bit := pcColor_pcWord hp.aligned
  have hstart : rbUnlink fuel a m = if r.ptr ≠ 0 then
      (m₁.modify r.ptr fun n => { n with parentColor := pcWord path.ptr c }).bind fun m =>
        some (0, m)
      else some (if c.bit = rbBlack then path.ptr else 0, m₁) := by
    simp only [rbUnlink, Option.bind_eq_bind, RbMem.get_eq hA, Option.bind_some, hcell, cell,
      ptr_nil, if_true, hpc, hexec, hcol]
  rw [hstart]
  by_cases hnil : r = .nil
  · subst hnil
    refine ⟨m₁, .nil, decide (c = .black), ?_, .leaf hp₁ hpb hb, rfl⟩
    simp [bit_eq_rbBlack]
  · have hptr : r.ptr ≠ 0 := by
      cases r with
      | nil => exact absurd rfl hnil
      | node d l' e r' => exact hr.1.ne
    obtain ⟨rfl, -⟩ := hpb.remove_single (s := .right) hb hnil
    refine ⟨m₁.adopted r path.ptr .black, paint .black r, false, ?_,
      .single (s := .right) (hp₁.adopted_frame ?_) (hr₁.adopted ?_) hpb hb hnil, toList_paint⟩
    · rw [if_pos hptr, RbMem.modify_pc hr₁ hptr]
      rfl
    · exact fun d hd hmem => hnot d (by simp [hmem]) hd
    · refine nodup_of_count_le hnd fun d => ?_
      simp only [toList_node, toList_nil, List.nil_append, List.count_append, List.count_cons]
      omega

/-- Only a left child. -/
theorem rbUnlink_left (hp : HoldsPath m path a) (ht : Holds m path.ptr (node c l a .nil))
    (hne : l ≠ .nil) (hnd : ((node c l a .nil).toList ++ path.nodes).Nodup)
    (hpb : path.Balanced k n) (hb : (node c l a .nil).Balanced k n) :
    ∃ m' t short, rbUnlink fuel a m = some (if short then path.ptr else 0, m') ∧
      Unlinked m' path t short ∧ t.toList = l.toList := by
  obtain ⟨hA, hcell, hl, -⟩ := ht
  have hptr : l.ptr ≠ 0 := by
    cases l with
    | nil => exact absurd rfl hne
    | node d l' e r' => exact hl.1.ne
  have hnot : ∀ d ∈ a :: l.toList, d ∉ path.nodes := fun d hd => notMem_of_count hnd (fun d => by
    simp only [toList_node, toList_nil, List.count_append, List.count_cons]
    omega) hd
  have hndl : l.toList.Nodup := nodup_of_count_le hnd fun d => by
    simp only [toList_node, List.count_append]
    omega
  obtain ⟨rfl, -⟩ := hpb.remove_single (s := .left) hb hne
  let m₁ := m.adopted l path.ptr .black
  have h₁ : m.modify l.ptr (fun n => { n with parentColor := pcWord path.ptr .black }) = some m₁ :=
    RbMem.modify_pc hl hptr
  have hp₁ : HoldsPath m₁ path a := hp.adopted_frame fun d hd hmem => hnot d (by simp [hmem]) hd
  obtain ⟨m', hexec, hp', hframe⟩ := rbChangeChild_spec hp₁ (by
    refine nodup_of_count_le hnd fun d => ?_
    simp only [List.count_append]
    omega) hA.ne (hnot a (by simp)) l.ptr
  have hpc : pcParent (pcWord path.ptr .black) = path.ptr := pcParent_pcWord hp.aligned
  refine ⟨m', paint .black l, false, ?_, .single (s := .left) hp' ?_ hpb hb hne, toList_paint⟩
  · simp only [rbUnlink, Option.bind_eq_bind, RbMem.get_eq hA, Option.bind_some, hcell, cell, hptr,
      ptr_nil, if_true, if_false, hpc, h₁, hexec, Bool.false_eq_true]
  · refine (hl.adopted hndl).congr fun d hd => hframe d ?_
    rw [toList_paint] at hd
    exact hnot d (by simp [hd])

/-- The successor has taken the place of the node, and its child goes up. -/
theorem Unlinked.successor {m' : RbMem} {q : Path ℕ} {y : RbTree ℕ} {cb : Color} {b : ℕ}
    (hp : HoldsPath m' (q.append (.step .right c b l path)) y.ptr)
    (hy : Holds m' (q.ptrOr b) (paint .black y))
    (hb : (path.fill (node c l a (q.fill (node cb .nil b y)))).Balanced .black n) :
    ∃ t short, (if y.ptr = 0 ∧ cb.bit = rbBlack then q.ptrOr b else 0) =
        (if short then (q.append (.step .right c b l path)).ptr else 0) ∧
      Unlinked m' (q.append (.step .right c b l path)) t short ∧ t.toList = y.toList := by
  have hptr : (q.append (.step .right c b l path)).ptr = q.ptrOr b := Path.ptr_append
  have hfill : (q.append (.step .right c a l path)).fill (node cb .nil b y) =
      path.fill (node c l a (q.fill (node cb .nil b y))) := Path.fill_append _ _ _
  rw [← hfill] at hb
  obtain ⟨k, i, hpb, hnode⟩ := Path.Balanced.of_fill hb
  have hpb' : (q.append (.step .right c b l path)).Balanced k i := hpb.replace
  rw [← hptr] at hy ⊢
  cases y with
  | nil =>
      refine ⟨.nil, decide (cb = .black), ?_, .leaf hp hpb' hnode, rfl⟩
      simp [bit_eq_rbBlack]
  | node d l' e r' =>
      have hne : e ≠ 0 := hy.1.ne
      refine ⟨_, false, ?_, .single (s := .right) hp hy hpb' hnode (by simp), rfl⟩
      simp [hne]

/-- The successor leaves its place, and gets the right subtree. -/
theorem detach_spec {p : Path ℕ} {sib y : RbTree ℕ} {ce cb : Color} {b e : ℕ}
    (hq : HoldsSeg m (.step .left ce e sib p) a b) (hsub : Holds m e (node cb .nil b y))
    (ha : 8 ∣ a) (hnd : (b :: (Path.step .left ce e sib p).nodes).Nodup) :
    ∃ m₁ m₂ m₃, m.setChild .left e y.ptr = some m₁ ∧ m₁.setChild .right b (p.top e) = some m₂ ∧
      m₂.rbSetParent (p.top e) b = some m₃ ∧
      m₃.nodes b = cell .left (pcWord e cb) 0 (p.top e) ∧
      HoldsSeg m₃ (.step .left ce e sib p) b y.ptr ∧ m₃.root = m.root ∧
      ∀ d ∉ b :: (Path.step .left ce e sib p).nodes, m₃.nodes d = m.nodes d := by
  obtain ⟨hE, he, hsib, hseg⟩ := hq
  obtain ⟨hB, hb, -, -⟩ := hsub
  rw [List.nodup_cons] at hnd
  obtain ⟨hbq, hndq⟩ := hnd
  have htop : p.top e ∈ (Path.step .left ce e sib p).nodes :=
    Path.top_mem (x := b) (p := .step .left ce e sib p) (by simp)
  have hbe : b ≠ e := by
    rintro rfl
    exact hbq (by simp [Path.nodes])
  obtain ⟨hes, hep⟩ : e ∉ sib.toList ∧ e ∉ p.nodes := by
    simpa [Path.nodes] using (List.nodup_cons.mp hndq).1
  let m₁ := m.put e (cell .left (pcWord (p.ptrOr a) ce) y.ptr sib.ptr)
  let m₂ := m₁.put b (cell .left (pcWord e cb) 0 (p.top e))
  have hb₁ : m₁.nodes b = cell .left (pcWord e cb) 0 y.ptr := by
    rw [RbMem.put_of_ne hbe, hb]
    rfl
  have hseg₁ : HoldsSeg m₁ (.step .left ce e sib p) a y.ptr :=
    ⟨hE, RbMem.put_self, hsib.put hes, hseg.put hep⟩
  obtain ⟨m₃, h₃, hseg₃, hroot, hframe⟩ := (hseg₁.put (b := b)
    (n := cell .left (pcWord e cb) 0 (p.top e)) hbq).rbSetParent (by simp) hndq ha b
  refine ⟨m₁, m₂, m₃, RbMem.setChild_eq hE he, RbMem.setChild_flip_eq (s := .left) hB hb₁, h₃, ?_,
    hseg₃, hroot, ?_⟩
  · rw [hframe b (fun heq => hbq (heq ▸ htop)), RbMem.put_self]
  · intro d hd
    simp only [List.mem_cons, not_or] at hd
    have hde : d ≠ e := by
      rintro rfl
      exact hd.2 (by simp [Path.nodes])
    rw [hframe d (fun heq => hd.2 (heq ▸ htop)), RbMem.put_of_ne hd.1, RbMem.put_of_ne hde]

/-- Two children: the successor is the right child, or further down. -/
theorem rbUnlink_two (hp : HoldsPath m path a) (ht : Holds m path.ptr (node c l a r))
    (hlne : l ≠ .nil) (hrne : r ≠ .nil) (hnd : ((node c l a r).toList ++ path.nodes).Nodup)
    (hb : (path.fill (node c l a r)).Balanced .black n) (hfuel : r.toList.length < fuel) :
    ∃ (m' : RbMem) (q : Path ℕ) (b : ℕ) (t : RbTree ℕ) (short : Bool), rbUnlink fuel a m =
        some (if short then (q.append (.step .right c b l path)).ptr else 0, m') ∧
      Unlinked m' (q.append (.step .right c b l path)) t short ∧
      r.toList = b :: (q.fill t).toList := by
  obtain ⟨hA, hcell, hl, hr⟩ := ht
  have hlptr : l.ptr ≠ 0 := by
    cases l with
    | nil => exact absurd rfl hlne
    | node d l' e r' => exact hl.1.ne
  cases r with
  | nil => exact absurd rfl hrne
  | node cr rl rb rr =>
  have hrb := hr
  obtain ⟨hRB, hrcell, hrl, hrr⟩ := hrb
  rw [ptr_node] at hcell
  have hstart : rbUnlink fuel a m = if rl.ptr = 0 then m.replaceNode a rb rb rr.ptr
      else (successorLoop fuel rb rl.ptr m).bind fun x => (m.get x.2).bind fun n =>
        (m.setChild .left x.1 n.right).bind fun m => (m.setChild .right x.2 rb).bind fun m =>
          (m.rbSetParent rb x.2).bind fun m => m.replaceNode a x.1 x.2 n.right := by
    simp only [rbUnlink, Option.bind_eq_bind, RbMem.get_eq hA, Option.bind_some, hcell, cell, hlptr,
      if_false, hRB.ne, RbMem.get_eq hRB, hrcell]
  by_cases hnil : rl = .nil
  · subst hnil
    have hnd' : (a :: rb :: (l.toList ++ ((Path.root : Path ℕ).nodes ++
        (rr.toList ++ path.nodes)))).Nodup := by
      refine nodup_of_count_le hnd fun d => ?_
      simp only [toList_node, toList_nil, Path.nodes, List.nil_append, List.count_append,
        List.count_cons]
      omega
    obtain ⟨m', hexec, hp', hy'⟩ := replaceNode_spec (q := .root) hp hA hcell hl hlptr hRB hrcell
      trivial hrr hnd'
    rw [pcColor_pcWord hA.aligned] at hexec
    obtain ⟨t, short, hif, hun, hlist⟩ := Unlinked.successor (q := .root) hp' hy' hb
    refine ⟨m', .root, rb, t, short, ?_, hun, ?_⟩
    · rw [hstart, ptr_nil, if_pos rfl, ← hif]
      exact hexec
    · simp [Path.fill, hlist]
  · have hrlptr : rl.ptr ≠ 0 := by
      cases rl with
      | nil => exact absurd rfl hnil
      | node d l' e r' => exact hrl.1.ne
    have hlen : rl.toList.length < fuel := by
      simp only [toList_node, List.length_append, List.length_cons] at hfuel
      omega
    obtain ⟨p, cb, b, y, ce, e, sib, hloop, hfill, hbefore⟩ := successorLoop_spec (r := rr) (c := cr)
      hrl hnil (show (Path.root : Path ℕ).before = [] from rfl) hlen
    have htree : (Path.step .left ce e sib p).fill (node cb .nil b y) = node cr rl rb rr := hfill
    rw [← htree] at hr hb hnd
    obtain ⟨hseg, hsub⟩ := holds_fill_seg.mp hr
    rw [ptr_node] at hseg
    have htop : p.top e = rb := by
      have := congrArg RbTree.ptr htree
      rwa [Path.ptr_fill] at this
    have hcount : ∀ d, ((Path.step .left ce e sib p).fill (node cb .nil b y)).toList.count d =
        (b :: (y.toList ++ (Path.step .left ce e sib p).nodes)).count d := by
      intro d
      rw [(Path.toList_fill_perm _ _).count_eq]
      rfl
    have hnd' : (a :: b :: (l.toList ++ ((Path.step .left ce e sib p).nodes ++
        (y.toList ++ path.nodes)))).Nodup := by
      refine nodup_of_count_le hnd fun d => ?_
      simp only [toList_node, hcount, List.count_append, List.count_cons]
      omega
    obtain ⟨m₁, m₂, m₃, h₁, h₂, h₃, hb₃, hseg₃, hroot, hframe⟩ := detach_spec hseg hsub hA.aligned (by
      refine nodup_of_count_le hnd' fun d => ?_
      simp only [List.count_append, List.count_cons]
      omega)
    have hout : ∀ d ∈ a :: (l.toList ++ (y.toList ++ path.nodes)), m₃.nodes d = m.nodes d := by
      refine fun d hd => hframe d (notMem_of_count hnd' (fun d => ?_) hd)
      simp only [List.count_append, List.count_cons]
      omega
    obtain ⟨m', hexec, hp', hy'⟩ := replaceNode_spec
      (hp.congr hroot fun d hd => hout d (by simp [hd])) hA
      ((hout a (by simp)).trans hcell) (hl.congr fun d hd => hout d (by simp [hd])) hlptr hsub.1 hb₃
      hseg₃ (hsub.2.2.2.congr fun d hd => hout d (by simp [hd])) hnd'
    rw [pcColor_pcWord hseg.1.aligned] at hexec
    obtain ⟨t, short, hif, hun, hlist⟩ := Unlinked.successor hp' hy' hb
    refine ⟨m', _, b, t, short, ?_, hun, ?_⟩
    · have hright : (m.nodes b).right = y.ptr := by
        rw [hsub.2.1]
        rfl
      rw [htop] at h₂ h₃
      rw [hstart, if_neg hrlptr, hloop, ← hif, ← hexec]
      simp only [Option.bind_some, RbMem.get_eq hsub.1, hright, h₁, h₂, h₃]
      rfl
    · rw [← htree, Path.toList_fill, Path.toList_fill, hlist]
      simp [Path.before, hbefore]

/-- **`__rb_erase` takes the node out of the order**, and says where a black node is lacking. -/
theorem rbUnlink_spec (hp : HoldsPath m path a) (ht : Holds m path.ptr (node c l a r))
    (hnd : ((node c l a r).toList ++ path.nodes).Nodup)
    (hb : (path.fill (node c l a r)).Balanced .black n)
    (hfuel : (node c l a r).toList.length < fuel) :
    ∃ (m' : RbMem) (q : Path ℕ) (t : RbTree ℕ) (short : Bool),
      rbUnlink fuel a m = some (if short then q.ptr else 0, m') ∧ Unlinked m' q t short ∧
      (q.fill t).toList = path.before ++ (l.toList ++ r.toList) ++ path.after := by
  obtain ⟨k, i, hpb, hnode⟩ := Path.Balanced.of_fill hb
  by_cases hl : l = .nil
  · subst hl
    obtain ⟨m', t, short, hexec, hun, hlist⟩ := rbUnlink_right hp ht hnd hpb hnode
    exact ⟨m', path, t, short, hexec, hun, by simp [Path.toList_fill, hlist]⟩
  · by_cases hr : r = .nil
    · subst hr
      obtain ⟨m', t, short, hexec, hun, hlist⟩ := rbUnlink_left hp ht hl hnd hpb hnode
      exact ⟨m', path, t, short, hexec, hun, by simp [Path.toList_fill, hlist]⟩
    · obtain ⟨m', q, b, t, short, hexec, hun, hlist⟩ := rbUnlink_two hp ht hl hr hnd hb (by
        simp only [toList_node, List.length_append, List.length_cons] at hfuel
        omega : r.toList.length < fuel)
      refine ⟨m', _, t, short, hexec, hun, ?_⟩
      rw [Path.fill_append, Path.fill, Path.toList_fill, hlist]
      simp [Side.pick]

end Shapes

end OsLab
