import OsLab.Common.RbTree
import Mathlib.Data.List.Nodup

/-!
# Trees in memory

What it means that a tree of addresses lies in the memory of nodes, with its parent links and
colours, and how the writes of `rbtree.c` act on it.

The tree is cut at the place where the code works: a `Path` lies in memory with a pointer in
its hole, and the subtrees lie in memory below their parents.  A write to a node concerns
only the part it belongs to.

## Main definitions

* `cell` — the contents of a node, seen from one side.
* `Holds m p t` — the tree `t` lies below the node `p`.
* `HoldsPath m p q` — the path `p` lies in memory, with the pointer `q` in its hole.
* `HoldsTree` — a whole tree, with its root.
-/

namespace OsLab

/-- The address of a node. -/
structure IsNode (a : ℕ) : Prop where
  ne : a ≠ 0
  aligned : 8 ∣ a

/-- The colour as `__rb_parent_color` has it. -/
def Color.bit : Color → ℕ
  | .red => rbRed
  | .black => rbBlack

/-- The word for the parent `p` and the colour `c`. -/
def pcWord (p : ℕ) (c : Color) : ℕ := p ||| c.bit

section Word

variable {p : ℕ} {c : Color}

theorem pcWord_eq (h : 8 ∣ p) : pcWord p c = p + c.bit := by
  obtain ⟨k, rfl⟩ := h
  cases c with
  | red => simp [pcWord, Color.bit, rbRed]
  | black =>
      have := Nat.two_pow_add_eq_or_of_lt (i := 3) (b := 1) (by decide) k
      simpa [pcWord, Color.bit, rbBlack] using this.symm

theorem pcParent_pcWord (h : 8 ∣ p) : pcParent (pcWord p c) = p := by
  rw [pcWord_eq h]
  obtain ⟨k, rfl⟩ := h
  cases c <;> simp only [pcParent, Color.bit, rbRed, rbBlack] <;> omega

theorem pcColor_pcWord (h : 8 ∣ p) : pcColor (pcWord p c) = c.bit := by
  rw [pcWord_eq h]
  obtain ⟨k, rfl⟩ := h
  cases c <;> simp only [pcColor, Color.bit, rbRed, rbBlack] <;> omega

@[simp] theorem pcWord_red : pcWord p .red = p := by simp [pcWord, Color.bit, rbRed]

theorem bit_eq_rbRed : c.bit = rbRed ↔ c = .red := by cases c <;> simp [Color.bit, rbRed, rbBlack]

theorem bit_eq_rbBlack : c.bit = rbBlack ↔ c = .black := by
  cases c <;> simp [Color.bit, rbRed, rbBlack]

theorem pcWord_or_black : pcWord p c ||| rbBlack = pcWord p .black := by
  cases c <;> simp [pcWord, Color.bit, rbRed, rbBlack]

theorem bit_or : c.bit ||| p = pcWord p c := Nat.or_comm _ _

end Word

/-! ## Nodes -/

/-- The contents of a node, seen from the side `s`. -/
def cell (s : Side) (w near far : ℕ) : RbNode :=
  match s with
  | .left => ⟨w, far, near⟩
  | .right => ⟨w, near, far⟩

section Cell

variable {s : Side} {w w' near far v : ℕ}

@[simp] theorem cell_parentColor : (cell s w near far).parentColor = w := by cases s <;> rfl
@[simp] theorem cell_child : (cell s w near far).child s = near := by cases s <;> rfl
@[simp] theorem cell_child_flip : (cell s w near far).child s.flip = far := by cases s <;> rfl
@[simp] theorem cell_setChild : (cell s w near far).setChild s v = cell s w v far := by
  cases s <;> rfl
@[simp] theorem cell_setChild_flip : (cell s w near far).setChild s.flip v = cell s w near v := by
  cases s <;> rfl
@[simp] theorem cell_setPc :
    { cell s w near far with parentColor := w' } = cell s w' near far := by cases s <;> rfl

theorem cell_flip : cell s.flip w near far = cell s w far near := by cases s <;> rfl

end Cell

namespace RbMem

variable {m : RbMem} {a b p : ℕ} {n n' : RbNode} {c : Color} {s : Side} {w x y v : ℕ}

@[simp] theorem put_self : (m.put a n).nodes a = n := Function.update_self ..
theorem put_of_ne (h : b ≠ a) : (m.put a n).nodes b = m.nodes b := Function.update_of_ne h ..
@[simp] theorem put_root : (m.put a n).root = m.root := rfl

theorem get_eq (h : IsNode a) : m.get a = some (m.nodes a) := if_neg h.ne

theorem modify_eq (h : IsNode a) (f : RbNode → RbNode) :
    m.modify a f = some (m.put a (f (m.nodes a))) := if_neg h.ne

theorem setChild_eq (h : IsNode a) (hc : m.nodes a = cell s w x y) :
    m.setChild s a v = some (m.put a (cell s w v y)) := by
  rw [setChild, modify_eq h, hc, cell_setChild]

theorem setChild_flip_eq (h : IsNode a) (hc : m.nodes a = cell s w x y) :
    m.setChild s.flip a v = some (m.put a (cell s w x v)) := by
  rw [setChild, modify_eq h, hc, cell_setChild_flip]

theorem rbSetParentColor_eq (h : IsNode a) (hc : m.nodes a = cell s w x y) :
    m.rbSetParentColor a p c.bit = some (m.put a (cell s (pcWord p c) x y)) := by
  rw [rbSetParentColor, modify_eq h, hc, cell_setPc]
  rfl

end RbMem

/-- A list with no more of anything than one without duplicates. -/
theorem nodup_of_count_le {l l' : List ℕ} (h : l'.Nodup) (hc : ∀ a, l.count a ≤ l'.count a) :
    l.Nodup := by
  rw [List.nodup_iff_count_le_one] at h ⊢
  exact fun a => (hc a).trans (h a)

/-- Two parts of a list without duplicates have nothing in common. -/
theorem notMem_of_count {l x y : List ℕ} (h : l.Nodup) (hc : ∀ a, x.count a + y.count a ≤ l.count a)
    {a : ℕ} (ha : a ∈ x) : a ∉ y := by
  intro hy
  have h1 := List.nodup_iff_count_le_one.mp h a
  have h2 := List.count_pos_iff.mpr ha
  have h3 := List.count_pos_iff.mpr hy
  have := hc a
  omega

/-! ## Trees and paths -/

/-- The pointer to a tree. -/
def RbTree.ptr : RbTree ℕ → ℕ
  | .nil => 0
  | .node _ _ a _ => a

@[simp] theorem RbTree.ptr_nil : (RbTree.nil : RbTree ℕ).ptr = 0 := rfl

@[simp] theorem RbTree.ptr_node {c : Color} {l r : RbTree ℕ} {a : ℕ} :
    (RbTree.node c l a r).ptr = a := rfl

@[simp] theorem RbTree.ptr_mk {s : Side} {c : Color} {x y : RbTree ℕ} {a : ℕ} :
    (RbTree.mk s c x a y).ptr = a := by cases s <;> rfl

@[simp] theorem RbTree.ptr_paint {c : Color} {t : RbTree ℕ} : (RbTree.paint c t).ptr = t.ptr := by
  cases t <;> rfl

/-- The node above the hole. -/
def Path.ptr : Path ℕ → ℕ
  | .root => 0
  | .step _ _ a _ _ => a

@[simp] theorem Path.ptr_root : (Path.root : Path ℕ).ptr = 0 := rfl

@[simp] theorem Path.ptr_step {s : Side} {c : Color} {a : ℕ} {sib : RbTree ℕ} {up : Path ℕ} :
    (Path.step s c a sib up).ptr = a := rfl

open RbTree

/-- The tree lies in memory below the node `p`. -/
def Holds (m : RbMem) : ℕ → RbTree ℕ → Prop
  | _, .nil => True
  | p, .node c l a r =>
      IsNode a ∧ m.nodes a = cell .left (pcWord p c) l.ptr r.ptr ∧ Holds m a l ∧ Holds m a r

/-- The path lies in memory, with the pointer `q` in its hole. -/
def HoldsPath (m : RbMem) : Path ℕ → ℕ → Prop
  | .root, q => m.root = q
  | .step s c a sib up, q =>
      IsNode a ∧ m.nodes a = cell s (pcWord up.ptr c) q sib.ptr ∧ Holds m a sib ∧ HoldsPath m up a

/-- The whole tree lies in memory. -/
def HoldsTree (m : RbMem) (t : RbTree ℕ) : Prop := m.root = t.ptr ∧ Holds m 0 t

section Holds

variable {m m' : RbMem} {p q a b : ℕ} {t x y sib : RbTree ℕ} {path up : Path ℕ} {c d : Color}
  {s : Side} {n : RbNode}

theorem holds_mk : Holds m p (mk s c x a y) ↔
    IsNode a ∧ m.nodes a = cell s (pcWord p c) x.ptr y.ptr ∧ Holds m a x ∧ Holds m a y := by
  cases s with
  | left => exact Iff.rfl
  | right =>
      simp only [mk, Holds, cell]
      exact and_congr_right fun _ => and_congr_right fun _ => and_comm

/-- **A tree cut at a path.** -/
theorem holds_fill : HoldsTree m (path.fill t) ↔ HoldsPath m path t.ptr ∧ Holds m path.ptr t := by
  induction path generalizing t with
  | root => exact Iff.rfl
  | step s c a sib up ih =>
      rw [Path.fill, ih, holds_mk, ptr_mk, HoldsPath, Path.ptr_step]
      tauto

theorem count_mk : (mk s c x a y).toList.count b =
    x.toList.count b + y.toList.count b + if a == b then 1 else 0 := by
  rw [toList_mk_perm.count_eq, List.count_cons, List.count_append]

/-- The nodes of a tree have addresses. -/
theorem Holds.isNode (h : Holds m p t) (ha : a ∈ t.toList) : IsNode a := by
  induction t generalizing p with
  | nil => cases ha
  | node c l b r ihl ihr =>
      obtain ⟨hb, -, hl, hr⟩ := h
      simp only [toList_node, List.mem_append, List.mem_cons] at ha
      rcases ha with ha | rfl | ha
      · exact ihl hl ha
      · exact hb
      · exact ihr hr ha

theorem ptr_mem (h : t.ptr ≠ 0) : t.ptr ∈ t.toList := by
  cases t with
  | nil => exact absurd rfl h
  | node c l a r => simp

theorem HoldsPath.aligned (h : HoldsPath m path q) : 8 ∣ path.ptr := by
  cases path with
  | root => exact Dvd.intro_left 0 rfl
  | step s c a sib up => exact h.1.aligned

/-- Only the nodes of the tree matter. -/
theorem Holds.congr (h : Holds m p t) (heq : ∀ a ∈ t.toList, m'.nodes a = m.nodes a) :
    Holds m' p t := by
  induction t generalizing p with
  | nil => trivial
  | node c l b r ihl ihr =>
      obtain ⟨hb, hcell, hl, hr⟩ := h
      refine ⟨hb, by rw [heq b (by simp), hcell], ihl hl ?_, ihr hr ?_⟩
      · exact fun a ha => heq a (by simp [ha])
      · exact fun a ha => heq a (by simp [ha])

theorem HoldsPath.congr (h : HoldsPath m path q) (hroot : m'.root = m.root)
    (heq : ∀ a ∈ path.nodes, m'.nodes a = m.nodes a) : HoldsPath m' path q := by
  induction path generalizing q with
  | root => exact hroot.trans h
  | step s c b sib up ih =>
      obtain ⟨hb, hcell, hs, hup⟩ := h
      refine ⟨hb, by rw [heq b (by simp [Path.nodes]), hcell], hs.congr ?_, ih hup ?_⟩
      · exact fun a ha => heq a (by simp [Path.nodes, ha])
      · exact fun a ha => heq a (by simp [Path.nodes, ha])

theorem Holds.put (h : Holds m p t) (ha : a ∉ t.toList) : Holds (m.put a n) p t :=
  h.congr fun _ hb => RbMem.put_of_ne fun heq => ha (heq ▸ hb)

theorem HoldsPath.put (h : HoldsPath m path q) (ha : a ∉ path.nodes) :
    HoldsPath (m.put a n) path q :=
  h.congr rfl fun _ hb => RbMem.put_of_ne fun heq => ha (heq ▸ hb)

/-- A tree gets another parent and colour. -/
theorem Holds.reparent {l r : RbTree ℕ} (h : Holds m p (.node c l a r))
    (hnd : (RbTree.node c l a r).toList.Nodup) (q : ℕ) (d : Color) :
    Holds (m.put a (cell .left (pcWord q d) l.ptr r.ptr)) q (.node d l a r) := by
  obtain ⟨ha, -, hl, hr⟩ := h
  simp only [toList_node, List.nodup_append, List.nodup_cons] at hnd
  obtain ⟨-, ⟨har, -⟩, hdisj⟩ := hnd
  have hal : a ∉ l.toList := fun hmem => hdisj a hmem a (by simp) rfl
  exact ⟨ha, RbMem.put_self, hl.put hal, hr.put har⟩

end Holds

/-! ## Adoption -/

namespace RbMem

/-- The memory after `adopt`. -/
def adopted (m : RbMem) (t : RbTree ℕ) (p : ℕ) (c : Color) : RbMem :=
  match t with
  | .nil => m
  | .node _ l a r => m.put a (cell .left (pcWord p c) l.ptr r.ptr)

variable {m : RbMem} {t : RbTree ℕ} {p q a : ℕ} {c : Color}

theorem adopt_eq (h : Holds m q t) : m.adopt t.ptr p c.bit = some (m.adopted t p c) := by
  cases t with
  | nil => rfl
  | node d l a r =>
      rw [adopt, ptr_node, if_neg h.1.ne, rbSetParentColor_eq h.1 h.2.1]
      rfl

/-- `rb_set_parent_color` on the root of a tree. -/
theorem rbSetParentColor_ptr (h : Holds m q t) (ht : t ≠ .nil) :
    m.rbSetParentColor t.ptr p c.bit = some (m.adopted t p c) := by
  cases t with
  | nil => exact absurd rfl ht
  | node d l a r => exact rbSetParentColor_eq h.1 h.2.1

/-- `rb_set_parent` on the root of a tree, which keeps its colour. -/
theorem reparent_eq (h : Holds m q t) (hq : 8 ∣ q) :
    m.reparent t.ptr p = some (m.adopted t p t.color) := by
  cases t with
  | nil => rfl
  | node d l a r =>
      rw [reparent, ptr_node, if_neg h.1.ne, rbSetParent, modify_eq h.1, h.2.1, cell_parentColor,
        pcColor_pcWord hq, bit_or, cell_setPc]
      rfl

theorem isRed_ptr (h : Holds m q t) (hq : 8 ∣ q) : m.isRed t.ptr = true ↔ t.color = .red := by
  cases t with
  | nil => simp [isRed, color]
  | node d l a r => simp [isRed, color, h.1.ne, h.2.1, pcColor_pcWord hq, bit_eq_rbRed]

theorem adopted_of_notMem (h : a ∉ t.toList) : (m.adopted t p c).nodes a = m.nodes a := by
  cases t with
  | nil => rfl
  | node d l b r =>
      apply put_of_ne
      rintro rfl
      simp at h

@[simp] theorem adopted_root : (m.adopted t p c).root = m.root := by cases t <;> rfl

end RbMem

section Adopted

variable {m : RbMem} {t t' : RbTree ℕ} {path : Path ℕ} {p p' q : ℕ} {c : Color}

theorem Holds.adopted (h : Holds m q t) (hnd : t.toList.Nodup) :
    Holds (m.adopted t p c) p (paint c t) := by
  cases t with
  | nil => trivial
  | node d l a r => exact h.reparent hnd p c

/-- A tree gets another parent. -/
theorem Holds.adopted_color (h : Holds m q t) (hnd : t.toList.Nodup) (hc : t.color = c) :
    Holds (m.adopted t p c) p t := by
  have := h.adopted (p := p) (c := c) hnd
  rwa [paint_color hc] at this

theorem Holds.adopted_frame (h : Holds m p' t') (hd : ∀ a ∈ t'.toList, a ∉ t.toList) :
    Holds (m.adopted t p c) p' t' :=
  h.congr fun a ha => RbMem.adopted_of_notMem (hd a ha)

theorem HoldsPath.adopted_frame (h : HoldsPath m path q) (hd : ∀ a ∈ path.nodes, a ∉ t.toList) :
    HoldsPath (m.adopted t p c) path q :=
  h.congr RbMem.adopted_root fun a ha => RbMem.adopted_of_notMem (hd a ha)

end Adopted

/-! ## The child of the node above -/

section ChangeChild

variable {m : RbMem} {up : Path ℕ} {old new x y : ℕ} {c k : Color} {s : Side}

/-- **`__rb_change_child` changes what is in the hole.** -/
theorem rbChangeChild_spec (h : HoldsPath m up old) (hnd : up.nodes.Nodup) (hold : old ≠ 0)
    (hnot : old ∉ up.nodes) (new : ℕ) :
    ∃ m', m.rbChangeChild old new up.ptr = some m' ∧ HoldsPath m' up new ∧
      ∀ b ∉ up.nodes, m'.nodes b = m.nodes b := by
  cases up with
  | root => exact ⟨_, rfl, rfl, fun _ _ => rfl⟩
  | step s c a sib up =>
      obtain ⟨ha, hcell, hs, hup⟩ := h
      simp only [Path.nodes, List.nodup_cons, List.mem_append, not_or] at hnd
      simp only [Path.nodes, List.mem_cons, List.mem_append, not_or] at hnot
      have hput : HoldsPath (m.put a (cell s (pcWord up.ptr c) new sib.ptr)) (.step s c a sib up) new :=
        ⟨ha, RbMem.put_self, hs.put hnd.1.1, hup.put hnd.1.2⟩
      refine ⟨_, ?_, hput, ?_⟩
      · rw [RbMem.rbChangeChild, Path.ptr_step, if_neg ha.ne, RbMem.get_eq ha, Option.bind_eq_bind,
          Option.bind_some, hcell]
        cases s with
        | left =>
            rw [if_pos (by rfl)]
            exact RbMem.setChild_eq ha hcell
        | right =>
            -- the sibling is another node
            have hsib : (cell .right (pcWord up.ptr c) old sib.ptr).left ≠ old := by
              intro heq
              have hmem : sib.ptr ∈ sib.toList := ptr_mem fun h0 => hold (heq ▸ h0)
              exact hnot.2.1 (heq ▸ hmem)
            rw [if_neg hsib]
            exact RbMem.setChild_eq ha hcell
      · intro b hb
        apply RbMem.put_of_ne
        rintro rfl
        simp [Path.nodes] at hb

/-- **`__rb_rotate_set_parents` puts `new` in the place of `old`**, which becomes its child. -/
theorem rbRotateSetParents_spec (h : HoldsPath m up old) (hnd : up.nodes.Nodup) (hold : IsNode old)
    (hnew : IsNode new) (hne : new ≠ old) (hnot : old ∉ up.nodes) (hnot' : new ∉ up.nodes)
    {x y x' y' w' : ℕ} {s s' : Side} (hcell : m.nodes old = cell s (pcWord up.ptr c) x y)
    (hcell' : m.nodes new = cell s' w' x' y') (k : Color) :
    ∃ m', m.rbRotateSetParents old new k.bit = some m' ∧ HoldsPath m' up new ∧
      m'.nodes old = cell s (pcWord new k) x y ∧ m'.nodes new = cell s' (pcWord up.ptr c) x' y' ∧
      ∀ b, b ∉ up.nodes → b ≠ old → b ≠ new → m'.nodes b = m.nodes b := by
  have halign := h.aligned
  have hpath : HoldsPath ((m.put new (cell s' (pcWord up.ptr c) x' y')).put old
      (cell s (pcWord new k) x y)) up old := (h.put hnot').put hnot
  obtain ⟨m', hchange, hup, hframe⟩ := rbChangeChild_spec hpath hnd hold.ne hnot new
  refine ⟨m', ?_, hup, ?_, ?_, ?_⟩
  · rw [RbMem.rbRotateSetParents, RbMem.get_eq hold, Option.bind_eq_bind, Option.bind_some, hcell,
      RbMem.modify_eq hnew, hcell', cell_setPc, cell_parentColor, pcParent_pcWord halign,
      Option.bind_eq_bind, Option.bind_some,
      RbMem.rbSetParentColor_eq (s := s) hold (by rw [RbMem.put_of_ne hne.symm, hcell]),
      Option.bind_some, hchange]
  · rw [hframe old hnot, RbMem.put_self]
  · rw [hframe new hnot', RbMem.put_of_ne hne, RbMem.put_self]
  · intro b hb hbo hbn
    rw [hframe b hb, RbMem.put_of_ne hbo, RbMem.put_of_ne hbn]

end ChangeChild

end OsLab
