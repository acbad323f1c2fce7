import Mathlib.Data.List.Basic
import Mathlib.Tactic.Common

/-!
# Red-black trees and paths into them

Insertion and deletion that go back up the tree: a `Path` is what surrounds a subtree, and
the two repairs walk along it.  Every step of them has a mirror image, and `mk s` writes a
node with its two subtrees as they are seen from the side `s`.

## Main definitions

* `RbTree`, `RbTree.Balanced t c n` — a tree with root of colour `c` and black height `n`.
* `Path`, `Path.fill`, `Path.Balanced` — a tree with a hole.
* `insFix` — put a red node into a hole for a black one.
* `eraseFix` — put a tree into a hole for one of black height one more.
* `toList_insFix`, `toList_eraseFix` — the order of the nodes stays.
* `Balanced.insFix`, `Balanced.eraseFix` — the results are balanced.
-/

namespace OsLab

universe u
variable {α : Type u}

inductive Color
  | red
  | black
  deriving DecidableEq, Repr

inductive Side
  | left
  | right
  deriving DecidableEq, Repr

/-- The other side. -/
def Side.flip : Side → Side
  | .left => .right
  | .right => .left

@[simp] theorem Side.flip_flip (s : Side) : s.flip.flip = s := by cases s <;> rfl

@[simp] theorem Side.flip_ne (s : Side) : s.flip ≠ s := by cases s <;> simp [flip]

theorem Side.eq_flip {s s' : Side} (h : s ≠ s') : s = s'.flip := by
  cases s <;> cases s' <;> simp_all [flip]

/-- The one of two that is on the side `s`. -/
def Side.pick {β : Type*} : Side → β → β → β
  | .left, l, _ => l
  | .right, _, r => r

inductive RbTree (α : Type u)
  | nil
  | node (c : Color) (l : RbTree α) (a : α) (r : RbTree α)
  deriving Repr

namespace RbTree

/-- A node seen from the side `s`. -/
def mk (s : Side) (c : Color) (near : RbTree α) (a : α) (far : RbTree α) : RbTree α :=
  match s with
  | .left => node c near a far
  | .right => node c far a near

def toList : RbTree α → List α
  | nil => []
  | node _ l a r => l.toList ++ a :: r.toList

/-- The colour of the root; an empty tree is black. -/
def color : RbTree α → Color
  | nil => .black
  | node c _ _ _ => c

/-- Give the root a colour. -/
def paint (c : Color) : RbTree α → RbTree α
  | nil => nil
  | node _ l a r => node c l a r

/-- **No red node has a red child, and every path down meets `n` black nodes.** -/
inductive Balanced : RbTree α → Color → ℕ → Prop
  | nil : Balanced nil .black 0
  | red {l r : RbTree α} {a : α} {n : ℕ} :
      Balanced l .black n → Balanced r .black n → Balanced (node .red l a r) .red n
  | black {l r : RbTree α} {a : α} {c d : Color} {n : ℕ} :
      Balanced l c n → Balanced r d n → Balanced (node .black l a r) .black (n + 1)

variable {t l r x y : RbTree α} {a b : α} {c d : Color} {n : ℕ} {s : Side}

@[simp] theorem toList_nil : (nil : RbTree α).toList = [] := rfl

@[simp] theorem toList_node : (node c l a r).toList = l.toList ++ a :: r.toList := rfl

@[simp] theorem toList_mk :
    (mk s c x a y).toList = s.pick (x.toList ++ a :: y.toList) (y.toList ++ a :: x.toList) := by
  cases s <;> rfl

theorem toList_mk_perm : (mk s c x a y).toList.Perm (a :: (x.toList ++ y.toList)) := by
  cases s with
  | left => exact List.perm_middle
  | right => exact List.perm_middle.trans (List.perm_append_comm.cons a)

@[simp] theorem toList_paint : (paint c t).toList = t.toList := by cases t <;> rfl

@[simp] theorem color_mk : (mk s c x a y).color = c := by cases s <;> rfl

theorem color_of_ne (h : t.color ≠ .red) : t.color = .black := by
  cases hc : t.color with
  | red => exact absurd hc h
  | black => rfl

theorem paint_color (h : t.color = c) : paint c t = t := by
  cases t with
  | nil => rfl
  | node d l a r => rw [paint, ← h, color]

@[simp] theorem mk_ne_nil : mk s c x a y ≠ nil := by cases s <;> simp [mk]

theorem mk_pick (s : Side) : mk s c (s.pick l r) a (s.flip.pick l r) = node c l a r := by
  cases s <;> rfl

namespace Balanced

theorem color_eq (h : t.Balanced c n) : t.color = c := by cases h <;> rfl

theorem mk_red (hx : x.Balanced .black n) (hy : y.Balanced .black n) :
    (mk s .red x a y).Balanced .red n := by
  cases s
  · exact .red hx hy
  · exact .red hy hx

theorem mk_black (hx : x.Balanced c n) (hy : y.Balanced d n) :
    (mk s .black x a y).Balanced .black (n + 1) := by
  cases s
  · exact .black hx hy
  · exact .black hy hx

/-- A red tree with a black root. -/
theorem paint_black (h : t.Balanced .red n) : (paint .black t).Balanced .black (n + 1) := by
  cases h with
  | red hl hr => exact .black hl hr

theorem pick {s : Side} (hl : l.Balanced c n) (hr : r.Balanced c n) :
    (s.pick l r).Balanced c n := by
  cases s
  · exact hl
  · exact hr

theorem exists_pick (s : Side) (hl : l.Balanced c n) (hr : r.Balanced d n) :
    ∃ e, (s.pick l r).Balanced e n := by
  cases s
  · exact ⟨_, hl⟩
  · exact ⟨_, hr⟩

end Balanced

end RbTree

open RbTree

/-- A tree with a hole: going up, the side of the hole, the node there and its other subtree. -/
inductive Path (α : Type u)
  | root
  | step (s : Side) (c : Color) (a : α) (sib : RbTree α) (up : Path α)

namespace Path

/-- Put a tree into the hole. -/
def fill : Path α → RbTree α → RbTree α
  | root, t => t
  | step s c a sib up, t => up.fill (mk s c t a sib)

/-- What comes before the hole, and what comes after it. -/
def before : Path α → List α
  | root => []
  | step .left _ _ _ up => up.before
  | step .right _ a sib up => up.before ++ (sib.toList ++ [a])

def after : Path α → List α
  | root => []
  | step .left _ a sib up => a :: sib.toList ++ up.after
  | step .right _ _ _ up => up.after

/-- The nodes on the path and beside it. -/
def nodes : Path α → List α
  | root => []
  | step _ _ a sib up => a :: (sib.toList ++ up.nodes)

/-- A path into the hole of another one. -/
def append : Path α → Path α → Path α
  | root, q => q
  | step s c a sib up, q => step s c a sib (up.append q)

/-- A tree of colour `c` and black height `n` makes the whole balanced, with a black root. -/
inductive Balanced : Path α → Color → ℕ → Prop
  | root {n : ℕ} : Balanced root .black n
  | red {s : Side} {a : α} {sib : RbTree α} {up : Path α} {n : ℕ} :
      sib.Balanced .black n → up.Balanced .red n → Balanced (step s .red a sib up) .black n
  | black {s : Side} {a : α} {sib : RbTree α} {up : Path α} {c d : Color} {n : ℕ} :
      sib.Balanced d n → up.Balanced .black (n + 1) → Balanced (step s .black a sib up) c n

variable {p : Path α} {t t' : RbTree α} {c : Color} {n : ℕ}

/-- **A path adds to the order of its hole on both sides.** -/
theorem toList_fill (p : Path α) (t : RbTree α) :
    (p.fill t).toList = p.before ++ (t.toList ++ p.after) := by
  induction p generalizing t with
  | root => simp [fill, before, after]
  | step s c a sib up ih =>
      cases s
      · simp [fill, ih, before, after, Side.pick]
      · simp [fill, ih, before, after, Side.pick]

theorem toList_fill_perm (p : Path α) (t : RbTree α) :
    (p.fill t).toList.Perm (t.toList ++ p.nodes) := by
  induction p generalizing t with
  | root => simp [fill, nodes]
  | step s c a sib up ih =>
      apply (ih _).trans
      rw [nodes, ← List.cons_append, ← List.append_assoc]
      apply List.Perm.append_right
      cases s
      · simp [Side.pick]
      · rw [toList_mk, Side.pick]
        exact List.perm_append_comm.trans (by simpa using List.perm_middle.symm)

theorem toList_fill_congr (h : t.toList = t'.toList) : (p.fill t).toList = (p.fill t').toList := by
  rw [toList_fill, toList_fill, h]

theorem fill_append (p q : Path α) (t : RbTree α) : (p.append q).fill t = q.fill (p.fill t) := by
  induction p generalizing t with
  | root => rfl
  | step s c a sib up ih => exact ih _

/-- A node of the tree is the root of a subtree. -/
theorem exists_fill {a : α} (h : a ∈ t.toList) :
    ∃ (p : Path α) (c : Color) (l r : RbTree α), p.fill (node c l a r) = t := by
  induction t with
  | nil => cases h
  | node d l b r ihl ihr =>
      simp only [toList_node, List.mem_append, List.mem_cons] at h
      rcases h with h | rfl | h
      · obtain ⟨p, c, l', r', hfill⟩ := ihl h
        exact ⟨p.append (step .left d b r root), c, l', r', by rw [fill_append, hfill]; rfl⟩
      · exact ⟨root, d, l, r, rfl⟩
      · obtain ⟨p, c, l', r', hfill⟩ := ihr h
        exact ⟨p.append (step .right d b l root), c, l', r', by rw [fill_append, hfill]; rfl⟩

namespace Balanced

/-- Another node on the path. -/
theorem replace {q : Path α} {s : Side} {d : Color} {a b : α} {sib : RbTree α}
    (h : (p.append (step s d a sib q)).Balanced c n) :
    (p.append (step s d b sib q)).Balanced c n := by
  induction p generalizing c n with
  | root =>
      cases h with
      | red hs hup => exact .red hs hup
      | black hs hup => exact .black hs hup
  | step s' c' a' sib' up ih =>
      cases h with
      | red hs hup => exact .red hs (ih hup)
      | black hs hup => exact .black hs (ih hup)

/-- A hole for a red tree takes a black one. -/
theorem of_red (h : p.Balanced .red n) (c : Color) : p.Balanced c n := by
  cases h with
  | black hs hu => exact .black hs hu

/-- A black leaf is gone. -/
theorem remove_black {a : α} (hp : p.Balanced c n) (ht : (node .black nil a nil).Balanced c n) :
    p.Balanced .black 1 := by
  cases ht with
  | black hl _ =>
      cases hl
      exact hp

theorem fill (hp : p.Balanced c n) (ht : t.Balanced c n) :
    ∃ m, (p.fill t).Balanced .black m := by
  induction hp generalizing t with
  | root => exact ⟨_, ht⟩
  | red hs _ ih => exact ih (.mk_red ht hs)
  | black hs _ ih => exact ih (.mk_black ht hs)

/-- A red leaf is gone. -/
theorem remove_red {a : α} (hp : p.Balanced c n) (ht : (node .red nil a nil).Balanced c n) :
    ∃ m, (p.fill nil).Balanced .black m := by
  cases ht with
  | red hl _ =>
      cases hl
      exact (hp.of_red .black).fill .nil

/-- The only child of a node is red, and takes its colour. -/
theorem remove_single {s : Side} {a : α} {k : Color} (hp : p.Balanced c n)
    (ht : (mk s k t a nil).Balanced c n) (hne : t ≠ nil) :
    k = .black ∧ ∃ m, (p.fill (paint .black t)).Balanced .black m := by
  have hred : ∀ {d n}, (nil : RbTree α).Balanced d n → t.Balanced .black n → False := by
    intro d n hnil ht
    cases hnil
    cases ht
    exact hne rfl
  have hblack : ∀ {d e n}, p.Balanced .black (n + 1) → (nil : RbTree α).Balanced d n →
      t.Balanced e n → ∃ m, (p.fill (paint .black t)).Balanced .black m := by
    intro d e n hp hnil ht
    cases hnil
    cases ht with
    | nil => exact absurd rfl hne
    | red hl hr => exact hp.fill (.black hl hr)
  cases s with
  | left =>
      cases ht with
      | red hl hr => exact (hred hr hl).elim
      | black hl hr => exact ⟨rfl, hblack hp hr hl⟩
  | right =>
      cases ht with
      | red hl hr => exact (hred hl hr).elim
      | black hl hr => exact ⟨rfl, hblack hp hl hr⟩

/-- The hole of a balanced tree suits what is in it. -/
theorem of_fill {m : ℕ} (h : (p.fill t).Balanced .black m) :
    ∃ c n, p.Balanced c n ∧ t.Balanced c n := by
  induction p generalizing t with
  | root => exact ⟨.black, m, .root, h⟩
  | step s c a sib up ih =>
      obtain ⟨d, n, hup, hnode⟩ := ih h
      cases s with
      | left =>
          cases hnode with
          | red hl hr => exact ⟨_, _, .red hr hup, hl⟩
          | black hl hr => exact ⟨_, _, .black hr hup, hl⟩
      | right =>
          cases hnode with
          | red hl hr => exact ⟨_, _, .red hl hup, hr⟩
          | black hl hr => exact ⟨_, _, .black hl hup, hr⟩

end Balanced

end Path

/-! ## Repair after an insertion -/

/-- The tree `t` with a red root goes into a hole for a black one. -/
def insFix : Path α → RbTree α → RbTree α
  | .root, t => paint .black t
  | .step s .black p sib up, t => up.fill (mk s .black t p sib)
  | .step s .red p sib .root, t => mk s .red t p sib
  | .step s .red p sib (.step s' cg g uncle up), t =>
      if uncle.color = .red then
        insFix up (mk s' .red (mk s .black t p sib) g (paint .black uncle))
      else if s = s' then up.fill (mk s' cg t p (mk s' .red sib g uncle))
      else match t with
        | nil => up.fill (mk s' cg (mk s .red nil p sib) g uncle)
        | node _ l a r =>
            up.fill (mk s' cg (mk s' .red sib p (s'.pick l r)) a
              (mk s' .red (s'.flip.pick l r) g uncle))

theorem toList_insFix (p : Path α) (t : RbTree α) : (insFix p t).toList = (p.fill t).toList := by
  fun_induction insFix p t with
  | case1 t => simp [Path.fill]
  | case2 s p sib up t => rfl
  | case3 s p sib t => rfl
  | case4 s p sib s' cg g uncle up t hred ih =>
      rw [ih]
      apply Path.toList_fill_congr
      cases s <;> cases s' <;> simp [Side.pick]
  | case5 p sib s' cg g uncle up t hblack =>
      apply Path.toList_fill_congr
      cases s' <;> simp [Side.pick]
  | case6 s p sib s' cg g uncle up hblack hs => rfl
  | case7 s p sib s' cg g uncle up hblack hs c l a r =>
      apply Path.toList_fill_congr
      cases s <;> cases s' <;> simp_all [Side.pick, Side.flip]

/-- **The repair of an insertion gives a balanced tree.** -/
theorem RbTree.Balanced.insFix {p : Path α} {t : RbTree α} {n : ℕ} (hp : p.Balanced .black n)
    (ht : t.Balanced .red n) : ∃ m, (OsLab.insFix p t).Balanced .black m := by
  fun_induction OsLab.insFix p t generalizing n with
  | case1 t => exact ⟨_, ht.paint_black⟩
  | case2 s p sib up t =>
      cases hp with
      | black hs hup => exact hup.fill (.mk_black ht hs)
  | case3 s p sib t =>
      cases hp with
      | red hs hup => cases hup
  | case4 s p sib s' cg g uncle up t hred ih =>
      cases hp with
      | red hs hup =>
          cases hup with
          | @black _ _ _ _ _ d _ hu hup =>
              obtain rfl : d = .red := hu.color_eq.symm.trans hred
              exact ih hup (.mk_red (.mk_black ht hs) hu.paint_black)
  | case5 p sib s' cg g uncle up t hblack =>
      cases hp with
      | red hs hup =>
          cases hup with
          | @black _ _ _ _ _ d _ hu hup =>
              obtain rfl : d = .black := hu.color_eq.symm.trans (color_of_ne hblack)
              exact hup.fill (.mk_black ht (.mk_red hs hu))
  | case6 s p sib s' cg g uncle up hblack hs => cases ht
  | case7 s p sib s' cg g uncle up hblack hs c l a r =>
      cases hp with
      | red hs hup =>
          cases hup with
          | @black _ _ _ _ _ d _ hu hup =>
              obtain rfl : d = .black := hu.color_eq.symm.trans (color_of_ne hblack)
              cases ht with
              | red hl hr => exact hup.fill (.mk_black (.mk_red hs (.pick hl hr)) (.mk_red (.pick hl hr) hu))

/-! ## Repair after a deletion -/

/-- The tree `t` lacks one black node, and the sibling is black: the subtree after the repair,
and whether it still lacks one. -/
def shiftBlack (s : Side) (cp : Color) (p : α) (sib t : RbTree α) : RbTree α × Bool :=
  match sib with
  | nil => (mk s cp t p nil, false)
  | node _ l b r =>
      let near := s.pick l r
      let far := s.flip.pick l r
      if far.color = .red then (mk s cp (mk s .black t p near) b (paint .black far), false)
      else match near with
        | node .red l' c r' =>
            (mk s cp (mk s .black t p (s.pick l' r')) c (mk s .black (s.flip.pick l' r') b far), false)
        | _ => (mk s .black t p (paint .red sib), cp = .black)

section

variable {s : Side} {cp c : Color} {p b a : α} {x y x' y' t : RbTree α}

theorem shiftBlack_far (hy : y.color = .red) : shiftBlack s cp p (mk s c x b y) t =
    (mk s cp (mk s .black t p x) b (paint .black y), false) := by
  cases s <;> simp [shiftBlack, mk, Side.pick, Side.flip, hy]

theorem shiftBlack_near (hy : y.color = .black) :
    shiftBlack s cp p (mk s c (mk s .red x' a y') b y) t =
      (mk s cp (mk s .black t p x') a (mk s .black y' b y), false) := by
  cases s <;> simp [shiftBlack, mk, Side.pick, Side.flip, hy]

theorem shiftBlack_none (hx : x.color = .black) (hy : y.color = .black) :
    shiftBlack s cp p (mk s c x b y) t =
      (mk s .black t p (mk s .red x b y), decide (cp = .black)) := by
  have hpaint : paint .red (mk s c x b y) = mk s .red x b y := by cases s <;> rfl
  rw [← hpaint]
  cases x with
  | nil => cases s <;> simp [shiftBlack, mk, Side.pick, Side.flip, hy]
  | node d l a r =>
      obtain rfl : d = .black := hx
      cases s <;> simp [shiftBlack, mk, Side.pick, Side.flip, hy]

end

/-- The tree `t` goes into a hole for one of black height one more. -/
def eraseFix : Path α → RbTree α → RbTree α
  | .root, t => t
  | .step s cp p sib up, t =>
      match sib with
      | node .red l b r =>
          up.fill (mk s cp (shiftBlack s .red p (s.pick l r) t).1 b (s.flip.pick l r))
      | _ =>
          if (shiftBlack s cp p sib t).2 then eraseFix up (shiftBlack s cp p sib t).1
          else up.fill (shiftBlack s cp p sib t).1

theorem toList_shiftBlack (s : Side) (cp : Color) (p : α) (sib t : RbTree α) :
    (shiftBlack s cp p sib t).1.toList = (mk s cp t p sib).toList := by
  fun_cases shiftBlack s cp p sib t with
  | case1 => rfl
  | case2 c l b r near far hred =>
      cases s <;> simp [near, far, Side.pick, Side.flip]
  | case3 c l b r near far hblack l' c' r' hnear =>
      cases s <;> simp_all [near, far, Side.pick, Side.flip]
  | case4 c l b r near far hblack hnear =>
      cases s <;> simp [Side.pick]

theorem eraseFix_black {s : Side} {cp : Color} {p : α} {sib : RbTree α} {up : Path α}
    {t : RbTree α} (h : sib.color = .black) : eraseFix (.step s cp p sib up) t =
      if (shiftBlack s cp p sib t).2 then eraseFix up (shiftBlack s cp p sib t).1
      else up.fill (shiftBlack s cp p sib t).1 := by
  cases sib with
  | nil => rfl
  | node c l b r =>
      obtain rfl : c = .black := h
      rfl

theorem toList_eraseFix (p : Path α) (t : RbTree α) :
    (eraseFix p t).toList = (p.fill t).toList := by
  induction p generalizing t with
  | root => rfl
  | step s cp p sib up ih =>
      cases hc : sib.color with
      | red =>
          cases sib with
          | nil => cases hc
          | node c l b r =>
              obtain rfl : c = .red := hc
              apply Path.toList_fill_congr
              rw [toList_mk, toList_shiftBlack]
              cases s <;> simp [Side.pick, Side.flip]
      | black =>
          rw [eraseFix_black hc]
          have hlist := Path.toList_fill_congr (p := up) (toList_shiftBlack s cp p sib t)
          split
          · rw [ih]
            exact hlist
          · exact hlist

namespace RbTree.Balanced

variable {s : Side} {cp : Color} {p : α} {sib t : RbTree α} {n : ℕ}

/-- Either the root is one of the nodes of the sibling, or the sibling has become red. -/
theorem shiftBlack_cases (hs : sib.Balanced .black (n + 1)) (ht : t.Balanced .black n) :
    (∃ x b y, shiftBlack s cp p sib t = (mk s cp x b y, false) ∧
      x.Balanced .black (n + 1) ∧ y.Balanced .black (n + 1)) ∨
    ∃ u, shiftBlack s cp p sib t = (u, decide (cp = .black)) ∧ u.Balanced .black (n + 1) := by
  cases hs with
  | @black l r b _ _ _ hl hr =>
      obtain ⟨d, hnear⟩ := exists_pick s hl hr
      obtain ⟨e, hfar⟩ := exists_pick s.flip hl hr
      cases e with
      | red =>
          refine .inl ⟨mk s .black t p (s.pick l r), b, paint .black (s.flip.pick l r), ?_,
            .mk_black ht hnear, hfar.paint_black⟩
          simp [shiftBlack, hfar.color_eq]
      | black =>
          cases d with
          | red =>
              cases hd : s.pick l r with
              | nil =>
                  rw [hd] at hnear
                  cases hnear
              | node c l' b' r' =>
                  rw [hd] at hnear
                  cases hnear with
                  | red hl' hr' =>
                      refine .inl ⟨mk s .black t p (s.pick l' r'), b',
                        mk s .black (s.flip.pick l' r') b (s.flip.pick l r), ?_,
                        .mk_black ht (.pick hl' hr'), .mk_black (.pick hl' hr') hfar⟩
                      simp [shiftBlack, hfar.color_eq, hd]
          | black =>
              refine .inr ⟨mk s .black t p (node .red l b r), ?_, ?_⟩
              · cases hd : s.pick l r with
                | nil => simp [shiftBlack, hfar.color_eq, hd, paint]
                | node c l' b' r' =>
                    rw [hd] at hnear
                    obtain rfl : c = .black := hnear.color_eq
                    simp [shiftBlack, hfar.color_eq, hd, paint]
              · refine .mk_black ht (.red ?_ ?_)
                · cases s
                  · exact hnear
                  · exact hfar
                · cases s
                  · exact hfar
                  · exact hnear

/-- Below a red node the lack ends. -/
theorem shiftBlack_red (hs : sib.Balanced .black (n + 1)) (ht : t.Balanced .black n) :
    ∃ c, (shiftBlack s .red p sib t).2 = false ∧
      (shiftBlack s .red p sib t).1.Balanced c (n + 1) := by
  obtain ⟨x, b, y, heq, hx, hy⟩ | ⟨u, heq, hu⟩ := shiftBlack_cases (s := s) (p := p) hs ht
  · rw [heq]
    exact ⟨.red, rfl, .mk_red hx hy⟩
  · rw [heq]
    exact ⟨.black, rfl, hu⟩

/-- Below a black node it ends, or the whole lacks a black node. -/
theorem shiftBlack_black (hs : sib.Balanced .black (n + 1)) (ht : t.Balanced .black n) :
    (shiftBlack s .black p sib t).1.Balanced .black
      (if (shiftBlack s .black p sib t).2 then n + 1 else n + 2) := by
  obtain ⟨x, b, y, heq, hx, hy⟩ | ⟨u, heq, hu⟩ := shiftBlack_cases (s := s) (p := p) hs ht
  · rw [heq]
    exact .mk_black hx hy
  · rw [heq]
    exact hu

end RbTree.Balanced

/-- **The repair of a deletion gives a balanced tree.** -/
theorem RbTree.Balanced.eraseFix {p : Path α} {t : RbTree α} {n : ℕ}
    (hp : p.Balanced .black (n + 1)) (ht : t.Balanced .black n) :
    ∃ m, (OsLab.eraseFix p t).Balanced .black m := by
  induction p generalizing t n with
  | root => exact ⟨n, ht⟩
  | step s cp p sib up ih =>
      cases hp with
      | red hs hup =>
          obtain ⟨c, hmore, hu⟩ := shiftBlack_red (s := s) (p := p) hs ht
          rw [eraseFix_black hs.color_eq, hmore, if_neg (by simp)]
          exact (hup.of_red c).fill hu
      | @black _ _ _ _ _ d _ hs hup =>
          cases d with
          | red =>
              -- the sibling goes up, and the node is red now
              cases hs with
              | red hl hr =>
                  obtain ⟨c, -, hu⟩ := shiftBlack_red (s := s) (p := p) (.pick (s := s) hl hr) ht
                  exact hup.fill (.mk_black hu (.pick hl hr))
          | black =>
              have hu := shiftBlack_black (s := s) (p := p) hs ht
              rw [eraseFix_black hs.color_eq]
              cases hmore : (shiftBlack s .black p sib t).2 with
              | true =>
                  rw [hmore, if_pos rfl] at hu
                  rw [if_pos rfl]
                  exact ih hup hu
              | false =>
                  rw [hmore, if_neg (by simp)] at hu
                  rw [if_neg (by simp)]
                  exact hup.fill hu

end OsLab
