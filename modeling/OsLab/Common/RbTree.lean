import OsLab.Lib.RedBlack
import Mathlib.Data.Int.Basic
import Mathlib.Data.Nat.Bitwise
import Mathlib.Logic.Function.Basic

/-!
# The red-black trees of the kernel

`common/rbtree.c`, on a memory of nodes.  A pointer is an address, `NULL` is 0, and the
address of a node is a multiple of 8, so that `__rb_parent_color` holds the address of the
parent with the colour in its lowest bit.  Every read or write through a pointer that is
`NULL` is `none`.

The two branches of each loop are the same with left and right exchanged, and are one
definition with the side as a parameter.

## Main definitions

* `RbNode`, `RbMem` — the nodes and the root.
* `rbInsert`, `rbErase`, `rbLookup`, `rbFirst` — the functions of the source.
-/

namespace OsLab

/-- `struct rb_node_` -/
structure RbNode where
  parentColor : ℕ
  right : ℕ
  left : ℕ
  deriving DecidableEq, Repr

/-- `RB_RED` and `RB_BLACK` -/
def rbRed : ℕ := 0
def rbBlack : ℕ := 1

/-- `__rb_parent(pc)`, that is, `pc & ~3` -/
def pcParent (pc : ℕ) : ℕ := pc - pc % 4

/-- `__rb_color(pc)`, that is, `pc & 1` -/
def pcColor (pc : ℕ) : ℕ := pc % 2

namespace RbNode

/-- `rb_left` or `rb_right` -/
def child (n : RbNode) : Side → ℕ
  | .left => n.left
  | .right => n.right

def setChild (n : RbNode) (s : Side) (v : ℕ) : RbNode :=
  match s with
  | .left => { n with left := v }
  | .right => { n with right := v }

end RbNode

/-- The nodes, and `root->rb_node`. -/
structure RbMem where
  nodes : ℕ → RbNode
  root : ℕ

namespace RbMem

variable (m : RbMem)

def put (a : ℕ) (n : RbNode) : RbMem := { m with nodes := Function.update m.nodes a n }

/-- Read the node at `a`. -/
def get (a : ℕ) : Option RbNode := if a = 0 then none else some (m.nodes a)

/-- Write to the node at `a`. -/
def modify (a : ℕ) (f : RbNode → RbNode) : Option RbMem :=
  if a = 0 then none else some (m.put a (f (m.nodes a)))

def setChild (s : Side) (a v : ℕ) : Option RbMem := m.modify a fun n => n.setChild s v

/-- `rb_set_black(rb)` -/
def rbSetBlack (a : ℕ) : Option RbMem :=
  m.modify a fun n => { n with parentColor := n.parentColor ||| rbBlack }

/-- `rb_set_parent(rb, p)` -/
def rbSetParent (a p : ℕ) : Option RbMem :=
  m.modify a fun n => { n with parentColor := pcColor n.parentColor ||| p }

/-- `rb_set_parent_color(rb, p, color)` -/
def rbSetParentColor (a p color : ℕ) : Option RbMem :=
  m.modify a fun n => { n with parentColor := p ||| color }

/-- `if (tmp) rb_set_parent_color(tmp, p, color);` -/
def adopt (tmp p color : ℕ) : Option RbMem :=
  if tmp = 0 then some m else m.rbSetParentColor tmp p color

/-- `if (tmp) rb_set_parent(tmp, p);` -/
def reparent (tmp p : ℕ) : Option RbMem := if tmp = 0 then some m else m.rbSetParent tmp p

/-- `tmp && rb_is_red(tmp)`; its negation is `!tmp || rb_is_black(tmp)`. -/
def isRed (tmp : ℕ) : Bool := tmp ≠ 0 ∧ pcColor (m.nodes tmp).parentColor = rbRed

/-- `__rb_change_child(old, new, parent, root)` -/
def rbChangeChild (old new parent : ℕ) : Option RbMem :=
  if parent = 0 then some { m with root := new }
  else do
    let n ← m.get parent
    if n.left = old then m.setChild .left parent new else m.setChild .right parent new

/-- `__rb_rotate_set_parents(old, new, root, color)` -/
def rbRotateSetParents (old new color : ℕ) : Option RbMem := do
  let o ← m.get old
  let parent := pcParent o.parentColor
  let m ← m.modify new fun n => { n with parentColor := o.parentColor }
  let m ← m.rbSetParentColor old new color
  m.rbChangeChild old new parent

/-- Case 3 of `__rb_insert_fix`, on the side `s` -/
def insertRotate (s : Side) (parent gparent tmp : ℕ) : Option RbMem := do
  let m ← m.setChild s gparent tmp
  let m ← m.adopt tmp gparent rbBlack
  let m ← m.setChild s.flip parent gparent
  m.rbRotateSetParents gparent parent rbRed

/-- Case 2 of `__rb_insert_fix`, on the side `s`: the node is the inner child of its parent. -/
def insertInner (s : Side) (node parent : ℕ) : Option RbMem := do
  let tmp := (← m.get node).child s
  let m ← m.setChild s.flip parent tmp
  let m ← m.adopt tmp parent rbBlack
  let m ← m.setChild s node parent
  m.rbSetParentColor parent node rbRed

/-- The body of the loop of `__rb_insert_fix` where `parent` is the child of `gparent` on the
side `s`, with the `node` and `parent` of the next round if there is one. -/
def insertFixSide (s : Side) (node parent gparent : ℕ) : Option (RbMem × Option (ℕ × ℕ)) := do
  let tmp := (← m.get gparent).child s.flip
  if m.isRed tmp then do
    -- case 1, the uncle is red
    let m ← m.rbSetParentColor tmp gparent rbBlack
    let m ← m.rbSetParentColor parent gparent rbBlack
    let node := gparent
    let parent := pcParent (← m.get node).parentColor
    let m ← m.rbSetParentColor node parent rbRed
    some (m, some (node, parent))
  else do
    let tmp := (← m.get parent).child s.flip
    if node = tmp then do
      let m ← m.insertInner s node parent
      let parent := node
      let tmp := (← m.get node).child s.flip
      let m ← m.insertRotate s parent gparent tmp
      some (m, none)
    else do
      let m ← m.insertRotate s parent gparent tmp
      some (m, none)

/-- Case 4 of `__rb_erase_fix`, on the side `s` -/
def eraseRotate (s : Side) (parent sibling tmp1 : ℕ) : Option RbMem := do
  let tmp2 := (← m.get sibling).child s
  let m ← m.setChild s.flip parent tmp2
  let m ← m.reparent tmp2 parent
  let m ← m.setChild s sibling parent
  let m ← m.rbSetParentColor tmp1 sibling rbBlack
  m.rbRotateSetParents parent sibling rbBlack

/-- The rest of the body of `__rb_erase_fix` after case 1, with the `node` and `parent` of the
next round if there is one -/
def eraseFixBlack (s : Side) (parent sibling : ℕ) : Option (RbMem × Option (ℕ × ℕ)) := do
  let tmp1 := (← m.get sibling).child s.flip
  if m.isRed tmp1 then do
    let m ← m.eraseRotate s parent sibling tmp1
    some (m, none)
  else do
    let tmp2 := (← m.get sibling).child s
    if m.isRed tmp2 then do
      -- case 3
      let tmp1 := (← m.get tmp2).child s.flip
      let m ← m.setChild s sibling tmp1
      let m ← m.adopt tmp1 sibling rbBlack
      let m ← m.setChild s.flip tmp2 sibling
      let m ← m.setChild s.flip parent tmp2
      let m ← m.eraseRotate s parent tmp2 sibling
      some (m, none)
    else do
      -- case 2
      let m ← m.rbSetParentColor sibling parent rbRed
      if pcColor (← m.get parent).parentColor = rbRed then do
        let m ← m.rbSetBlack parent
        some (m, none)
      else do
        let node := parent
        let parent := pcParent (← m.get node).parentColor
        some (m, if parent = 0 then none else some (node, parent))

/-- The body of the loop of `__rb_erase_fix` where the node is the child of `parent` on the
side `s` -/
def eraseFixSide (s : Side) (parent : ℕ) : Option (RbMem × Option (ℕ × ℕ)) := do
  let sibling := (← m.get parent).child s.flip
  if pcColor (← m.get sibling).parentColor = rbRed then do
    -- case 1, the sibling is red
    let tmp1 := (← m.get sibling).child s
    let m ← m.setChild s.flip parent tmp1
    let m ← m.rbSetParentColor tmp1 parent rbBlack
    let m ← m.setChild s sibling parent
    let m ← m.rbRotateSetParents parent sibling rbRed
    m.eraseFixBlack s parent tmp1
  else m.eraseFixBlack s parent sibling

end RbMem

/-- The loop of `__rb_insert_fix`; `fuel` bounds the rounds. -/
def insertFixLoop : ℕ → ℕ → ℕ → RbMem → Option RbMem
  | 0, _, _, _ => none
  | fuel + 1, node, parent, m =>
      if parent = 0 then do
        let m ← m.rbSetParentColor node 0 rbBlack
        some { m with root := node }
      else do
        let p ← m.get parent
        if pcColor p.parentColor = rbBlack then some m
        else do
          -- `rb_red_parent` takes the whole word
          let gparent := p.parentColor
          let tmp := (← m.get gparent).right
          let (m, next) ← m.insertFixSide (if parent ≠ tmp then .left else .right) node parent gparent
          match next with
          | none => some m
          | some (node, parent) => insertFixLoop fuel node parent m

/-- `__rb_insert_fix(node, root)` -/
def rbInsertFix (fuel node : ℕ) (m : RbMem) : Option RbMem := do
  let n ← m.get node
  insertFixLoop fuel node n.parentColor m

/-- The search of `_rb_insert`, which links the node when it gets to a `NULL`; the answer says
whether there was an equivalent node. -/
def insertLoop (cmp : ℕ → ℕ → Bool) (node : ℕ) : ℕ → ℕ → RbMem → Option (Bool × RbMem)
  | 0, _, _ => none
  | fuel + 1, nw, m =>
      if nw = 0 then some (false, m)
      else do
        let parent := nw
        if cmp node nw then do
          let nw := (← m.get nw).left
          if nw = 0 then do
            let m ← m.setChild .left parent node
            let m ← m.modify node fun n => { n with parentColor := parent }
            insertLoop cmp node fuel nw m
          else insertLoop cmp node fuel nw m
        else if cmp nw node then do
          let nw := (← m.get nw).right
          if nw = 0 then do
            let m ← m.setChild .right parent node
            let m ← m.modify node fun n => { n with parentColor := parent }
            insertLoop cmp node fuel nw m
          else insertLoop cmp node fuel nw m
        else some (true, m)

/-- `_rb_insert(node, rt, cmp)` -/
def rbInsert (cmp : ℕ → ℕ → Bool) (fuel node : ℕ) (m : RbMem) : Option (ℤ × RbMem) := do
  let nw := m.root
  let m ← m.modify node fun _ => ⟨0, 0, 0⟩
  let (found, m) ← insertLoop cmp node fuel nw m
  if found then some (-1, m)
  else do
    let m ← rbInsertFix fuel node m
    some (0, m)

/-- `_rb_lookup(node, rt, cmp)` from `nw` on -/
def rbLookup (cmp : ℕ → ℕ → Bool) (node : ℕ) : ℕ → ℕ → RbMem → Option ℕ
  | 0, _, _ => none
  | fuel + 1, nw, m =>
      if nw = 0 then some 0
      else if cmp node nw then do rbLookup cmp node fuel (← m.get nw).left m
      else if cmp nw node then do rbLookup cmp node fuel (← m.get nw).right m
      else some nw

/-- The loop of `_rb_first` -/
def firstLoop : ℕ → ℕ → RbMem → Option ℕ
  | 0, _, _ => none
  | fuel + 1, n, m => do
      let left := (← m.get n).left
      if left = 0 then some n else firstLoop fuel left m

/-- `_rb_first(root)` -/
def rbFirst (fuel : ℕ) (m : RbMem) : Option ℕ :=
  if m.root = 0 then some 0 else firstLoop fuel m.root m

/-- The loop of `__rb_erase` that looks for the successor, with its parent -/
def successorLoop : ℕ → ℕ → ℕ → RbMem → Option (ℕ × ℕ)
  | 0, _, _, _ => none
  | fuel + 1, successor, tmp, m => do
      let parent := successor
      let successor := tmp
      let tmp := (← m.get tmp).left
      if tmp = 0 then some (parent, successor) else successorLoop fuel successor tmp m

/-- The end of `__rb_erase` for a node with two children: the successor takes its place, and
`child2` has lost its parent. -/
def RbMem.replaceNode (m : RbMem) (node parent successor child2 : ℕ) : Option (ℕ × RbMem) := do
  let tmp := (← m.get node).left
  let m ← m.setChild .left successor tmp
  let m ← m.rbSetParent tmp successor
  let pc := (← m.get node).parentColor
  let m ← m.rbChangeChild node successor (pcParent pc)
  if child2 ≠ 0 then do
    let m ← m.modify successor fun n => { n with parentColor := pc }
    let m ← m.rbSetParentColor child2 parent rbBlack
    some (0, m)
  else do
    let pc2 := (← m.get successor).parentColor
    let m ← m.modify successor fun n => { n with parentColor := pc }
    some (if pcColor pc2 = rbBlack then parent else 0, m)

/-- `__rb_erase(node, root)`, with the node to rebalance from -/
def rbUnlink (fuel node : ℕ) (m : RbMem) : Option (ℕ × RbMem) := do
  let n ← m.get node
  let child := n.right
  let tmp := n.left
  let pc := n.parentColor
  let parent := pcParent pc
  if tmp = 0 then do
    let m ← m.rbChangeChild node child parent
    if child ≠ 0 then do
      let m ← m.modify child fun n => { n with parentColor := pc }
      some (0, m)
    else some (if pcColor pc = rbBlack then parent else 0, m)
  else if child = 0 then do
    let m ← m.modify tmp fun n => { n with parentColor := pc }
    let m ← m.rbChangeChild node tmp parent
    some (0, m)
  else do
    let tmp := (← m.get child).left
    if tmp = 0 then do
      let child2 := (← m.get child).right
      m.replaceNode node child child child2
    else do
      let (parent, successor) ← successorLoop fuel child tmp m
      let child2 := (← m.get successor).right
      let m ← m.setChild .left parent child2
      let m ← m.setChild .right successor child
      let m ← m.rbSetParent child successor
      m.replaceNode node parent successor child2

/-- The loop of `__rb_erase_fix` -/
def eraseFixLoop : ℕ → ℕ → ℕ → RbMem → Option RbMem
  | 0, _, _, _ => none
  | fuel + 1, node, parent, m => do
      let sibling := (← m.get parent).right
      let (m, next) ← m.eraseFixSide (if node ≠ sibling then .left else .right) parent
      match next with
      | none => some m
      | some (node, parent) => eraseFixLoop fuel node parent m

/-- `__rb_erase_fix(parent, root)` -/
def rbEraseFix (fuel parent : ℕ) (m : RbMem) : Option RbMem := eraseFixLoop fuel 0 parent m

/-- `_rb_erase(node, root)` -/
def rbErase (fuel node : ℕ) (m : RbMem) : Option RbMem := do
  let (rebalance, m) ← rbUnlink fuel node m
  if rebalance ≠ 0 then rbEraseFix fuel rebalance m else some m

end OsLab
