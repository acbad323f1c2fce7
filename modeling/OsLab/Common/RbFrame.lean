import OsLab.Common.RbErase

/-!
# What the trees leave alone

Several trees lie in one memory.  The functions of `rbtree.c` only follow pointers from the
root and the node they are given, so that on a set of nodes which the pointers do not leave
they write to nothing outside it.  Nothing is said about the shape of the tree here.

## Main definitions

* `Closed S m` — no pointer leaves the nodes in `S`.
* `Within S m m'` — `m'` is closed too, and has the other nodes as they are in `m`.
-/

namespace OsLab

open RbTree

variable {S : Set ℕ}

/-- A pointer to a node in `S`, or `NULL` -/
def PtrIn (S : Set ℕ) (p : ℕ) : Prop := p = 0 ∨ p ∈ S

/-- The pointers of a node go to `S`. -/
structure NodeIn (S : Set ℕ) (n : RbNode) : Prop where
  child : ∀ s, PtrIn S (n.child s)
  word : ∃ p c, PtrIn S p ∧ n.parentColor = pcWord p c

/-- No pointer leaves the nodes in `S`. -/
structure Closed (S : Set ℕ) (m : RbMem) : Prop where
  isNode : ∀ a ∈ S, IsNode a
  root : PtrIn S m.root
  node : ∀ a ∈ S, NodeIn S (m.nodes a)

/-- The step from `m` to `m'` concerns the nodes in `S` only. -/
structure Within (S : Set ℕ) (m m' : RbMem) : Prop where
  closed : Closed S m'
  frame : ∀ a ∉ S, m'.nodes a = m.nodes a

theorem PtrIn.zero : PtrIn S 0 := .inl rfl

theorem PtrIn.mem {p : ℕ} (h : PtrIn S p) (hp : p ≠ 0) : p ∈ S := h.resolve_left hp

namespace Within

variable {m m₁ m₂ : RbMem}

theorem refl (h : Closed S m) : Within S m m := ⟨h, fun _ _ => rfl⟩

theorem trans (h₁ : Within S m m₁) (h₂ : Within S m₁ m₂) : Within S m m₂ :=
  ⟨h₂.closed, fun a ha => (h₂.frame a ha).trans (h₁.frame a ha)⟩

end Within

/-! ## Reading and writing -/

namespace NodeIn

variable {n : RbNode} {p q : ℕ} {c : Color}

theorem parent (h : NodeIn S n) (hS : ∀ a ∈ S, IsNode a) : PtrIn S (pcParent n.parentColor) := by
  obtain ⟨p, c, hp, heq⟩ := h.word
  have halign : 8 ∣ p := by
    rcases hp with rfl | hp
    · exact Dvd.intro_left 0 rfl
    · exact (hS p hp).aligned
  rwa [heq, pcParent_pcWord halign]

/-- The whole word of a red node is its parent. -/
theorem redParent (h : NodeIn S n) (hS : ∀ a ∈ S, IsNode a)
    (hred : pcColor n.parentColor ≠ rbBlack) : PtrIn S n.parentColor := by
  obtain ⟨p, c, hp, heq⟩ := h.word
  have halign : 8 ∣ p := by
    rcases hp with rfl | hp
    · exact Dvd.intro_left 0 rfl
    · exact (hS p hp).aligned
  rw [heq, pcColor_pcWord halign, ne_eq, bit_eq_rbBlack] at hred
  cases c with
  | red => rwa [heq, pcWord_red]
  | black => exact absurd rfl hred

theorem setChild (h : NodeIn S n) (s : Side) (hq : PtrIn S q) : NodeIn S (n.setChild s q) := by
  constructor
  · intro s'
    have hc := h.child s'
    cases s <;> cases s' <;> first | exact hq | exact hc
  · cases s <;> exact h.word

theorem setWord (h : NodeIn S n) {w : ℕ} (hw : ∃ p c, PtrIn S p ∧ w = pcWord p c) :
    NodeIn S { n with parentColor := w } :=
  ⟨fun s => by have := h.child s; cases s <;> exact this, hw⟩

theorem pcWord_mod (p : ℕ) (n : RbNode) :
    ∃ c : Color, pcColor n.parentColor ||| p = pcWord p c := by
  rcases Nat.mod_two_eq_zero_or_one n.parentColor with h | h
  · exact ⟨.red, by rw [pcColor, h, ← bit_or]; rfl⟩
  · exact ⟨.black, by rw [pcColor, h, ← bit_or]; rfl⟩

end NodeIn

namespace RbMem

variable {m m' : RbMem} {a p q tmp old new parent : ℕ} {n : RbNode} {s : Side} {c : Color}

theorem get_in (h : Closed S m) (ha : PtrIn S a) (hget : m.get a = some n) : NodeIn S n := by
  by_cases h0 : a = 0
  · simp [get, h0] at hget
  · rw [get, if_neg h0, Option.some.injEq] at hget
    exact hget ▸ h.node a (ha.mem h0)

theorem modify_within (h : Closed S m) (ha : PtrIn S a) {f : RbNode → RbNode}
    (hf : ∀ n, NodeIn S n → NodeIn S (f n)) (hexec : m.modify a f = some m') : Within S m m' := by
  by_cases h0 : a = 0
  · simp [modify, h0] at hexec
  · rw [modify, if_neg h0, Option.some.injEq] at hexec
    subst hexec
    refine ⟨⟨h.isNode, h.root, fun b hb => ?_⟩, fun b hb => ?_⟩
    · by_cases hab : b = a
      · subst hab
        rw [put_self]
        exact hf _ (h.node b hb)
      · rw [put_of_ne hab]
        exact h.node b hb
    · exact put_of_ne fun heq => hb (heq ▸ ha.mem h0)

theorem setChild_within (h : Closed S m) (ha : PtrIn S a) (hq : PtrIn S q)
    (hexec : m.setChild s a q = some m') : Within S m m' :=
  modify_within h ha (fun _ hn => hn.setChild s hq) hexec

theorem rbSetBlack_within (h : Closed S m) (ha : PtrIn S a) (hexec : m.rbSetBlack a = some m') :
    Within S m m' := by
  refine modify_within h ha (fun n hn => hn.setWord ?_) hexec
  obtain ⟨p, c, hp, heq⟩ := hn.word
  exact ⟨p, .black, hp, by rw [heq, pcWord_or_black]⟩

theorem rbSetParent_within (h : Closed S m) (ha : PtrIn S a) (hp : PtrIn S p)
    (hexec : m.rbSetParent a p = some m') : Within S m m' := by
  refine modify_within h ha (fun n hn => hn.setWord ?_) hexec
  obtain ⟨c, hc⟩ := NodeIn.pcWord_mod p n
  exact ⟨p, c, hp, hc⟩

theorem rbSetParentColor_within (h : Closed S m) (ha : PtrIn S a) (hp : PtrIn S p) (c : Color)
    (hexec : m.rbSetParentColor a p c.bit = some m') : Within S m m' :=
  modify_within h ha (fun _ hn => hn.setWord ⟨p, c, hp, rfl⟩) hexec

theorem setWord_within (h : Closed S m) (ha : PtrIn S a) (hn : NodeIn S n)
    (hexec : (m.modify a fun k => { k with parentColor := n.parentColor }) = some m') :
    Within S m m' :=
  modify_within h ha (fun _ hk => hk.setWord hn.word) hexec

theorem adopt_within (h : Closed S m) (ha : PtrIn S tmp) (hp : PtrIn S p) (c : Color)
    (hexec : m.adopt tmp p c.bit = some m') : Within S m m' := by
  by_cases h0 : tmp = 0
  · rw [adopt, if_pos h0, Option.some.injEq] at hexec
    exact hexec ▸ .refl h
  · rw [adopt, if_neg h0] at hexec
    exact rbSetParentColor_within h ha hp c hexec

theorem reparent_within (h : Closed S m) (ha : PtrIn S tmp) (hp : PtrIn S p)
    (hexec : m.reparent tmp p = some m') : Within S m m' := by
  by_cases h0 : tmp = 0
  · rw [reparent, if_pos h0, Option.some.injEq] at hexec
    exact hexec ▸ .refl h
  · rw [reparent, if_neg h0] at hexec
    exact rbSetParent_within h ha hp hexec

theorem setRoot_within (h : Closed S m) (hq : PtrIn S q) : Within S m { m with root := q } :=
  ⟨⟨h.isNode, hq, h.node⟩, fun _ _ => rfl⟩

theorem rbChangeChild_within (h : Closed S m) (hn : PtrIn S new) (hp : PtrIn S parent)
    (hexec : m.rbChangeChild old new parent = some m') : Within S m m' := by
  by_cases h0 : parent = 0
  · rw [rbChangeChild, if_pos h0, Option.some.injEq] at hexec
    exact hexec ▸ setRoot_within h hn
  · rw [rbChangeChild, if_neg h0, Option.bind_eq_bind, Option.bind_eq_some_iff] at hexec
    obtain ⟨n, -, hexec⟩ := hexec
    split at hexec
    · exact setChild_within h hp hn hexec
    · exact setChild_within h hp hn hexec

theorem rbRotateSetParents_within (h : Closed S m) (ho : PtrIn S old) (hn : PtrIn S new) (c : Color)
    (hexec : m.rbRotateSetParents old new c.bit = some m') : Within S m m' := by
  simp only [rbRotateSetParents, Option.bind_eq_bind, Option.bind_eq_some_iff] at hexec
  obtain ⟨n, hget, m₁, h₁, m₂, h₂, h₃⟩ := hexec
  have hn' := get_in h ho hget
  have w₁ := setWord_within h hn hn' h₁
  have w₂ := rbSetParentColor_within w₁.closed ho hn c h₂
  have w₃ := rbChangeChild_within w₂.closed hn (hn'.parent h.isNode) h₃
  exact w₁.trans (w₂.trans w₃)

/-! ## Insertion -/

variable {node gparent sibling tmp1 : ℕ} {next : Option (ℕ × ℕ)}

theorem insertRotate_within (h : Closed S m) (hp : PtrIn S parent) (hg : PtrIn S gparent)
    (ht : PtrIn S tmp) (hexec : m.insertRotate s parent gparent tmp = some m') :
    Within S m m' := by
  simp only [insertRotate, Option.bind_eq_bind, Option.bind_eq_some_iff] at hexec
  obtain ⟨m₁, h₁, m₂, h₂, m₃, h₃, h₄⟩ := hexec
  have w₁ := setChild_within h hg ht h₁
  have w₂ := adopt_within w₁.closed ht hg .black h₂
  have w₃ := setChild_within w₂.closed hp hg h₃
  have w₄ := rbRotateSetParents_within w₃.closed hg hp .red h₄
  exact w₁.trans (w₂.trans (w₃.trans w₄))

theorem insertInner_within (h : Closed S m) (hn : PtrIn S node) (hp : PtrIn S parent)
    (hexec : m.insertInner s node parent = some m') : Within S m m' := by
  simp only [insertInner, Option.bind_eq_bind, Option.bind_eq_some_iff] at hexec
  obtain ⟨n, hget, m₁, h₁, m₂, h₂, m₃, h₃, h₄⟩ := hexec
  have ht := (get_in h hn hget).child s
  have w₁ := setChild_within h hp ht h₁
  have w₂ := adopt_within w₁.closed ht hp .black h₂
  have w₃ := setChild_within w₂.closed hn hp h₃
  have w₄ := rbSetParentColor_within w₃.closed hp hn .red h₄
  exact w₁.trans (w₂.trans (w₃.trans w₄))

/-- The node and the parent of the next round, if there is one, are in `S`. -/
def NextIn (S : Set ℕ) (next : Option (ℕ × ℕ)) : Prop :=
  ∀ q ∈ next, PtrIn S q.1 ∧ PtrIn S q.2

theorem nextIn_none : NextIn S none := fun _ hq => by cases hq

theorem insertFixSide_within (h : Closed S m) (hn : PtrIn S node) (hp : PtrIn S parent)
    (hg : PtrIn S gparent) (hexec : m.insertFixSide s node parent gparent = some (m', next)) :
    Within S m m' ∧ NextIn S next := by
  simp only [insertFixSide, Option.bind_eq_bind, Option.bind_eq_some_iff] at hexec
  obtain ⟨n, hget, hexec⟩ := hexec
  have hu := (get_in h hg hget).child s.flip
  split at hexec
  · simp only [Option.bind_eq_some_iff, Option.some.injEq, Prod.mk.injEq] at hexec
    obtain ⟨m₁, h₁, m₂, h₂, n₂, hget₂, m₃, h₃, rfl, rfl⟩ := hexec
    have w₁ := rbSetParentColor_within h hu hg .black h₁
    have w₂ := rbSetParentColor_within w₁.closed hp hg .black h₂
    have hup := (get_in w₂.closed hg hget₂).parent h.isNode
    have w₃ := rbSetParentColor_within w₂.closed hg hup .red h₃
    refine ⟨w₁.trans (w₂.trans w₃), fun q hq => ?_⟩
    cases hq
    exact ⟨hg, hup⟩
  · simp only [Option.bind_eq_some_iff] at hexec
    obtain ⟨k, hgetk, hexec⟩ := hexec
    have ht := (get_in h hp hgetk).child s.flip
    split at hexec
    · simp only [Option.bind_eq_some_iff, Option.some.injEq, Prod.mk.injEq] at hexec
      obtain ⟨m₁, h₁, n₁, hget₁, m₂, h₂, rfl, rfl⟩ := hexec
      have w₁ := insertInner_within h hn hp h₁
      have w₂ := insertRotate_within w₁.closed hn hg ((get_in w₁.closed hn hget₁).child s.flip) h₂
      exact ⟨w₁.trans w₂, nextIn_none⟩
    · simp only [Option.bind_eq_some_iff, Option.some.injEq, Prod.mk.injEq] at hexec
      obtain ⟨m₁, h₁, rfl, rfl⟩ := hexec
      exact ⟨insertRotate_within h hp hg ht h₁, nextIn_none⟩

/-! ## Deletion -/

theorem eraseRotate_within (h : Closed S m) (hp : PtrIn S parent) (hs : PtrIn S sibling)
    (ht : PtrIn S tmp1) (hexec : m.eraseRotate s parent sibling tmp1 = some m') :
    Within S m m' := by
  simp only [eraseRotate, Option.bind_eq_bind, Option.bind_eq_some_iff] at hexec
  obtain ⟨n, hget, m₁, h₁, m₂, h₂, m₃, h₃, m₄, h₄, h₅⟩ := hexec
  have hc := (get_in h hs hget).child s
  have w₁ := setChild_within h hp hc h₁
  have w₂ := reparent_within w₁.closed hc hp h₂
  have w₃ := setChild_within w₂.closed hs hp h₃
  have w₄ := rbSetParentColor_within w₃.closed ht hs .black h₄
  have w₅ := rbRotateSetParents_within w₄.closed hp hs .black h₅
  exact w₁.trans (w₂.trans (w₃.trans (w₄.trans w₅)))

theorem eraseFixBlack_within (h : Closed S m) (hp : PtrIn S parent) (hs : PtrIn S sibling)
    (hexec : m.eraseFixBlack s parent sibling = some (m', next)) :
    Within S m m' ∧ NextIn S next := by
  simp only [eraseFixBlack, Option.bind_eq_bind, Option.bind_eq_some_iff] at hexec
  obtain ⟨n, hget, hexec⟩ := hexec
  have hfar := (get_in h hs hget).child s.flip
  split at hexec
  · simp only [Option.bind_eq_some_iff, Option.some.injEq, Prod.mk.injEq] at hexec
    obtain ⟨m₁, h₁, rfl, rfl⟩ := hexec
    exact ⟨eraseRotate_within h hp hs hfar h₁, nextIn_none⟩
  · simp only [Option.bind_eq_some_iff] at hexec
    obtain ⟨k, hgetk, hexec⟩ := hexec
    have hnear := (get_in h hs hgetk).child s
    split at hexec
    · simp only [Option.bind_eq_some_iff, Option.some.injEq, Prod.mk.injEq] at hexec
      obtain ⟨n₁, hget₁, m₁, h₁, m₂, h₂, m₃, h₃, m₄, h₄, m₅, h₅, rfl, rfl⟩ := hexec
      have hc := (get_in h hnear hget₁).child s.flip
      have w₁ := setChild_within h hs hc h₁
      have w₂ := adopt_within w₁.closed hc hs .black h₂
      have w₃ := setChild_within w₂.closed hnear hs h₃
      have w₄ := setChild_within w₃.closed hp hnear h₄
      have w₅ := eraseRotate_within w₄.closed hp hnear hs h₅
      exact ⟨w₁.trans (w₂.trans (w₃.trans (w₄.trans w₅))), nextIn_none⟩
    · simp only [Option.bind_eq_some_iff] at hexec
      obtain ⟨m₁, h₁, n₁, hget₁, hexec⟩ := hexec
      have w₁ := rbSetParentColor_within h hs hp .red h₁
      split at hexec
      · simp only [Option.bind_eq_some_iff, Option.some.injEq, Prod.mk.injEq] at hexec
        obtain ⟨m₂, h₂, rfl, rfl⟩ := hexec
        exact ⟨w₁.trans (rbSetBlack_within w₁.closed hp h₂), nextIn_none⟩
      · simp only [Option.bind_eq_some_iff, Option.some.injEq, Prod.mk.injEq] at hexec
        obtain ⟨n₂, hget₂, rfl, rfl⟩ := hexec
        have hup := (get_in w₁.closed hp hget₂).parent h.isNode
        refine ⟨w₁, fun q hq => ?_⟩
        split at hq
        · cases hq
        · cases hq
          exact ⟨hp, hup⟩

theorem eraseFixSide_within (h : Closed S m) (hp : PtrIn S parent)
    (hexec : m.eraseFixSide s parent = some (m', next)) : Within S m m' ∧ NextIn S next := by
  simp only [eraseFixSide, Option.bind_eq_bind, Option.bind_eq_some_iff] at hexec
  obtain ⟨n, hget, k, hgetk, hexec⟩ := hexec
  have hs := (get_in h hp hget).child s.flip
  split at hexec
  · simp only [Option.bind_eq_some_iff] at hexec
    obtain ⟨n₁, hget₁, m₁, h₁, m₂, h₂, m₃, h₃, m₄, h₄, h₅⟩ := hexec
    have hc := (get_in h hs hget₁).child s
    have w₁ := setChild_within h hp hc h₁
    have w₂ := rbSetParentColor_within w₁.closed hc hp .black h₂
    have w₃ := setChild_within w₂.closed hs hp h₃
    have w₄ := rbRotateSetParents_within w₃.closed hp hs .red h₄
    obtain ⟨w₅, hnext⟩ := eraseFixBlack_within w₄.closed hp hc h₅
    exact ⟨w₁.trans (w₂.trans (w₃.trans (w₄.trans w₅))), hnext⟩
  · exact eraseFixBlack_within h hp hs hexec

theorem replaceNode_within {successor child2 r : ℕ} (h : Closed S m) (hn : PtrIn S node)
    (hp : PtrIn S parent) (hs : PtrIn S successor) (hc : PtrIn S child2)
    (hexec : m.replaceNode node parent successor child2 = some (r, m')) :
    Within S m m' ∧ PtrIn S r := by
  simp only [replaceNode, Option.bind_eq_bind, Option.bind_eq_some_iff] at hexec
  obtain ⟨n, hget, m₁, h₁, m₂, h₂, n₂, hget₂, m₃, h₃, hexec⟩ := hexec
  have hleft := (get_in h hn hget).child .left
  have w₁ := setChild_within h hs hleft h₁
  have w₂ := rbSetParent_within w₁.closed hleft hs h₂
  have hn₂ := get_in w₂.closed hn hget₂
  have w₃ := rbChangeChild_within w₂.closed hs (hn₂.parent h.isNode) h₃
  have w := w₁.trans (w₂.trans w₃)
  split at hexec
  · simp only [Option.bind_eq_some_iff, Option.some.injEq, Prod.mk.injEq] at hexec
    obtain ⟨m₄, h₄, m₅, h₅, rfl, rfl⟩ := hexec
    have w₄ := setWord_within w₃.closed hs hn₂ h₄
    have w₅ := rbSetParentColor_within w₄.closed hc hp .black h₅
    exact ⟨w.trans (w₄.trans w₅), .zero⟩
  · simp only [Option.bind_eq_some_iff, Option.some.injEq, Prod.mk.injEq] at hexec
    obtain ⟨n₃, -, m₄, h₄, rfl, rfl⟩ := hexec
    refine ⟨w.trans (setWord_within w₃.closed hs hn₂ h₄), ?_⟩
    split
    · exact hp
    · exact .zero

end RbMem

/-! ## The loops -/

variable {m m' : RbMem} {node parent fuel : ℕ}

open RbMem

theorem insertFixLoop_within (h : Closed S m) (hn : PtrIn S node) (hp : PtrIn S parent)
    (hexec : insertFixLoop fuel node parent m = some m') : Within S m m' := by
  induction fuel generalizing m node parent with
  | zero => cases hexec
  | succ fuel ih =>
      rw [insertFixLoop] at hexec
      split at hexec
      · simp only [Option.bind_eq_bind, Option.bind_eq_some_iff, Option.some.injEq] at hexec
        obtain ⟨m₁, h₁, rfl⟩ := hexec
        have w₁ := rbSetParentColor_within h hn .zero .black h₁
        exact w₁.trans (setRoot_within w₁.closed hn)
      · simp only [Option.bind_eq_bind, Option.bind_eq_some_iff] at hexec
        obtain ⟨p, hget, hexec⟩ := hexec
        split at hexec
        · rw [Option.some.injEq] at hexec
          exact hexec ▸ .refl h
        · rename_i hred
          have hg := (get_in h hp hget).redParent h.isNode hred
          simp only [Option.bind_eq_some_iff] at hexec
          obtain ⟨g, -, ⟨m₁, next⟩, hside, hexec⟩ := hexec
          obtain ⟨w₁, hnext⟩ := insertFixSide_within h hn hp hg hside
          cases next with
          | none => exact Option.some.inj hexec ▸ w₁
          | some q =>
              have hq := hnext q rfl
              exact w₁.trans (ih w₁.closed hq.1 hq.2 hexec)

/-- The word of the node is a pointer without a colour. -/
def RbMem.FreshIn (S : Set ℕ) (m : RbMem) (node : ℕ) : Prop := PtrIn S (m.nodes node).parentColor

theorem rbInsertFix_within (h : Closed S m) (hn : PtrIn S node) (hf : m.FreshIn S node)
    (hexec : rbInsertFix fuel node m = some m') : Within S m m' := by
  simp only [rbInsertFix, Option.bind_eq_bind, Option.bind_eq_some_iff] at hexec
  obtain ⟨n, hget, hexec⟩ := hexec
  have hword : PtrIn S n.parentColor := by
    by_cases h0 : node = 0
    · simp [RbMem.get, h0] at hget
    · rw [RbMem.get, if_neg h0, Option.some.injEq] at hget
      exact hget ▸ hf
  exact insertFixLoop_within h hn hword hexec

/-- The node is linked below `parent`. -/
theorem link_within {s : Side} {m₁ : RbMem} (h : Closed S m) (hn : node ∈ S) (hp : PtrIn S parent)
    (h₁ : m.setChild s parent node = some m₁)
    (h₂ : (m₁.modify node fun n => { n with parentColor := parent }) = some m') :
    Within S m m' ∧ m'.FreshIn S node := by
  have w₁ := setChild_within h hp (.inr hn) h₁
  have w₂ := modify_within w₁.closed (.inr hn)
    (fun k hk => hk.setWord ⟨parent, .red, hp, pcWord_red.symm⟩) h₂
  refine ⟨w₁.trans w₂, ?_⟩
  rw [modify_eq (h.isNode node hn), Option.some.injEq] at h₂
  rw [FreshIn, ← h₂, put_self]
  exact hp

theorem insertLoop_within {cmp : ℕ → ℕ → Bool} {nw : ℕ} {found : Bool} (h : Closed S m)
    (hn : node ∈ S) (hf : m.FreshIn S node) (hnw : PtrIn S nw)
    (hexec : insertLoop cmp node fuel nw m = some (found, m')) :
    Within S m m' ∧ m'.FreshIn S node := by
  induction fuel generalizing m nw with
  | zero => cases hexec
  | succ fuel ih =>
      -- one round, on either side
      have hround : ∀ s n v, n.child s = v → m.get nw = some n →
          (if v = 0 then (m.setChild s nw node).bind fun m =>
              (m.modify node fun n => { n with parentColor := nw }).bind
                fun m => insertLoop cmp node fuel v m
            else insertLoop cmp node fuel v m) = some (found, m') →
          Within S m m' ∧ m'.FreshIn S node := by
        intro s n v hv hget hexec
        have hin : PtrIn S v := hv ▸ (get_in h hnw hget).child s
        split at hexec
        · simp only [Option.bind_eq_some_iff] at hexec
          obtain ⟨m₁, h₁, m₂, h₂, hexec⟩ := hexec
          obtain ⟨w, hf₂⟩ := link_within h hn hnw h₁ h₂
          obtain ⟨w', hf'⟩ := ih w.closed hf₂ hin hexec
          exact ⟨w.trans w', hf'⟩
        · exact ih h hf hin hexec
      rw [insertLoop] at hexec
      split at hexec
      · simp only [Option.some.injEq, Prod.mk.injEq] at hexec
        obtain ⟨-, rfl⟩ := hexec
        exact ⟨.refl h, hf⟩
      · split at hexec
        · rw [Option.bind_eq_bind, Option.bind_eq_some_iff] at hexec
          obtain ⟨n, hget, hexec⟩ := hexec
          exact hround .left n n.left rfl hget hexec
        · split at hexec
          · rw [Option.bind_eq_bind, Option.bind_eq_some_iff] at hexec
            obtain ⟨n, hget, hexec⟩ := hexec
            exact hround .right n n.right rfl hget hexec
          · simp only [Option.some.injEq, Prod.mk.injEq] at hexec
            obtain ⟨-, rfl⟩ := hexec
            exact ⟨.refl h, hf⟩

theorem rbInsert_within {cmp : ℕ → ℕ → Bool} {ret : ℤ} (h : Closed S (m.put node ⟨0, 0, 0⟩))
    (hn : node ∈ S) (hexec : rbInsert cmp fuel node m = some (ret, m')) :
    Within S (m.put node ⟨0, 0, 0⟩) m' := by
  have hf : (m.put node ⟨0, 0, 0⟩).FreshIn S node := by
    rw [FreshIn, put_self]
    exact .zero
  simp only [rbInsert, Option.bind_eq_bind, modify_eq (h.isNode node hn), Option.bind_some,
    Option.bind_eq_some_iff] at hexec
  obtain ⟨⟨found, m₁⟩, hloop, hexec⟩ := hexec
  obtain ⟨w₁, hf₁⟩ := insertLoop_within h hn hf h.root hloop
  split at hexec
  · simp only [Option.some.injEq, Prod.mk.injEq] at hexec
    obtain ⟨-, rfl⟩ := hexec
    exact w₁
  · simp only [Option.bind_eq_some_iff, Option.some.injEq, Prod.mk.injEq] at hexec
    obtain ⟨m₂, hfix, -, rfl⟩ := hexec
    exact w₁.trans (rbInsertFix_within w₁.closed (.inr hn) hf₁ hfix)

theorem successorLoop_in {successor tmp p q : ℕ} (h : Closed S m) (hs : PtrIn S successor)
    (ht : PtrIn S tmp) (hexec : successorLoop fuel successor tmp m = some (p, q)) :
    PtrIn S p ∧ PtrIn S q := by
  induction fuel generalizing successor tmp with
  | zero => cases hexec
  | succ fuel ih =>
      simp only [successorLoop, Option.bind_eq_bind, Option.bind_eq_some_iff] at hexec
      obtain ⟨n, hget, hexec⟩ := hexec
      split at hexec
      · simp only [Option.some.injEq, Prod.mk.injEq] at hexec
        obtain ⟨rfl, rfl⟩ := hexec
        exact ⟨hs, ht⟩
      · exact ih ht ((get_in h ht hget).child .left) hexec

theorem rbUnlink_within {r : ℕ} (h : Closed S m) (hn : PtrIn S node)
    (hexec : rbUnlink fuel node m = some (r, m')) : Within S m m' ∧ PtrIn S r := by
  simp only [rbUnlink, Option.bind_eq_bind, Option.bind_eq_some_iff] at hexec
  obtain ⟨n, hget, hexec⟩ := hexec
  have hnode := get_in h hn hget
  have hp := hnode.parent h.isNode
  have hl : PtrIn S n.left := hnode.child .left
  have hr : PtrIn S n.right := hnode.child .right
  split at hexec
  · simp only [Option.bind_eq_some_iff] at hexec
    obtain ⟨m₁, h₁, hexec⟩ := hexec
    have w₁ := rbChangeChild_within h hr hp h₁
    split at hexec
    · simp only [Option.bind_eq_some_iff, Option.some.injEq, Prod.mk.injEq] at hexec
      obtain ⟨m₂, h₂, rfl, rfl⟩ := hexec
      exact ⟨w₁.trans (setWord_within w₁.closed hr hnode h₂), .zero⟩
    · simp only [Option.some.injEq, Prod.mk.injEq] at hexec
      obtain ⟨rfl, rfl⟩ := hexec
      refine ⟨w₁, ?_⟩
      split
      · exact hp
      · exact .zero
  · split at hexec
    · simp only [Option.bind_eq_some_iff, Option.some.injEq, Prod.mk.injEq] at hexec
      obtain ⟨m₁, h₁, m₂, h₂, rfl, rfl⟩ := hexec
      have w₁ := setWord_within h hl hnode h₁
      exact ⟨w₁.trans (rbChangeChild_within w₁.closed hl hp h₂), .zero⟩
    · simp only [Option.bind_eq_some_iff] at hexec
      obtain ⟨k, hgetk, hexec⟩ := hexec
      have hkl : PtrIn S k.left := (get_in h hr hgetk).child .left
      split at hexec
      · simp only [Option.bind_eq_some_iff] at hexec
        obtain ⟨k', hgetk', hexec⟩ := hexec
        exact replaceNode_within h hn hr hr ((get_in h hr hgetk').child .right) hexec
      · simp only [Option.bind_eq_some_iff] at hexec
        obtain ⟨⟨p, q⟩, hloop, k', hgetk', m₁, h₁, m₂, h₂, m₃, h₃, hexec⟩ := hexec
        obtain ⟨hpin, hqin⟩ := successorLoop_in h hr hkl hloop
        have hc : PtrIn S k'.right := (get_in h hqin hgetk').child .right
        have w₁ := setChild_within h hpin hc h₁
        have w₂ := setChild_within w₁.closed hqin hr h₂
        have w₃ := rbSetParent_within w₂.closed hr hqin h₃
        obtain ⟨w₄, hres⟩ := replaceNode_within w₃.closed hn hpin hqin hc hexec
        exact ⟨w₁.trans (w₂.trans (w₃.trans w₄)), hres⟩

theorem eraseFixLoop_within (h : Closed S m) (hp : PtrIn S parent)
    (hexec : eraseFixLoop fuel node parent m = some m') : Within S m m' := by
  induction fuel generalizing m node parent with
  | zero => cases hexec
  | succ fuel ih =>
      simp only [eraseFixLoop, Option.bind_eq_bind, Option.bind_eq_some_iff] at hexec
      obtain ⟨n, -, ⟨m₁, next⟩, hside, hexec⟩ := hexec
      obtain ⟨w₁, hnext⟩ := eraseFixSide_within h hp hside
      cases next with
      | none => exact Option.some.inj hexec ▸ w₁
      | some q => exact w₁.trans (ih w₁.closed (hnext q rfl).2 hexec)

theorem rbErase_within (h : Closed S m) (hn : PtrIn S node)
    (hexec : rbErase fuel node m = some m') : Within S m m' := by
  simp only [rbErase, Option.bind_eq_bind, Option.bind_eq_some_iff] at hexec
  obtain ⟨⟨r, m₁⟩, hunlink, hexec⟩ := hexec
  obtain ⟨w₁, hr⟩ := rbUnlink_within h hn hunlink
  split at hexec
  · exact w₁.trans (eraseFixLoop_within w₁.closed hr hexec)
  · exact Option.some.inj hexec ▸ w₁

/-! ## Trees -/

theorem Holds.nodeIn {p : ℕ} {t : RbTree ℕ} (h : Holds m p t) (ht : ∀ a ∈ t.toList, a ∈ S)
    (hp : PtrIn S p) {a : ℕ} (ha : a ∈ t.toList) : NodeIn S (m.nodes a) := by
  induction t generalizing p with
  | nil => cases ha
  | node c l b r ihl ihr =>
      obtain ⟨hb, hcell, hl, hr⟩ := h
      have hptr : ∀ t' : RbTree ℕ, (∀ x ∈ t'.toList, x ∈ S) → PtrIn S t'.ptr := fun t' ht' =>
        (Classical.em (t'.ptr = 0)).imp id fun h0 => ht' _ (ptr_mem h0)
      have htl : ∀ x ∈ l.toList, x ∈ S := fun x hx => ht x (by simp [hx])
      have htr : ∀ x ∈ r.toList, x ∈ S := fun x hx => ht x (by simp [hx])
      simp only [toList_node, List.mem_append, List.mem_cons] at ha
      rcases ha with ha | rfl | ha
      · exact ihl hl htl (.inr (ht b (by simp))) ha
      · refine ⟨fun s => ?_, p, c, hp, by rw [hcell, cell_parentColor]⟩
        rw [hcell]
        cases s with
        | left => exact hptr l htl
        | right => exact hptr r htr
      · exact ihr hr htr (.inr (ht b (by simp))) ha

/-- No pointer leaves a tree. -/
theorem HoldsTree.closed {t : RbTree ℕ} (h : HoldsTree m t) : Closed {a | a ∈ t.toList} m where
  isNode _ ha := h.2.isNode ha
  root := h.1 ▸ (Classical.em (t.ptr = 0)).imp id ptr_mem
  node _ ha := h.2.nodeIn (fun _ hb => hb) .zero ha

/-- **Deletion writes to the nodes of the tree only.** -/
theorem rbErase_frame {t : RbTree ℕ} (h : HoldsTree m t) (hn : node ∈ t.toList)
    (hexec : rbErase fuel node m = some m') {a : ℕ} (ha : a ∉ t.toList) :
    m'.nodes a = m.nodes a :=
  (rbErase_within h.closed (.inr hn) hexec).frame a ha

/-- **Insertion writes to the node and to the nodes of the tree only.** -/
theorem rbInsert_frame {cmp : ℕ → ℕ → Bool} {ret : ℤ} {t : RbTree ℕ} (h : HoldsTree m t)
    (hN : IsNode node) (hnot : node ∉ t.toList)
    (hexec : rbInsert cmp fuel node m = some (ret, m')) {a : ℕ} (hne : a ≠ node)
    (ha : a ∉ t.toList) : m'.nodes a = m.nodes a := by
  have hput : HoldsTree (m.put node ⟨0, 0, 0⟩) t := ⟨h.1, h.2.put hnot⟩
  have hclosed : Closed (insert node {a | a ∈ t.toList}) (m.put node ⟨0, 0, 0⟩) := by
    refine ⟨?_, ?_, ?_⟩
    · rintro b (rfl | hb)
      · exact hN
      · exact h.2.isNode hb
    · exact hput.closed.root.imp id .inr
    · rintro b (rfl | hb)
      · rw [put_self]
        exact ⟨fun s => by cases s <;> exact .zero, 0, .red, .zero, rfl⟩
      · exact hput.2.nodeIn (fun _ hx => .inr hx) .zero hb
  have hw := rbInsert_within hclosed (.inl rfl) hexec
  rw [hw.frame a fun hin => hin.elim hne ha, put_of_ne hne]

end OsLab
