import OsLab.Kernel.PageTable

/-!
# The forest of page tables

The four levels of the page directories are a partial function `T pd k x` from a
directory, a level `k` and the address bits `x` above it to a page.  `Tables` says
that the pages hold this function: an entry of an upper level is zero or leads to the
next table, and no page is used for two tables.  Then `get_pte` without `alloc`
computes `T` on the prefixes of the address, and with `alloc` it extends `T` on them
and leaves everything else alone.

## Main definitions

* `TableMap`, `Tables` — the function, and the pages that hold it.
* `Grown` — what a walk has added.
* `Tables.getPte_false`, `Tables.getPte_true` — what `get_pte` does to the forest.
-/

namespace OsLab

/-- Bits 12 to 47 of an address: the number of its page. -/
def vpn (va : ℕ) : ℕ := va / 2 ^ 12 % 2 ^ 36

/-! ## The forest of tables -/

/-- The tables of all directories: `T pd k x` is the table of level `k` for the address bits
`x` above it. -/
def TableMap := ℕ → ℕ → ℕ → Option ℕ

namespace TableMap

/-- One more table. -/
def add (T : TableMap) (pd k x p : ℕ) : TableMap :=
  fun pd' k' x' => if pd' = pd ∧ k' = k ∧ x' = x then some p else T pd' k' x'

variable {T : TableMap} {pd k x p pd' k' x' : ℕ}

@[simp] theorem add_self : T.add pd k x p pd k x = some p := by simp [add]

theorem add_of_ne (h : ¬ (pd' = pd ∧ k' = k ∧ x' = x)) :
    T.add pd k x p pd' k' x' = T pd' k' x' := if_neg h

/-- A table is the new one or an old one. -/
theorem add_cases {t : ℕ} (h : T.add pd k x p pd' k' x' = some t) :
    (pd' = pd ∧ k' = k ∧ x' = x) ∧ t = p ∨ T pd' k' x' = some t := by
  rw [add] at h
  split_ifs at h with hkey
  · exact Or.inl ⟨hkey, (Option.some.inj h).symm⟩
  · exact Or.inr h

theorem forall_add {P : ℕ → Prop} (hp : P p) (h : ∀ pd k x t, T pd k x = some t → P t)
    {t : ℕ} (ht : T.add pd k x p pd' k' x' = some t) : P t := by
  rcases add_cases ht with ⟨-, rfl⟩ | ht
  · exact hp
  · exact h _ _ _ _ ht

end TableMap

/-- The entry for the next table, or zero. -/
def entryOf : Option ℕ → ℕ
  | none => 0
  | some c => k2p c ||| pteTable

/-- **The pages hold the tables `T`**, and no page is used twice. -/
structure Tables (T : TableMap) (root : ℕ → ℕ) (m : PageMem) : Prop where
  root : ∀ pd, root pd = (T pd 0 0).getD 0
  entry : ∀ pd k x t i, T pd k x = some t → k < 3 → i < 512 →
    m.pte t i = entryOf (T pd (k + 1) (x * 512 + i))
  /-- a table hangs below another one -/
  parent : ∀ pd k x, T pd (k + 1) x ≠ none → k < 3 ∧ T pd k (x / 512) ≠ none
  top : ∀ pd x, T pd 0 x ≠ none → x = 0
  inj : ∀ pd k x pd' k' x' t, T pd k x = some t → T pd' k' x' = some t →
    pd = pd' ∧ k = k' ∧ x = x'
  used : ∀ pd k x t, T pd k x = some t → t ∉ m.pages
  good : ∀ pd k x t, T pd k x = some t → GoodPage t

namespace Tables

variable {T : TableMap} {root : ℕ → ℕ} {m m' : PageMem} {pd k x t i p : ℕ} {ps : List ℕ}

theorem init (m : PageMem) : Tables (fun _ _ _ => none) (fun _ => 0) m := by
  constructor <;> simp

/-- A page that is not a table yet becomes one table. -/
theorem inj_add (h : Tables T root m) (hnew : ∀ pd' k' x' t', T pd' k' x' = some t' → t' ≠ p)
    {pd₁ k₁ x₁ pd₂ k₂ x₂ : ℕ} (h₁ : T.add pd k x p pd₁ k₁ x₁ = some t)
    (h₂ : T.add pd k x p pd₂ k₂ x₂ = some t) : pd₁ = pd₂ ∧ k₁ = k₂ ∧ x₁ = x₂ := by
  rcases TableMap.add_cases h₁ with ⟨hkey₁, heq₁⟩ | h₁
  · rcases TableMap.add_cases h₂ with ⟨hkey₂, -⟩ | h₂
    · omega
    · exact absurd heq₁ (hnew _ _ _ _ h₂)
  · rcases TableMap.add_cases h₂ with ⟨-, heq₂⟩ | h₂
    · exact absurd heq₂ (hnew _ _ _ _ h₁)
    · exact h.inj _ _ _ _ _ _ _ h₁ h₂

theorem child_none (h : Tables T root m) (hk : T pd k x = none) (hi : i < 512) :
    T pd (k + 1) (x * 512 + i) = none := by
  by_contra hne
  have := (h.parent pd k _ hne).2
  rw [show (x * 512 + i) / 512 = x by omega] at this
  exact this hk

/-- Other pages may change, and the queue may lose pages. -/
theorem frame (h : Tables T root m) (hmem : ∀ pd k x t, T pd k x = some t → m'.mem t = m.mem t)
    (hpages : ∀ pd k x t, T pd k x = some t → t ∉ m'.pages) : Tables T root m' := by
  obtain ⟨h1, h2, h3, h4, h5, h6, h7⟩ := h
  refine ⟨h1, ?_, h3, h4, h5, hpages, h7⟩
  intro pd k x t i ht hk hi
  rw [PageMem.pte_congr (hmem pd k x t ht)]
  exact h2 pd k x t i ht hk hi

/-- A leaf slot is written. -/
theorem setLeaf (h : Tables T root m) (ht : T pd 3 x = some t) (v : ℕ) :
    Tables T root (m.setPte t i v) := by
  obtain ⟨h1, h2, h3, h4, h5, h6, h7⟩ := h
  refine ⟨h1, ?_, h3, h4, h5, h6, h7⟩
  intro pd' k' x' t' j ht' hk hj
  have hne : t' ≠ t := by
    rintro rfl
    have := (h5 _ _ _ _ _ _ _ ht ht').2.1
    omega
  rw [PageMem.pte_setPte_of_ne (Or.inl hne)]
  exact h2 pd' k' x' t' j ht' hk hj

/-- A new table below table `t`. -/
theorem add (h : Tables T root m) (ht : T pd k x = some t) (hk : k < 3) (hi : i < 512)
    (hnone : T pd (k + 1) (x * 512 + i) = none) (hp : m.pages = p :: ps) (hps : p ∉ ps)
    (hgood : GoodPage p) :
    Tables (T.add pd (k + 1) (x * 512 + i) p) root
      ((PageMem.memset { m with pages := ps, allocPageCnt := m.allocPageCnt + 1 } p).setPte t i
        (k2p p ||| pteTable)) := by
  have hnew : ∀ pd' k' x' t', T pd' k' x' = some t' → t' ≠ p := by
    rintro pd' k' x' t' ht' rfl
    exact h.used pd' k' x' t' ht' (by simp [hp])
  have hpt : t ≠ p := hnew pd k x t ht
  constructor
  case root =>
    intro pd'
    rw [TableMap.add_of_ne (by omega)]
    exact h.root pd'
  case entry =>
    intro pd' k' x' t' j ht' hk' hj
    by_cases hkey : pd' = pd ∧ k' = k + 1 ∧ x' = x * 512 + i
    · -- the new table is empty
      obtain ⟨rfl, rfl, rfl⟩ := hkey
      rw [TableMap.add_self] at ht'
      cases ht'
      rw [PageMem.pte_setPte_of_ne (Or.inl (Ne.symm hpt)), PageMem.pte_memset_self,
        TableMap.add_of_ne (by omega), h.child_none hnone hj]
      rfl
    · rw [TableMap.add_of_ne hkey] at ht'
      have hne := hnew pd' k' x' t' ht'
      by_cases hslot : t' = t ∧ j = i
      · obtain ⟨rfl, rfl⟩ := hslot
        obtain ⟨rfl, rfl, rfl⟩ := h.inj _ _ _ _ _ _ _ ht ht'
        rw [PageMem.pte_setPte_self hj (hgood.entry_lt (by decide)), TableMap.add_self]
        rfl
      · rw [PageMem.pte_setPte_of_ne (by omega),
          PageMem.pte_congr (PageMem.memset_mem_of_ne hne), TableMap.add_of_ne]
        · exact h.entry pd' k' x' t' j ht' hk' hj
        · intro hchild
          -- then it would be the slot just written
          have hx : x' = x ∧ j = i := by omega
          have hpk : pd' = pd ∧ k' = k := by omega
          rw [hpk.1, hpk.2, hx.1, ht] at ht'
          cases ht'
          exact hslot ⟨rfl, hx.2⟩
  case parent =>
    intro pd' k' x' hne
    by_cases hkey : pd' = pd ∧ k' + 1 = k + 1 ∧ x' = x * 512 + i
    · have hk' : k' = k := by omega
      have hx' : x' / 512 = x := by omega
      rw [TableMap.add_of_ne (by omega), hkey.1, hk', hx', ht]
      simp [hk]
    · rw [TableMap.add_of_ne hkey] at hne
      obtain ⟨hlt, hpar⟩ := h.parent pd' k' x' hne
      refine ⟨hlt, ?_⟩
      by_cases hkey' : pd' = pd ∧ k' = k + 1 ∧ x' / 512 = x * 512 + i
      · rw [hkey'.1, hkey'.2.1, hkey'.2.2, TableMap.add_self]
        simp
      · rw [TableMap.add_of_ne hkey']
        exact hpar
  case top =>
    intro pd' x' hne
    rw [TableMap.add_of_ne (by omega)] at hne
    exact h.top pd' x' hne
  case inj =>
    intro pd₁ k₁ x₁ pd₂ k₂ x₂ t' h₁ h₂
    exact h.inj_add hnew h₁ h₂
  case used =>
    intro pd' k' x' t' ht'
    refine TableMap.forall_add (P := fun t => t ∉ ps) hps ?_ ht'
    intro pd' k' x' t' ht' hmem
    have := h.used _ _ _ _ ht'
    rw [hp] at this
    exact this (List.mem_cons_of_mem _ hmem)
  case good =>
    intro pd' k' x' t' ht'
    exact TableMap.forall_add hgood h.good ht'

/-- The root table of a directory. -/
theorem addRoot (h : Tables T root m) (hnone : T pd 0 0 = none) (hp : m.pages = p :: ps)
    (hps : p ∉ ps) (hgood : GoodPage p) :
    Tables (T.add pd 0 0 p) (Function.update root pd p)
      (PageMem.memset { m with pages := ps, allocPageCnt := m.allocPageCnt + 1 } p) := by
  have hnew : ∀ pd' k' x' t', T pd' k' x' = some t' → t' ≠ p := by
    rintro pd' k' x' t' ht' rfl
    exact h.used pd' k' x' t' ht' (by simp [hp])
  constructor
  case root =>
    intro pd'
    by_cases hpd : pd' = pd
    · rw [hpd, Function.update_self, TableMap.add_self]
      rfl
    · rw [Function.update_of_ne hpd, TableMap.add_of_ne (by omega)]
      exact h.root pd'
  case entry =>
    intro pd' k' x' t' j ht' hk' hj
    rw [TableMap.add_of_ne (by omega)]
    by_cases hkey : pd' = pd ∧ k' = 0 ∧ x' = 0
    · obtain ⟨rfl, rfl, rfl⟩ := hkey
      rw [TableMap.add_self] at ht'
      cases ht'
      rw [PageMem.pte_memset_self, h.child_none hnone hj]
      rfl
    · rw [TableMap.add_of_ne hkey] at ht'
      rw [PageMem.pte_congr (PageMem.memset_mem_of_ne (hnew _ _ _ _ ht'))]
      exact h.entry pd' k' x' t' j ht' hk' hj
  case parent =>
    intro pd' k' x' hne
    rw [TableMap.add_of_ne (by omega)] at hne
    obtain ⟨hlt, hpar⟩ := h.parent pd' k' x' hne
    refine ⟨hlt, ?_⟩
    by_cases hkey : pd' = pd ∧ k' = 0 ∧ x' / 512 = 0
    · rw [hkey.1, hkey.2.1, hkey.2.2, TableMap.add_self]
      simp
    · rw [TableMap.add_of_ne hkey]
      exact hpar
  case top =>
    intro pd' x' hne
    by_cases hx : x' = 0
    · exact hx
    · rw [TableMap.add_of_ne (by omega)] at hne
      exact h.top pd' x' hne
  case inj =>
    intro pd₁ k₁ x₁ pd₂ k₂ x₂ t' h₁ h₂
    exact h.inj_add hnew h₁ h₂
  case used =>
    intro pd' k' x' t' ht'
    refine TableMap.forall_add (P := fun t => t ∉ ps) hps ?_ ht'
    intro pd' k' x' t' ht' hmem
    have := h.used _ _ _ _ ht'
    rw [hp] at this
    exact this (List.mem_cons_of_mem _ hmem)
  case good =>
    intro pd' k' x' t' ht'
    exact TableMap.forall_add hgood h.good ht'

/-! ### Looking up -/

/-- An entry leads to the next table. -/
theorem nextTable_some (h : Tables T root m) (ht : T pd k x = some t) (hk : k < 3) (hi : i < 512)
    {c : ℕ} (hc : T pd (k + 1) (x * 512 + i) = some c) (alloc : Bool) :
    m.nextTable t i alloc = some (some c, m) := by
  have he := h.entry pd k x t i ht hk hi
  have hgood := h.good _ _ _ _ hc
  rw [hc, entryOf] at he
  rw [PageMem.nextTable, he, if_neg hgood.entry_valid, hgood.p2k_pteAddress (by decide)]

theorem nextTable_none (h : Tables T root m) (ht : T pd k x = some t) (hk : k < 3) (hi : i < 512)
    (hc : T pd (k + 1) (x * 512 + i) = none) :
    m.nextTable t i false = some (none, m) := by
  have he := h.entry pd k x t i ht hk hi
  rw [hc, entryOf] at he
  rw [PageMem.nextTable, if_pos (Or.inl he)]
  rfl

end Tables

/-- The address bits above level `k`, from the indices of the three upper levels. -/
def pre (a b c : ℕ) : ℕ → ℕ
  | 0 => 0
  | 1 => a
  | 2 => a * 512 + b
  | 3 => (a * 512 + b) * 512 + c
  | _ => 0

namespace Tables

variable {T : TableMap} {root : ℕ → ℕ} {m m' : PageMem} {pd k x t i p va a b c : ℕ} {ps : List ℕ}

/-- **Without `alloc` the walk computes `T`** and changes nothing. -/
theorem walk_false (h : Tables T root m) (ha : a < 512) (hb : b < 512) (hc : c < 512) :
    m.walk (root pd) [a, b, c] false = some (T pd 3 (pre a b c 3), root pd, m) := by
  rw [h.root pd]
  have h0a : T pd (0 + 1) (0 * 512 + a) = T pd 1 a := by simp
  -- below a missing table there is none
  have down1 : T pd 0 0 = none → T pd 1 a = none := fun h0 => h0a ▸ h.child_none h0 ha
  have down2 : T pd 1 a = none → T pd 2 (a * 512 + b) = none := fun h1 => h.child_none h1 hb
  have down3 : T pd 2 (a * 512 + b) = none → T pd 3 (pre a b c 3) = none :=
    fun h2 => h.child_none h2 hc
  cases h0 : T pd 0 0 with
  | none => rw [Option.getD_none, PageMem.walk_zero, down3 (down2 (down1 h0))]
  | some pt0 =>
      have hne : pt0 ≠ 0 := (h.good _ _ _ _ h0).ne_zero
      rw [Option.getD_some, PageMem.walk_of_ne hne]
      cases h1 : T pd 1 a with
      | none =>
          have e1 := h.nextTable_none h0 (by omega) ha (h0a.trans h1)
          rw [PageMem.descend_stop e1, down3 (down2 h1)]
          rfl
      | some pt1 =>
          have e1 := h.nextTable_some h0 (by omega) ha (h0a.trans h1) false
          rw [PageMem.descend_cons e1]
          cases h2 : T pd 2 (a * 512 + b) with
          | none =>
              have e2 := h.nextTable_none h1 (by omega) hb h2
              rw [PageMem.descend_stop e2, down3 h2]
              rfl
          | some pt2 =>
              have e2 := h.nextTable_some h1 (by omega) hb h2 false
              rw [PageMem.descend_cons e2]
              cases h3 : T pd 3 (pre a b c 3) with
              | none =>
                  have e3 := h.nextTable_none h2 (by omega) hc h3
                  rw [PageMem.descend_stop e3]
                  rfl
              | some pt3 =>
                  have e3 := h.nextTable_some h2 (by omega) hc h3 false
                  rw [PageMem.descend_cons e3]
                  rfl

end Tables

/-! ### Making tables -/

/-- What a walk in directory `pd` has added.  `key k` is the key of its table at level `k`. -/
structure Grown (pd : ℕ) (key : ℕ → ℕ) (T T' : TableMap) (m m' : PageMem) : Prop where
  le : ∀ pd' k x t, T pd' k x = some t → T' pd' k x = some t
  /-- the new tables are on the way, and come from the queue -/
  new : ∀ pd' k x t, T' pd' k x = some t → T pd' k x = some t ∨
    T pd' k x = none ∧ pd' = pd ∧ x = key k ∧ t ∈ m.pages
  leaf : ∀ pd' x t, T pd' 3 x = some t → m'.mem t = m.mem t
  zero : ∀ pd' x t i, T pd' 3 x = none → T' pd' 3 x = some t → m'.pte t i = 0
  /-- pages that are neither tables nor in the queue stay as they are -/
  frame : ∀ q, q ∉ m.pages → (∀ pd' k x, T pd' k x ≠ some q) → m'.mem q = m.mem q
  /-- and so do the pages left in the queue -/
  queue : ∀ q ∈ m'.pages, m'.mem q = m.mem q
  /-- pages are only taken from the queue -/
  taken : ∃ l, m.pages = l ++ m'.pages ∧ m'.allocPageCnt = m.allocPageCnt + l.length
  /-- for tables -/
  made : ∀ p ∈ m.pages, p ∉ m'.pages → ∃ k x, T' pd k x = some p
  same : m'.zeroPage = m.zeroPage ∧ m'.zeroPageCnt = m.zeroPageCnt

namespace Grown

variable {T T' T'' : TableMap} {m m' m'' : PageMem} {pd : ℕ} {key : ℕ → ℕ}

theorem refl (pd : ℕ) (key : ℕ → ℕ) (T : TableMap) (m : PageMem) : Grown pd key T T m m := by
  constructor
  case le => exact fun _ _ _ _ h => h
  case new => exact fun _ _ _ _ h => Or.inl h
  case leaf => exact fun _ _ _ _ => rfl
  case zero =>
    intro pd' x t i h h'
    rw [h] at h'
    cases h'
  case frame => exact fun _ _ _ => rfl
  case queue => exact fun _ _ => rfl
  case taken => exact ⟨[], rfl, by simp⟩
  case made => exact fun p hp hp' => absurd hp hp'
  case same => exact ⟨rfl, rfl⟩

theorem pages_subset (h : Grown pd key T T' m m') : m'.pages ⊆ m.pages := by
  obtain ⟨l, hl, -⟩ := h.taken
  rw [hl]
  exact List.subset_append_right l _

theorem trans (h : Grown pd key T T' m m') (h' : Grown pd key T' T'' m' m'') :
    Grown pd key T T'' m m'' := by
  constructor
  case le => exact fun pd' k x t ht => h'.le _ _ _ _ (h.le _ _ _ _ ht)
  case new =>
    intro pd' k x t ht
    rcases h'.new pd' k x t ht with ht' | ⟨hnone, hpd, hx, hmem⟩
    · exact h.new pd' k x t ht'
    · right
      refine ⟨?_, hpd, hx, h.pages_subset hmem⟩
      cases hT : T pd' k x with
      | none => rfl
      | some u =>
          rw [h.le _ _ _ _ hT] at hnone
          cases hnone
  case leaf =>
    intro pd' x t ht
    rw [h'.leaf pd' x t (h.le _ _ _ _ ht), h.leaf pd' x t ht]
  case zero =>
    intro pd' x t i hnone ht
    cases hT' : T' pd' 3 x with
    | none => exact h'.zero pd' x t i hT' ht
    | some u =>
        have hu : u = t := by
          have := h'.le _ _ _ _ hT'
          rw [this] at ht
          exact Option.some.inj ht
        rw [PageMem.pte_congr (h'.leaf pd' x t (hu ▸ hT'))]
        exact h.zero pd' x t i hnone (hu ▸ hT')
  case frame =>
    intro q hq hT
    rw [h'.frame q, h.frame q hq hT]
    · exact fun hmem => hq (h.pages_subset hmem)
    · intro pd' k x hT'
      rcases h.new pd' k x q hT' with ht | ⟨-, -, -, hmem⟩
      · exact hT pd' k x ht
      · exact hq hmem
  case queue =>
    intro q hq
    rw [h'.queue q hq, h.queue q (h'.pages_subset hq)]
  case taken =>
    obtain ⟨l, hl, hc⟩ := h.taken
    obtain ⟨l', hl', hc'⟩ := h'.taken
    refine ⟨l ++ l', by rw [hl, hl', List.append_assoc], ?_⟩
    rw [hc', hc, List.length_append]
    push_cast
    ring
  case made =>
    intro p hp hp''
    by_cases hp' : p ∈ m'.pages
    · exact h'.made p hp' hp''
    · obtain ⟨k, x, ht⟩ := h.made p hp hp'
      exact ⟨k, x, h'.le _ _ _ _ ht⟩
  case same => exact ⟨h'.same.1.trans h.same.1, h'.same.2.trans h.same.2⟩

theorem nodup (h : Grown pd key T T' m m') (hnd : m.pages.Nodup) : m'.pages.Nodup := by
  obtain ⟨l, hl, -⟩ := h.taken
  rw [hl] at hnd
  exact (List.nodup_append.mp hnd).2.1

end Grown

/-- The queue holds pages that can be used for tables. -/
structure Supply (m : PageMem) : Prop where
  nodup : m.pages.Nodup
  good : ∀ p ∈ m.pages, GoodPage p

theorem Grown.supply {pd : ℕ} {key : ℕ → ℕ} {T T' : TableMap} {m m' : PageMem}
    (h : Grown pd key T T' m m') (hs : Supply m) : Supply m' :=
  ⟨h.nodup hs.nodup, fun p hp => hs.good p (h.pages_subset hp)⟩

namespace Tables

variable {T : TableMap} {root : ℕ → ℕ} {m m' : PageMem} {pd k x t i p a b c : ℕ} {ps : List ℕ}
  {key : ℕ → ℕ} {r : Option ℕ}

/-- What a new table at a free place changes, apart from an entry of an upper level. -/
theorem grown_add (h : Tables T root m) (hnone : T pd k x = none) (hx : x = key k)
    (hp : m.pages = p :: ps) (hps : p ∉ ps) (hpages : m'.pages = ps)
    (hcount : m'.allocPageCnt = m.allocPageCnt + 1)
    (hsame : m'.zeroPage = m.zeroPage ∧ m'.zeroPageCnt = m.zeroPageCnt)
    (hmem : ∀ q, q ≠ p → (∀ pd' k' x', k' < 3 → T pd' k' x' ≠ some q) → m'.mem q = m.mem q)
    (hzero : ∀ j, m'.pte p j = 0) : Grown pd key T (T.add pd k x p) m m' := by
  have hnew : ∀ pd' k' x' t', T pd' k' x' = some t' → t' ≠ p := by
    rintro pd' k' x' t' ht' rfl
    exact h.used pd' k' x' t' ht' (by simp [hp])
  constructor
  case le =>
    intro pd' k' x' t' ht'
    rw [TableMap.add_of_ne]
    · exact ht'
    · rintro ⟨rfl, rfl, rfl⟩
      rw [hnone] at ht'
      cases ht'
  case new =>
    intro pd' k' x' t' ht'
    by_cases hkey : pd' = pd ∧ k' = k ∧ x' = x
    · obtain ⟨rfl, rfl, rfl⟩ := hkey
      rw [TableMap.add_self] at ht'
      cases ht'
      exact Or.inr ⟨hnone, rfl, hx, by simp [hp]⟩
    · rw [TableMap.add_of_ne hkey] at ht'
      exact Or.inl ht'
  case leaf =>
    intro pd' x' t' ht'
    apply hmem t' (hnew _ _ _ _ ht')
    intro pd₂ k₂ x₂ hlt h₂
    have := (h.inj _ _ _ _ _ _ _ ht' h₂).2.1
    omega
  case zero =>
    intro pd' x' t' j hT ht'
    by_cases hkey : pd' = pd ∧ 3 = k ∧ x' = x
    · obtain ⟨rfl, rfl, rfl⟩ := hkey
      rw [TableMap.add_self] at ht'
      cases ht'
      exact hzero j
    · rw [TableMap.add_of_ne hkey, hT] at ht'
      cases ht'
  case frame =>
    intro q hq hT
    apply hmem q
    · rintro rfl
      exact hq (by simp [hp])
    · exact fun pd' k' x' _ => hT pd' k' x'
  case queue =>
    intro q hq
    rw [hpages] at hq
    apply hmem q
    · rintro rfl
      exact hps hq
    · intro pd' k' x' _ hT
      exact h.used _ _ _ _ hT (by simp [hp, hq])
  case taken => exact ⟨[p], by simp [hp, hpages], by simp [hcount]⟩
  case made =>
    intro q hq hq'
    rw [hp, List.mem_cons] at hq
    rw [hpages] at hq'
    have hqp : q = p := hq.resolve_right hq'
    exact ⟨k, x, by rw [hqp, TableMap.add_self]⟩
  case same => exact hsame

/-- A level of `get_pte` with `alloc`. -/
theorem nextTable_true (h : Tables T root m) (key : ℕ → ℕ) (hs : Supply m)
    (ht : T pd k x = some t) (hk : k < 3) (hi : i < 512) (hkey : x * 512 + i = key (k + 1))
    (hr : m.nextTable t i true = some (r, m')) :
    ∃ T' c, r = some c ∧ T' pd (k + 1) (x * 512 + i) = some c ∧ Tables T' root m' ∧
      Grown pd key T T' m m' := by
  cases hc : T pd (k + 1) (x * 512 + i) with
  | some c =>
      rw [h.nextTable_some ht hk hi hc true] at hr
      cases hr
      exact ⟨T, c, rfl, hc, h, Grown.refl pd key T m⟩
  | none =>
      have he := h.entry pd k x t i ht hk hi
      rw [hc, entryOf] at he
      rw [PageMem.nextTable, if_pos (Or.inl he), if_pos rfl, Option.bind_eq_bind,
        Option.bind_eq_some_iff] at hr
      obtain ⟨⟨p, s⟩, hnew, hr⟩ := hr
      obtain ⟨ps, hp, hs'⟩ := PageMem.newTable_eq hnew
      simp only at hp hs'
      cases hr
      have hpps : p ∉ ps := by
        have := hs.nodup
        rw [hp] at this
        exact (List.nodup_cons.mp this).1
      have hgood : GoodPage p := hs.good p (by simp [hp])
      have htp : t ≠ p := by
        rintro rfl
        exact h.used _ _ _ _ ht (by simp [hp])
      refine ⟨T.add pd (k + 1) (x * 512 + i) p, p, rfl, TableMap.add_self, ?_, ?_⟩
      · rw [hs']
        exact h.add ht hk hi hc hp hpps hgood
      · rw [hs']
        refine h.grown_add hc hkey hp hpps ?_ ?_ ?_ ?_ ?_
        · rfl
        · rfl
        · exact ⟨rfl, rfl⟩
        · intro q hqp hq
          have hqt : q ≠ t := by
            rintro rfl
            exact hq pd k x hk ht
          rw [PageMem.setPte_mem_of_ne hqt, PageMem.memset_mem_of_ne hqp]
        · intro j
          rw [PageMem.pte_setPte_of_ne (Or.inl (Ne.symm htp)), PageMem.pte_memset_self]

/-- The first lines of `get_pte` with `alloc`. -/
theorem rootTable_true (h : Tables T root m) (key : ℕ → ℕ) (hs : Supply m) (hkey : 0 = key 0)
    (hr : m.rootTable (root pd) true = some (r, m')) :
    ∃ T' pt0, r = some pt0 ∧ T' pd 0 0 = some pt0 ∧ Tables T' (Function.update root pd pt0) m' ∧
      Grown pd key T T' m m' := by
  have hroot := h.root pd
  cases h0 : T pd 0 0 with
  | some pt0 =>
      rw [h0, Option.getD_some] at hroot
      rw [hroot, PageMem.rootTable_of_ne (h.good _ _ _ _ h0).ne_zero] at hr
      cases hr
      refine ⟨T, pt0, rfl, h0, ?_, Grown.refl pd key T m⟩
      rw [← hroot, Function.update_eq_self]
      exact h
  | none =>
      rw [h0, Option.getD_none] at hroot
      rw [hroot, PageMem.rootTable, if_pos rfl, if_pos rfl, Option.bind_eq_bind,
        Option.bind_eq_some_iff] at hr
      obtain ⟨⟨p, s⟩, hnew, hr⟩ := hr
      obtain ⟨ps, hp, hs'⟩ := PageMem.newTable_eq hnew
      simp only at hp hs'
      cases hr
      have hpps : p ∉ ps := by
        have := hs.nodup
        rw [hp] at this
        exact (List.nodup_cons.mp this).1
      refine ⟨T.add pd 0 0 p, p, rfl, TableMap.add_self, ?_, ?_⟩
      · rw [hs']
        exact h.addRoot h0 hp hpps (hs.good p (by simp [hp]))
      · rw [hs']
        refine h.grown_add h0 hkey hp hpps ?_ ?_ ?_ ?_ ?_
        · rfl
        · rfl
        · exact ⟨rfl, rfl⟩
        · exact fun q hqp _ => PageMem.memset_mem_of_ne hqp
        · exact fun j => PageMem.pte_memset_self

/-- **With `alloc` the walk finds or makes its table.** -/
theorem walk_true (h : Tables T root m) (hs : Supply m) (ha : a < 512) (hb : b < 512)
    (hc : c < 512) {pt : ℕ} (hr : m.walk (root pd) [a, b, c] true = some (r, pt, m')) :
    ∃ T' t, r = some t ∧ T' pd 3 (pre a b c 3) = some t ∧
      Tables T' (Function.update root pd pt) m' ∧ Grown pd (pre a b c) T T' m m' := by
  rw [PageMem.walk, Option.bind_eq_bind, Option.bind_eq_some_iff] at hr
  obtain ⟨⟨r0, m0⟩, hr0, hr⟩ := hr
  obtain ⟨T0, pt0, rfl, ht0, h0, g0⟩ := h.rootTable_true (pre a b c) hs rfl hr0
  simp only [Option.bind_eq_some_iff] at hr
  obtain ⟨⟨r3, m3⟩, hr3, hr⟩ := hr
  cases hr
  -- the three levels
  rw [PageMem.descend, Option.bind_eq_bind, Option.bind_eq_some_iff] at hr3
  obtain ⟨⟨r1, m1⟩, hr1, hr3⟩ := hr3
  obtain ⟨T1, pt1, rfl, ht1, h1, g1⟩ := h0.nextTable_true (pre a b c) (g0.supply hs) ht0
    (by omega) ha (by simp [pre]) hr1
  have hs1 := g1.supply (g0.supply hs)
  have ht1 : T1 pd 1 a = some pt1 := by simpa using ht1
  simp only at hr3
  rw [PageMem.descend, Option.bind_eq_bind, Option.bind_eq_some_iff] at hr3
  obtain ⟨⟨r2, m2⟩, hr2, hr3⟩ := hr3
  obtain ⟨T2, pt2, rfl, ht2, h2, g2⟩ := h1.nextTable_true (pre a b c) hs1 ht1
    (by omega) hb rfl hr2
  have hs2 := g2.supply hs1
  simp only at hr3
  rw [PageMem.descend, Option.bind_eq_bind, Option.bind_eq_some_iff] at hr3
  obtain ⟨⟨r3', m3'⟩, hr3', hr3⟩ := hr3
  obtain ⟨T3, pt3, rfl, ht3, h3, g3⟩ := h2.nextTable_true (pre a b c) hs2 ht2
    (by omega) hc rfl hr3'
  cases hr3
  exact ⟨T3, pt3, rfl, ht3, h3, (g0.trans g1).trans (g2.trans g3)⟩

end Tables

/-! ## Addresses -/

/-- The key of the last table for an address. -/
def leafKey (va : ℕ) : ℕ := pre (vaPart0 va) (vaPart1 va) (vaPart2 va) 3

theorem leafKey_eq (va : ℕ) : leafKey va = va / 2 ^ 21 % 2 ^ 27 := by
  simp only [leafKey, pre, vaPart0_eq, vaPart1_eq, vaPart2_eq]
  omega

theorem vpn_eq (va : ℕ) : vpn va = leafKey va * 512 + vaPart3 va := by
  rw [leafKey_eq, vaPart3_eq, vpn]
  omega

theorem vaPart0_lt (va : ℕ) : vaPart0 va < 512 := by
  rw [vaPart0_eq]
  omega

theorem vaPart1_lt (va : ℕ) : vaPart1 va < 512 := by
  rw [vaPart1_eq]
  omega

theorem vaPart2_lt (va : ℕ) : vaPart2 va < 512 := by
  rw [vaPart2_eq]
  omega

theorem vaPart3_lt (va : ℕ) : vaPart3 va < 512 := by
  rw [vaPart3_eq]
  omega

theorem vpn_div (va : ℕ) : vpn va / 512 = leafKey va := by
  have := vpn_eq va
  have := vaPart3_lt va
  omega

theorem vpn_mod (va : ℕ) : vpn va % 512 = vaPart3 va := by
  have := vpn_eq va
  have := vaPart3_lt va
  omega

namespace Tables

variable {T : TableMap} {root : ℕ → ℕ} {m m' : PageMem} {pd va pt : ℕ}
  {slot : Option (ℕ × ℕ)}

theorem getPte_false (h : Tables T root m) (pd va : ℕ) : m.getPte (root pd) va false =
    some ((T pd 3 (leafKey va)).map fun t => (t, vaPart3 va), root pd, m) := by
  rw [PageMem.getPte, h.walk_false (vaPart0_lt va) (vaPart1_lt va) (vaPart2_lt va)]
  rfl

theorem getPte_true (h : Tables T root m) (hs : Supply m)
    (hr : m.getPte (root pd) va true = some (slot, pt, m')) :
    ∃ T' t, slot = some (t, vaPart3 va) ∧ T' pd 3 (leafKey va) = some t ∧
      Tables T' (Function.update root pd pt) m' ∧
      Grown pd (pre (vaPart0 va) (vaPart1 va) (vaPart2 va)) T T' m m' := by
  rw [PageMem.getPte, Option.bind_eq_bind, Option.bind_eq_some_iff] at hr
  obtain ⟨⟨r, pt', m''⟩, hw, hr⟩ := hr
  simp only [Option.some.injEq, Prod.mk.injEq] at hr
  obtain ⟨rfl, rfl, rfl⟩ := hr
  obtain ⟨T', t, rfl, ht, h', g⟩ :=
    h.walk_true hs (vaPart0_lt va) (vaPart1_lt va) (vaPart2_lt va) hw
  exact ⟨T', t, rfl, ht, h', g⟩

end Tables

end OsLab
