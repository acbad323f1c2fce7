import OsLab.Kernel.Sched
import Mathlib.Algebra.Order.BigOperators.Group.List
import Mathlib.Data.Finset.Card

/-!
# The queues of the scheduler

The vruntimes of the nodes in one queue lie in a window of less than half the range of `u64`:
there `__sched_cmp` is an order, and the queue is a tree in it.  What the scheduler does to
the trees is described here by the sets of linked nodes.

## Main definitions

* `InWindow v base Q` — the vruntimes of the nodes in `Q` are less than `2^63` after `base`.
* `SchedLayout.home` — the container in whose queue a node goes.
* `Queued L s Q t` — the nodes in `Q` lie in the trees `t`, each in its home, and are counted.
-/

namespace OsLab

open RbTree

/-! ## The order -/

/-- The vruntimes of the nodes in `Q` are less than `2^63` after `base`. -/
def InWindow (v : ℕ → UInt64) (base : UInt64) (Q : Set ℕ) : Prop :=
  ∀ n ∈ Q, (v n - base).toNat < 2 ^ 63

/-- The order by (vruntime, address), from `base` on -/
def windowCmp (v : ℕ → UInt64) (base : UInt64) (a b : ℕ) : Bool :=
  (v a - base).toNat < (v b - base).toNat ∨ ((v a - base).toNat = (v b - base).toNat ∧ a < b)

instance windowCmp_order (v : ℕ → UInt64) (base : UInt64) :
    IsStrictWeakOrder ℕ fun a b => windowCmp v base a b = true where
  irrefl a h := by simp [windowCmp] at h
  trans a b c hab hbc := by
    simp only [windowCmp, decide_eq_true_eq] at *
    omega
  incomp_trans a b c hab hbc := by
    simp only [windowCmp, decide_eq_true_eq] at *
    omega

/-- The difference of two counters of a window, as `i64` -/
theorem toInt_sub_of_window {a b base : UInt64} (ha : (a - base).toNat < 2 ^ 63)
    (hb : (b - base).toNat < 2 ^ 63) :
    (a - b).toInt64.toInt = ((a - base).toNat : ℤ) - (b - base).toNat := by
  have heq : a - b = a - base - (b - base) := by grind
  rw [heq]
  generalize a - base = x at ha
  generalize b - base = y at hb
  have h : (x - y).toInt64.toInt = (x.toBitVec - y.toBitVec).toInt := rfl
  have hx : x.toBitVec.toNat = x.toNat := rfl
  have hy : y.toBitVec.toNat = y.toNat := rfl
  rw [h, BitVec.toInt_eq_toNat_cond, BitVec.toNat_sub, hx, hy]
  split <;> omega

/-- **In a window, `__sched_cmp` is an order.** -/
theorem windowCmp_eq {v : ℕ → UInt64} {base : UInt64} {a b : ℕ} (ha : (v a - base).toNat < 2 ^ 63)
    (hb : (v b - base).toNat < 2 ^ 63) : windowCmp v base a b = schedCmp v a b := by
  have hd := toInt_sub_of_window ha hb
  have hlt : (v a - v b).toInt64 < 0 ↔ (v a - base).toNat < (v b - base).toNat := by
    rw [Int64.lt_iff_toInt_lt, hd, Int64.toInt_zero]
    omega
  have heq : (v a - v b).toInt64 = 0 ↔ (v a - base).toNat = (v b - base).toNat := by
    rw [← Int64.toInt_inj, hd, Int64.toInt_zero]
    omega
  simp only [windowCmp, schedCmp, hlt, heq]
  split
  · simp [*]
  · split
    · simp [*]
    · simp [*]

theorem windowCmp_total {v : ℕ → UInt64} {base : UInt64} {a b : ℕ} (h : a ≠ b) :
    windowCmp v base a b = true ∨ windowCmp v base b a = true := by
  simp only [windowCmp, decide_eq_true_eq]
  omega

/-! ## Homes -/

namespace SchedLayout

variable (L : SchedLayout)

/-- The container in whose queue a node goes -/
def home (n : ℕ) : ℕ := if L.group n then L.parent n else L.container n

/-- The nodes that may be in a queue: the processes, and the containers but the root. -/
def Member (n : ℕ) : Prop := n ∈ L.procs ∨ (n ∈ L.containers ∧ n ≠ L.rootContainer)

variable {L} {n g : ℕ}

theorem home_proc (h : n ∈ L.procs) : L.home n = L.container n := by simp [home, L.proc_group n h]

theorem home_container (h : n ∈ L.containers) : L.home n = L.parent n := by
  simp [home, L.container_group n h]

theorem not_proc (h : n ∈ L.containers) : n ∉ L.procs := by
  intro hp
  have hg := L.container_group n h
  rw [L.proc_group n hp] at hg
  cases hg

theorem Member.isNode (h : L.Member n) : IsNode n := by
  rcases h with h | ⟨h, -⟩
  · exact L.proc_node n h
  · exact L.container_node n h

theorem Member.container (h : L.Member n) (hg : L.group n = true) :
    n ∈ L.containers ∧ n ≠ L.rootContainer := by
  rcases h with h | h
  · rw [L.proc_group n h] at hg
    cases hg
  · exact h

theorem Member.proc (h : L.Member n) (hg : L.group n = false) : n ∈ L.procs := by
  rcases h with h | ⟨h, -⟩
  · exact h
  · rw [L.container_group n h] at hg
    cases hg

theorem Member.home_mem (h : L.Member n) : L.home n ∈ L.containers := by
  rcases h with h | ⟨h, hne⟩
  · rw [home_proc h]
    exact L.container_mem n h
  · rw [home_container h]
    exact L.parent_mem n h hne

theorem parent_eq_zero (h : g ∈ L.containers) : L.parent g = 0 ↔ g = L.rootContainer := by
  constructor
  · intro h0
    by_contra hne
    exact (L.container_node _ (L.parent_mem g h hne)).ne h0
  · rintro rfl
    exact L.root_parent

end SchedLayout

/-! ## The queues -/

variable {L : SchedLayout}

/-- **The nodes in `Q` lie in the trees, each in its home, and are counted.** -/
structure Queued (L : SchedLayout) (s : Sched) (Q : Set ℕ) (t : ℕ → RbTree ℕ) : Prop where
  planted : Planted L.home (schedCmp s.vruntime) s.rq Q t
  count : ∀ g, s.nodeCnt g = (t g).toList.length
  member : ∀ n ∈ Q, L.Member n

namespace Queued

variable {s : Sched} {Q : Set ℕ} {t : ℕ → RbTree ℕ} {n g : ℕ}

theorem lt_fuel (h : Queued L s Q t) (g : ℕ) : (t g).toList.length < s.fuel g := by
  rw [Sched.fuel, h.count, Int.toNat_natCast]
  omega

/-- A node is linked in the queue of its home. -/
theorem mem_home (h : Queued L s Q t) (hn : n ∈ (t g).toList) : n ∈ Q ∧ L.home n = g :=
  ⟨((h.planted.mem n g).mp hn).1, ((h.planted.mem n g).mp hn).2.symm⟩

/-- What the functions do not look at may change. -/
theorem congr {s' : Sched} (h : Queued L s Q t) (hrq : s'.rq = s.rq)
    (hcnt : s'.nodeCnt = s.nodeCnt) (hv : s'.vruntime = s.vruntime) : Queued L s' Q t where
  planted := by rw [hrq, hv]; exact h.planted
  count := by rw [hcnt]; exact h.count
  member := h.member

end Queued

namespace Sched

variable {s : Sched} {Q : Set ℕ} {t : ℕ → RbTree ℕ} {n g : ℕ} {v : ℕ → UInt64}

/-- **`_rb_insert` with the assertion** -/
theorem enqueue_spec (h : Planted L.home (schedCmp s.vruntime) s.rq Q t) (hm : L.Member n)
    (hn : n ∉ Q) {base : UInt64}
    (hw : ∀ a ∈ n :: (t (L.home n)).toList, (s.vruntime a - base).toNat < 2 ^ 63)
    (hfuel : (t (L.home n)).toList.length < s.fuel (L.home n)) :
    ∃ F u, s.enqueue n (L.home n) = some { s with rq := F } ∧
      Planted L.home (schedCmp s.vruntime) F (Set.insert n Q) (Function.update t (L.home n) u) ∧
      u.toList.Perm (n :: (t (L.home n)).toList) := by
  have hcmp : ∀ a ∈ n :: (t (L.home n)).toList, ∀ b ∈ n :: (t (L.home n)).toList,
      windowCmp s.vruntime base a b = schedCmp s.vruntime a b := fun a ha b hb =>
    windowCmp_eq (hw a ha) (hw b hb)
  have htotal : ∀ a ∈ (t (L.home n)).toList,
      schedCmp s.vruntime n a = true ∨ schedCmp s.vruntime a n = true := by
    intro a ha
    rw [← hcmp n (by simp) a (by simp [ha]), ← hcmp a (by simp [ha]) n (by simp)]
    apply windowCmp_total
    rintro rfl
    exact h.notMem hn _ ha
  obtain ⟨m', u, hexec, hplanted, hperm⟩ := h.insert hm.isNode hn hcmp htotal hfuel
  refine ⟨_, u, ?_, hplanted, hperm⟩
  rw [enqueue, hexec, Option.bind_eq_bind, Option.bind_some]
  exact if_pos rfl

/-- **`_rb_erase`**, where the vruntime of the node may have changed -/
theorem dequeue_spec (h : Planted L.home (schedCmp v) s.rq Q t) (hn : n ∈ Q)
    (hv : ∀ a, a ≠ n → s.vruntime a = v a)
    (hfuel : (t (L.home n)).toList.length < s.fuel (L.home n)) :
    ∃ F u, s.dequeue n (L.home n) = some { s with rq := F } ∧
      Planted L.home (schedCmp s.vruntime) F (Q \ {n}) (Function.update t (L.home n) u) ∧
      u.toList = (t (L.home n)).toList.erase n := by
  have hcmp : ∀ a b, a ≠ n → b ≠ n → schedCmp s.vruntime a b = schedCmp v a b := by
    intro a b ha hb
    rw [schedCmp, schedCmp, hv a ha, hv b hb]
  obtain ⟨m', u, hexec, hplanted, hlist⟩ := h.erase hn hcmp hfuel
  refine ⟨_, u, ?_, hplanted, hlist⟩
  rw [dequeue, hexec, Option.bind_eq_bind, Option.bind_some]

/-! ## The search -/

/-- What `_rb_first_ex_p` passes over -/
def skipped (L : SchedLayout) (s : Sched) (n : ℕ) : Bool := L.group n && s.skip n

/-- **The first node in the order that is not skipped**, if there is one -/
theorem rbFirstExP_spec {m : ℕ} {u : RbTree ℕ} {p fuel : ℕ} (h : Holds (s.rq.mem m) p u)
    (hfuel : u.toList.length < fuel) :
    s.rbFirstExP L fuel u.ptr = some ((u.toList.find? fun n => !s.skipped L n).getD 0) := by
  induction u generalizing p fuel with
  | nil =>
      cases fuel with
      | zero => cases hfuel
      | succ fuel => rfl
  | node c l a r ihl ihr =>
      obtain ⟨ha, hcell, hl, hr⟩ := h
      have hleft : (s.rq.nodes a).left = l.ptr := by
        have := congrArg RbNode.left hcell
        exact this
      have hright : (s.rq.nodes a).right = r.ptr := by
        have := congrArg RbNode.right hcell
        exact this
      simp only [toList_node, List.length_append, List.length_cons] at hfuel
      cases fuel with
      | zero => cases hfuel
      | succ fuel =>
      -- the calls for the subtrees, made only if there is one
      have hsubl : (if l.ptr ≠ 0 then s.rbFirstExP L fuel l.ptr else some 0) =
          some ((l.toList.find? fun n => !s.skipped L n).getD 0) := by
        cases l with
        | nil => rfl
        | node c' l' b r' => rw [ptr_node, if_pos hl.1.ne, ← ihl hl (by omega : _ < fuel), ptr_node]
      have hsubr : (if r.ptr ≠ 0 then s.rbFirstExP L fuel r.ptr else some 0) =
          some ((r.toList.find? fun n => !s.skipped L n).getD 0) := by
        cases r with
        | nil => rfl
        | node c' l' b r' => rw [ptr_node, if_pos hr.1.ne, ← ihr hr (by omega : _ < fuel), ptr_node]
      rw [rbFirstExP, ptr_node, if_neg ha.ne, Option.bind_eq_bind]
      simp only [hleft, hright]
      rw [← apply_ite (fun o : Option ℕ => o.bind _), hsubl, hsubr, Option.bind_some, toList_node,
        List.find?_append]
      cases hfind : l.toList.find? fun n => !s.skipped L n with
      | some x =>
          have hx : x ≠ 0 := (hl.isNode (List.mem_of_find?_eq_some hfind)).ne
          simp [hx]
      | none =>
          by_cases hskip : s.skipped L a = true
          · have hboth : L.group a = true ∧ s.skip a = true := by simpa [skipped] using hskip
            simp [hskip, hboth]
          · have hboth : ¬(L.group a = true ∧ s.skip a = true) := by simpa [skipped] using hskip
            simp [hskip, hboth]

end Sched

end OsLab
