import OsLab.Kernel.Slab

/-!
# Slab objects do not overlap

An object is *out* if it is live or waits in an array cache.  The invariant says that
the indices in the unused part of a slab's freelist are distinct and that no object that
is out has one of them.  The lists of slabs matter only in that a slab in the partial
list has an unused index.

That `active` is positive where an object comes back is not part of the invariant: were
it zero, the freelist would hold every index.

## Main definitions

* `objAddr`, `IsSlab`, `Out` — where objects lie.
* `SlabCore`, `SlabLists` — the invariant.
* `slab_objects_apart` — what holds of the live objects of every run.
-/

namespace OsLab

/-! ## The layout of a page -/

theorem pageSize_eq : pageSize = 4096 := rfl

theorem objNum_eq (size : ℕ) : objNum size = 3608 / (size + 4) := rfl

/-- The address of object `idx` of a slab for objects of `size` bytes. -/
def objAddr (slab size idx : ℕ) : ℕ :=
  slab + sizeofSlabNode + (sizeofInt * objNum size / 8 + 1) * 8 + idx * size

variable {a b size size' idx idx' p q : ℕ}

theorem objNum_pos (hsize : size < 2048) : 0 < objNum size := by
  rw [objNum_eq]
  apply Nat.div_pos
  · omega
  · omega

theorem objNum_mul_le (size : ℕ) : objNum size * (size + 4) ≤ 3608 := by
  rw [objNum_eq]
  exact Nat.div_mul_le_self _ _

/-- **The object lies between the freelist and the place of the `CacheNode`.** -/
theorem objAddr_bounds (slab : ℕ) (hidx : idx < objNum size) :
    slab + sizeofSlabNode + sizeofInt * objNum size ≤ objAddr slab size idx ∧
      objAddr slab size idx + size ≤ slab + pageSize - sizeofCacheNode := by
  have hmul := objNum_mul_le size
  have hle : (idx + 1) * size ≤ objNum size * size := Nat.mul_le_mul_right _ hidx
  rw [Nat.mul_add] at hmul
  rw [Nat.add_mul, Nat.one_mul] at hle
  simp only [objAddr, sizeofSlabNode, sizeofInt, pageSize, sizeofCacheNode]
  omega

theorem pageBase_of_mod (h : a % pageSize = 0) : pageBase a = a := by
  rw [pageBase, pageSize_eq] at *
  omega

/-- The page of an object is its slab. -/
theorem pageBase_objAddr (ha : a % pageSize = 0) (hsize : 1 ≤ size) (hidx : idx < objNum size) :
    pageBase (objAddr a size idx) = a := by
  obtain ⟨hlo, hhi⟩ := objAddr_bounds a hidx
  rw [pageSize_eq] at ha
  simp only [sizeofSlabNode, sizeofInt, pageSize, sizeofCacheNode, pageBase] at *
  omega

/-- `get_obj_index` finds the index. -/
theorem getObjIndex_objAddr {sl : SlabNode} (hcolour : sl.colour = 0) (hsize : 1 ≤ size) :
    getObjIndex sl a size (objNum size) (objAddr a size idx) = idx := by
  rw [getObjIndex, hcolour, objAddr, sizeofSlabNode]
  have hsub : a + 40 + (sizeofInt * objNum size / 8 + 1) * 8 + idx * size - a -
      (sizeofInt * objNum size / 8 + 1) * 8 - 0 - 40 = idx * size := by omega
  rw [hsub, Nat.mul_div_cancel _ hsize]

theorem objAddr_inj (ha : a % pageSize = 0) (hb : b % pageSize = 0) (hsize : 1 ≤ size)
    (hidx : idx < objNum size) (hidx' : idx' < objNum size)
    (h : objAddr a size idx = objAddr b size idx') : a = b ∧ idx = idx' := by
  have hab : a = b := by
    rw [← pageBase_objAddr ha hsize hidx, h, pageBase_objAddr hb hsize hidx']
  subst hab
  have hmul : idx * size = idx' * size := by
    rw [objAddr, objAddr] at h
    omega
  exact ⟨rfl, Nat.eq_of_mul_eq_mul_right hsize hmul⟩

/-- Two objects of one slab. -/
theorem objAddr_disjoint (slab : ℕ) (h : idx < idx') :
    objAddr slab size idx + size ≤ objAddr slab size idx' := by
  have hle : (idx + 1) * size ≤ idx' * size := Nat.mul_le_mul_right _ h
  rw [Nat.add_mul, Nat.one_mul] at hle
  rw [objAddr, objAddr]
  omega

theorem objAddr_mod_eight (ha : a % pageSize = 0) (h : 8 ∣ size) : objAddr a size idx % 8 = 0 := by
  have hmul : 8 ∣ idx * size := Nat.dvd_mul_left_of_dvd h idx
  rw [pageSize_eq] at ha
  simp only [objAddr, sizeofSlabNode]
  omega

theorem objAddr_mod_four (ha : a % pageSize = 0) (h : 4 ∣ size) : objAddr a size idx % 4 = 0 := by
  have hmul : 4 ∣ idx * size := Nat.dvd_mul_left_of_dvd h idx
  rw [pageSize_eq] at ha
  simp only [objAddr, sizeofSlabNode]
  omega

/-! ## The freelist -/

/-- The unused part of a freelist holds distinct indices. -/
structure SlabOk (sl : SlabNode) (num : ℕ) : Prop where
  colour : sl.colour = 0
  active : sl.active ≤ num
  lt : ∀ i, sl.active ≤ i → i < num → sl.freelist i < num
  inj : ∀ i j, sl.active ≤ i → i < num → sl.active ≤ j → j < num →
    sl.freelist i = sl.freelist j → i = j

/-- The index is in the unused part. -/
def SlabNode.Unused (sl : SlabNode) (num idx : ℕ) : Prop :=
  ∃ i, sl.active ≤ i ∧ i < num ∧ sl.freelist i = idx

variable {sl : SlabNode} {num : ℕ}

theorem slabOk_init (owner num : ℕ) : SlabOk (initSlabNode owner) num where
  colour := rfl
  active := Nat.zero_le _
  lt := fun _ _ h => h
  inj := fun _ _ _ _ _ _ h => h

theorem SlabOk.alloc (h : SlabOk sl num) (hlt : sl.active < num) :
    SlabOk { sl with active := sl.active + 1 } num where
  colour := h.colour
  active := hlt
  lt := fun i hi => h.lt i (Nat.le_of_succ_le hi)
  inj := fun i j hi hin hj => h.inj i j (Nat.le_of_succ_le hi) hin (Nat.le_of_succ_le hj)

/-- An index that is not in the freelist: then some index is out. -/
theorem SlabOk.active_pos (h : SlabOk sl num) (hidx : idx < num) (hused : ¬ sl.Unused num idx) :
    0 < sl.active := by
  by_contra h0
  have h0' : sl.active = 0 := by omega
  -- an injection of the indices into themselves is onto
  have hinj : Set.InjOn sl.freelist (Finset.range num) := by
    intro i hi j hj
    rw [Finset.mem_coe, Finset.mem_range] at hi hj
    exact h.inj i j (by omega) hi (by omega) hj
  have hmaps : ∀ i ∈ Finset.range num, sl.freelist i ∈ Finset.range num := by
    intro i hi
    rw [Finset.mem_range] at hi ⊢
    exact h.lt i (by omega) hi
  obtain ⟨i, hi, heq⟩ := Finset.surjOn_of_injOn_of_card_le sl.freelist hmaps hinj (le_refl _)
    (Finset.mem_coe.mpr (Finset.mem_range.mpr hidx))
  rw [Finset.mem_coe, Finset.mem_range] at hi
  exact hused ⟨i, by omega, hi, heq⟩

/-- An object comes back. -/
theorem SlabOk.free (h : SlabOk sl num) (hidx : idx < num) (hused : ¬ sl.Unused num idx) :
    SlabOk { sl with active := sl.active - 1,
                     freelist := Function.update sl.freelist (sl.active - 1) idx } num := by
  have hpos := h.active_pos hidx hused
  have hle := h.active
  have hget : ∀ i, sl.active - 1 ≤ i → i < num →
      Function.update sl.freelist (sl.active - 1) idx i =
        if i = sl.active - 1 then idx else sl.freelist i := by
    intro i _ _
    rw [Function.update_apply]
  refine ⟨h.colour, le_trans (Nat.sub_le _ _) hle, ?_, ?_⟩
  · intro i hi hin
    show Function.update sl.freelist (sl.active - 1) idx i < num
    rw [hget i hi hin]
    split
    · exact hidx
    · rename_i hne
      have hi' : sl.active - 1 ≤ i := hi
      exact h.lt i (by omega) hin
  · intro i j hi hin hj hjn heq
    have hi' : sl.active - 1 ≤ i := hi
    have hj' : sl.active - 1 ≤ j := hj
    have heq' : Function.update sl.freelist (sl.active - 1) idx i =
      Function.update sl.freelist (sl.active - 1) idx j := heq
    rw [hget i hi hin, hget j hj hjn] at heq'
    by_cases h₁ : i = sl.active - 1
    · by_cases h₂ : j = sl.active - 1
      · omega
      · rw [if_pos h₁, if_neg h₂] at heq'
        exact absurd ⟨j, by omega, hjn, heq'.symm⟩ hused
    · by_cases h₂ : j = sl.active - 1
      · rw [if_neg h₁, if_pos h₂] at heq'
        exact absurd ⟨i, by omega, hin, heq'⟩ hused
      · rw [if_neg h₁, if_neg h₂] at heq'
        exact h.inj i j (by omega) hin (by omega) hjn heq'

/-! ## The invariant -/

/-- `a` is a slab of the cache for `size`. -/
def IsSlab (h : Heap) (size a : ℕ) : Prop :=
  a ∈ h.pages ∧ h.kmemCacheArray size ≠ 0 ∧ (h.slabNode a).ownerCache = h.kmemCacheArray size

/-- The objects of `size` bytes that wait in the array cache of a CPU. -/
def cached (h : Heap) (size : ℕ) (cpu : Fin cpuNum) : List ℕ :=
  (h.cacheNode (h.kmemCacheArray size)).arrayCache cpu

/-- The object of `size` bytes is live or waits in an array cache. -/
def Out (h : Heap) (live : List (ℕ × ℕ)) (size p : ℕ) : Prop :=
  (p, size) ∈ live ∨ h.kmemCacheArray size ≠ 0 ∧ ∃ cpu, p ∈ cached h size cpu

/-- Object `p` is object `idx` of slab `a`, and not in the freelist. -/
structure PlacedAt (h : Heap) (size p a idx : ℕ) : Prop where
  slab : IsSlab h size a
  lt : idx < objNum size
  eq : p = objAddr a size idx
  used : ¬ (h.slabNode a).Unused (objNum size) idx

/-- **The invariant**, apart from the lists of slabs. -/
structure SlabCore (h : Heap) (live : List (ℕ × ℕ)) : Prop where
  aligned : ∀ a ∈ h.pages, a % pageSize = 0
  sizes : ∀ size, h.kmemCacheArray size ≠ 0 → 1 ≤ size ∧ size < 2048
  caches : ∀ size, h.kmemCacheArray size ≠ 0 →
    (h.cacheNode (h.kmemCacheArray size)).objectSize = size ∧
      (h.cacheNode (h.kmemCacheArray size)).num = objNum size
  addrs : ∀ size, h.kmemCacheArray size ≠ 0 → ∃ a ∈ h.pages, h.kmemCacheArray size = cacheAddr a
  slabs : ∀ a ∈ h.pages, ∃ size, IsSlab h size a ∧ SlabOk (h.slabNode a) (objNum size)
  out : ∀ size p, Out h live size p → ∃ a idx, PlacedAt h size p a idx
  nodup : live.Nodup
  nodupCached : ∀ size cpu, h.kmemCacheArray size ≠ 0 → (cached h size cpu).Nodup
  liveCached : ∀ size p cpu, (p, size) ∈ live → p ∉ cached h size cpu
  cachedCached : ∀ size p cpu cpu', h.kmemCacheArray size ≠ 0 → p ∈ cached h size cpu →
    p ∈ cached h size cpu' → cpu = cpu'

/-- The invariant of the lists of slabs. -/
structure SlabLists (h : Heap) (size : ℕ) : Prop where
  partials : ∀ a ∈ (h.cacheNode (h.kmemCacheArray size)).slabsPartial,
    IsSlab h size a ∧ (h.slabNode a).active < objNum size
  frees : ∀ a ∈ (h.cacheNode (h.kmemCacheArray size)).slabsFree,
    IsSlab h size a ∧ (h.slabNode a).active = 0
  apart : ∀ a ∈ (h.cacheNode (h.kmemCacheArray size)).slabsFree,
    a ∉ (h.cacheNode (h.kmemCacheArray size)).slabsPartial

namespace SlabCore

variable {h h' : Heap} {live : List (ℕ × ℕ)} {cpu : Fin cpuNum}

/-- Two caches at one address are one. -/
theorem size_eq (hC : SlabCore h live) (h0 : h.kmemCacheArray size ≠ 0)
    (heq : h.kmemCacheArray size = h.kmemCacheArray size') : size = size' := by
  rw [← (hC.caches size h0).1, heq]
  rw [heq] at h0
  exact (hC.caches size' h0).1

/-- The size of a slab's objects. -/
theorem isSlab_size (hC : SlabCore h live) (ha : IsSlab h size a) (ha' : IsSlab h size' a) :
    size = size' := hC.size_eq ha.2.1 (ha.2.2.symm.trans ha'.2.2)

theorem slabOk (hC : SlabCore h live) (ha : IsSlab h size a) :
    SlabOk (h.slabNode a) (objNum size) := by
  obtain ⟨size', ha', hok⟩ := hC.slabs a ha.1
  rw [hC.isSlab_size ha ha']
  exact hok

/-- `PAGE_BASE` of an object finds its slab. -/
theorem pageBase_eq (hC : SlabCore h live) {a idx : ℕ} (hp : PlacedAt h size p a idx) :
    pageBase p = a := by
  rw [hp.eq]
  exact pageBase_objAddr (hC.aligned a hp.slab.1) (hC.sizes size hp.slab.2.1).1 hp.lt

/-- An unused index is not that of an object that is out. -/
theorem ne_unused (hC : SlabCore h live) (ha : IsSlab h size a) (hidx : idx < objNum size)
    (hun : (h.slabNode a).Unused (objNum size) idx) (hp : Out h live size p) :
    p ≠ objAddr a size idx := by
  obtain ⟨b, idx', hb⟩ := hC.out size p hp
  intro heq
  obtain ⟨rfl, rfl⟩ := objAddr_inj (hC.aligned a ha.1) (hC.aligned b hb.slab.1)
    (hC.sizes size ha.2.1).1 hidx hb.lt (heq.symm.trans hb.eq)
  exact hb.used hun

/-! ### Changes to a cache -/

/-- Only the lists of slabs change. -/
theorem congr (hC : SlabCore h live) (hp : h'.pages = h.pages)
    (hk : h'.kmemCacheArray = h.kmemCacheArray) (hs : h'.slabNode = h.slabNode)
    (hc : ∀ c, (h'.cacheNode c).objectSize = (h.cacheNode c).objectSize ∧
      (h'.cacheNode c).num = (h.cacheNode c).num ∧
      (h'.cacheNode c).arrayCache = (h.cacheNode c).arrayCache) : SlabCore h' live := by
  have hcached : cached h' = cached h := by
    funext size cpu
    rw [cached, (hc _).2.2, hk, cached]
  have hslab : IsSlab h' = IsSlab h := by
    funext size a
    rw [IsSlab, IsSlab, hp, hk, hs]
  have hout : Out h' live = Out h live := by
    funext size p
    rw [Out, Out, hk, hcached]
  constructor
  case aligned =>
    rw [hp]
    exact hC.aligned
  case sizes =>
    rw [hk]
    exact hC.sizes
  case caches =>
    intro size h0
    rw [(hc _).1, (hc _).2.1, hk]
    rw [hk] at h0
    exact hC.caches size h0
  case addrs =>
    rw [hp, hk]
    exact hC.addrs
  case slabs =>
    rw [hp, hs, hslab]
    exact hC.slabs
  case out =>
    intro size p hp'
    rw [hout] at hp'
    obtain ⟨a, idx, hpl⟩ := hC.out size p hp'
    exact ⟨a, idx, by rw [hslab]; exact hpl.slab, hpl.lt, hpl.eq, by rw [hs]; exact hpl.used⟩
  case nodup => exact hC.nodup
  case nodupCached =>
    rw [hk, hcached]
    exact hC.nodupCached
  case liveCached =>
    rw [hcached]
    exact hC.liveCached
  case cachedCached =>
    rw [hk, hcached]
    exact hC.cachedCached

theorem cached_setCache_self (h : Heap) (size : ℕ) (cn : CacheNode) :
    cached (h.setCache (h.kmemCacheArray size) cn) size = cn.arrayCache := by
  funext cpu
  show ((h.setCache (h.kmemCacheArray size) cn).cacheNode (h.kmemCacheArray size)).arrayCache cpu = _
  rw [Heap.cacheNode_setCache_self]

theorem cacheNode_setCache_of_ne (hC : SlabCore h live) (h0 : h.kmemCacheArray size ≠ 0)
    (hne : size' ≠ size) (cn : CacheNode) :
    (h.setCache (h.kmemCacheArray size) cn).cacheNode (h.kmemCacheArray size') =
      h.cacheNode (h.kmemCacheArray size') := by
  apply Heap.cacheNode_setCache_of_ne
  intro heq
  exact hne (hC.size_eq h0 heq.symm).symm

theorem cached_setCache_of_ne (hC : SlabCore h live) (h0 : h.kmemCacheArray size ≠ 0)
    (hne : size' ≠ size) (cn : CacheNode) :
    cached (h.setCache (h.kmemCacheArray size) cn) size' = cached h size' := by
  funext cpu
  show ((h.setCache (h.kmemCacheArray size) cn).cacheNode (h.kmemCacheArray size')).arrayCache cpu =
    _
  rw [hC.cacheNode_setCache_of_ne h0 hne]
  rfl

/-- **The array cache of one CPU changes**, and the live objects with it. -/
theorem arrays {live' : List (ℕ × ℕ)} {l : List ℕ} {cn : CacheNode} (hC : SlabCore h live)
    (h0 : h.kmemCacheArray size ≠ 0)
    (hnum : cn.num = (h.cacheNode (h.kmemCacheArray size)).num)
    (hobj : cn.objectSize = (h.cacheNode (h.kmemCacheArray size)).objectSize)
    (hac : cn.arrayCache = Function.update (cached h size) cpu l)
    (hout : ∀ p, p ∈ l ∨ (p, size) ∈ live' → Out h live size p)
    (hother : ∀ p size', size' ≠ size → (p, size') ∈ live' → (p, size') ∈ live)
    (hnodup : live'.Nodup) (hl : l.Nodup)
    (hlive : ∀ p, (p, size) ∈ live' → p ∉ l ∧ ∀ cpu', cpu' ≠ cpu → p ∉ cached h size cpu')
    (hcc : ∀ p ∈ l, ∀ cpu', cpu' ≠ cpu → p ∉ cached h size cpu') :
    SlabCore (h.setCache (h.kmemCacheArray size) cn) live' := by
  have hself : cached (h.setCache (h.kmemCacheArray size) cn) size =
      Function.update (cached h size) cpu l := by
    rw [cached_setCache_self, hac]
  have hmem : ∀ p cpu', p ∈ cached (h.setCache (h.kmemCacheArray size) cn) size cpu' →
      cpu' = cpu ∧ p ∈ l ∨ cpu' ≠ cpu ∧ p ∈ cached h size cpu' := by
    intro p cpu' hp
    rw [hself] at hp
    by_cases hcpu : cpu' = cpu
    · rw [hcpu, Function.update_self] at hp
      exact Or.inl ⟨hcpu, hp⟩
    · rw [Function.update_of_ne hcpu] at hp
      exact Or.inr ⟨hcpu, hp⟩
  refine ⟨hC.aligned, hC.sizes, ?_, hC.addrs, hC.slabs, ?_, hnodup, ?_, ?_, ?_⟩
  · intro size' h0'
    by_cases hne : size' = size
    · subst hne
      show ((h.setCache _ cn).cacheNode (h.kmemCacheArray size')).objectSize = _ ∧
        ((h.setCache _ cn).cacheNode (h.kmemCacheArray size')).num = _
      rw [Heap.cacheNode_setCache_self, hnum, hobj]
      exact hC.caches size' h0
    · show ((h.setCache _ cn).cacheNode (h.kmemCacheArray size')).objectSize = _ ∧
        ((h.setCache _ cn).cacheNode (h.kmemCacheArray size')).num = _
      rw [hC.cacheNode_setCache_of_ne h0 hne]
      exact hC.caches size' h0'
  · intro size' p hp
    have hp' : Out h live size' p := by
      by_cases hne : size' = size
      · subst hne
        rcases hp with hp | ⟨-, cpu', hp⟩
        · exact hout p (Or.inr hp)
        · rcases hmem p cpu' hp with ⟨-, hp⟩ | ⟨-, hp⟩
          · exact hout p (Or.inl hp)
          · exact Or.inr ⟨h0, cpu', hp⟩
      · rcases hp with hp | ⟨h0', cpu', hp⟩
        · exact Or.inl (hother p size' hne hp)
        · rw [hC.cached_setCache_of_ne h0 hne] at hp
          exact Or.inr ⟨h0', cpu', hp⟩
    obtain ⟨a, idx, hpl⟩ := hC.out size' p hp'
    exact ⟨a, idx, hpl.slab, hpl.lt, hpl.eq, hpl.used⟩
  · intro size' cpu' h0'
    by_cases hne : size' = size
    · subst hne
      rw [hself]
      by_cases hcpu : cpu' = cpu
      · rw [hcpu, Function.update_self]
        exact hl
      · rw [Function.update_of_ne hcpu]
        exact hC.nodupCached size' cpu' h0'
    · rw [hC.cached_setCache_of_ne h0 hne]
      exact hC.nodupCached size' cpu' h0'
  · intro size' p cpu' hp hin
    by_cases hne : size' = size
    · subst hne
      obtain ⟨h₁, h₂⟩ := hlive p hp
      rcases hmem p cpu' hin with ⟨-, hin⟩ | ⟨hcpu, hin⟩
      · exact h₁ hin
      · exact h₂ cpu' hcpu hin
    · rw [hC.cached_setCache_of_ne h0 hne] at hin
      exact hC.liveCached size' p cpu' (hother p size' hne hp) hin
  · intro size' p cpu₁ cpu₂ h0' hin₁ hin₂
    by_cases hne : size' = size
    · subst hne
      rcases hmem p cpu₁ hin₁ with ⟨hc₁, hin₁⟩ | ⟨hc₁, hin₁⟩
      · rcases hmem p cpu₂ hin₂ with ⟨hc₂, hin₂⟩ | ⟨hc₂, hin₂⟩
        · rw [hc₁, hc₂]
        · exact absurd hin₂ (hcc p hin₁ cpu₂ hc₂)
      · rcases hmem p cpu₂ hin₂ with ⟨hc₂, hin₂⟩ | ⟨hc₂, hin₂⟩
        · exact absurd hin₁ (hcc p hin₂ cpu₁ hc₁)
        · exact hC.cachedCached size' p cpu₁ cpu₂ h0' hin₁ hin₂
    · rw [hC.cached_setCache_of_ne h0 hne] at hin₁ hin₂
      exact hC.cachedCached size' p cpu₁ cpu₂ h0' hin₁ hin₂

/-- An object becomes live. -/
theorem addLive (hC : SlabCore h live) (hp : PlacedAt h size p a idx)
    (hnew : ∀ q, Out h live size q → q ≠ p) : SlabCore h ((p, size) :: live) := by
  refine ⟨hC.aligned, hC.sizes, hC.caches, hC.addrs, hC.slabs, ?_, ?_, hC.nodupCached, ?_,
    hC.cachedCached⟩
  · rintro size' q (hq | hq)
    · rcases List.mem_cons.mp hq with hq | hq
      · cases hq
        exact ⟨a, idx, hp⟩
      · exact hC.out size' q (Or.inl hq)
    · exact hC.out size' q (Or.inr hq)
  · rw [List.nodup_cons]
    exact ⟨fun hq => hnew p (Or.inl hq) rfl, hC.nodup⟩
  · intro size' q cpu' hq hin
    rcases List.mem_cons.mp hq with hq | hq
    · cases hq
      exact hnew p (Or.inr ⟨hp.slab.2.1, cpu', hin⟩) rfl
    · exact hC.liveCached size' q cpu' hq hin

/-- The last entry of an array cache is taken out. -/
theorem pop {rest : List ℕ} (cn : CacheNode) (hC : SlabCore h live)
    (h0 : h.kmemCacheArray size ≠ 0) (hcached : cached h size cpu = p :: rest)
    (hnum : cn.num = (h.cacheNode (h.kmemCacheArray size)).num)
    (hobj : cn.objectSize = (h.cacheNode (h.kmemCacheArray size)).objectSize)
    (hac : cn.arrayCache = Function.update (cached h size) cpu rest) :
    (∀ q, (q, size) ∈ live → q ≠ p) ∧ (∀ q ∈ rest, q ≠ p) ∧
      (∀ cpu', cpu' ≠ cpu → p ∉ cached h size cpu') ∧
      SlabCore (h.setCache (h.kmemCacheArray size) cn) live := by
  have hp : p ∈ cached h size cpu := by
    rw [hcached]
    exact List.mem_cons_self
  have hrest : ∀ q ∈ rest, q ∈ cached h size cpu := by
    intro q hq
    rw [hcached]
    exact List.mem_cons_of_mem _ hq
  have hnd := hC.nodupCached size cpu h0
  rw [hcached, List.nodup_cons] at hnd
  refine ⟨?_, ?_, ?_, ?_⟩
  · rintro q hq rfl
    exact hC.liveCached size q cpu hq hp
  · rintro q hq rfl
    exact hnd.1 hq
  · intro cpu' hcpu hin
    exact hcpu (hC.cachedCached size p cpu' cpu h0 hin hp)
  · refine hC.arrays h0 hnum hobj hac ?_ (fun _ _ _ hp => hp) hC.nodup hnd.2 ?_ ?_
    · rintro q (hq | hq)
      · exact Or.inr ⟨h0, cpu, hrest q hq⟩
      · exact Or.inl hq
    · intro q hq
      exact ⟨fun hin => hC.liveCached size q cpu hq (hrest q hin),
        fun cpu' _ hin => hC.liveCached size q cpu' hq hin⟩
    · intro q hq cpu' hcpu hin
      exact hcpu (hC.cachedCached size q cpu' cpu h0 hin (hrest q hq))

/-- An object is put into an array cache. -/
theorem push {cn : CacheNode} (hC : SlabCore h live) (hp : PlacedAt h size p a idx)
    (hnew : ∀ q, Out h live size q → q ≠ p)
    (hnum : cn.num = (h.cacheNode (h.kmemCacheArray size)).num)
    (hobj : cn.objectSize = (h.cacheNode (h.kmemCacheArray size)).objectSize)
    (hac : cn.arrayCache = Function.update (cached h size) cpu (p :: cached h size cpu)) :
    SlabCore (h.setCache (h.kmemCacheArray size) cn) live := by
  have h0 := hp.slab.2.1
  -- with the object live, and then in the array cache
  have hC' := hC.addLive hp hnew
  have hin : ∀ cpu', p ∉ cached h size cpu' := by
    intro cpu' hin
    exact hnew p (Or.inr ⟨h0, cpu', hin⟩) rfl
  refine hC'.arrays h0 hnum hobj hac ?_ (fun _ _ _ hq => List.mem_cons_of_mem _ hq) hC.nodup ?_ ?_
    ?_
  · rintro q (hq | hq)
    · rcases List.mem_cons.mp hq with rfl | hq
      · exact Or.inl List.mem_cons_self
      · exact Or.inr ⟨h0, cpu, hq⟩
    · exact Or.inl (List.mem_cons_of_mem _ hq)
  · rw [List.nodup_cons]
    exact ⟨hin cpu, hC.nodupCached size cpu h0⟩
  · intro q hq
    refine ⟨?_, fun cpu' _ => hC.liveCached size q cpu' hq⟩
    intro hin'
    rcases List.mem_cons.mp hin' with rfl | hin'
    · exact hnew q (Or.inl hq) rfl
    · exact hC.liveCached size q cpu hq hin'
  · intro q hq cpu' hcpu hin'
    rcases List.mem_cons.mp hq with rfl | hq
    · exact hin cpu' hin'
    · exact hcpu (hC.cachedCached size q cpu' cpu h0 hin' hq)

/-- A live object is freed. -/
theorem dropLive (hC : SlabCore h live) (hp : (p, size) ∈ live) :
    SlabCore h (live.erase (p, size)) ∧ ∀ q, Out h (live.erase (p, size)) size q → q ≠ p := by
  have hsub : ∀ x, x ∈ live.erase (p, size) → x ∈ live := fun x hx => List.mem_of_mem_erase hx
  refine ⟨⟨hC.aligned, hC.sizes, hC.caches, hC.addrs, hC.slabs, ?_, hC.nodup.erase _,
    hC.nodupCached, ?_, hC.cachedCached⟩, ?_⟩
  · intro size' q hq
    apply hC.out size' q
    rcases hq with hq | hq
    · exact Or.inl (hsub _ hq)
    · exact Or.inr hq
  · intro size' q cpu' hq
    exact hC.liveCached size' q cpu' (hsub _ hq)
  · rintro q (hq | ⟨-, cpu', hq⟩) rfl
    · exact hC.nodup.not_mem_erase hq
    · exact hC.liveCached size q cpu' hp hq

/-! ### Changes to a slab -/

/-- **The node of one slab changes.** -/
theorem setSlab (sl : SlabNode) (hC : SlabCore h live) (ha : IsSlab h size a)
    (hown : sl.ownerCache = (h.slabNode a).ownerCache) (hok : SlabOk sl (objNum size))
    (hused : ∀ p idx, Out h live size p → PlacedAt h size p a idx →
      ¬ sl.Unused (objNum size) idx) : SlabCore (h.setSlab a sl) live := by
  have hslab : ∀ size' b, IsSlab (h.setSlab a sl) size' b ↔ IsSlab h size' b := by
    intro size' b
    rw [IsSlab, IsSlab]
    by_cases hb : b = a
    · rw [hb, Heap.slabNode_setSlab_self, hown]
      rfl
    · rw [Heap.slabNode_setSlab_of_ne hb]
      rfl
  refine ⟨hC.aligned, hC.sizes, hC.caches, hC.addrs, ?_, ?_, hC.nodup, hC.nodupCached,
    hC.liveCached, hC.cachedCached⟩
  · intro b hb
    obtain ⟨size', hb', hok'⟩ := hC.slabs b hb
    refine ⟨size', (hslab size' b).mpr hb', ?_⟩
    by_cases hba : b = a
    · subst hba
      rw [Heap.slabNode_setSlab_self, hC.isSlab_size hb' ha]
      exact hok
    · rw [Heap.slabNode_setSlab_of_ne hba]
      exact hok'
  · intro size' p hp
    obtain ⟨b, idx, hpl⟩ := hC.out size' p hp
    refine ⟨b, idx, (hslab size' b).mpr hpl.slab, hpl.lt, hpl.eq, ?_⟩
    by_cases hba : b = a
    · subst hba
      obtain rfl := hC.isSlab_size hpl.slab ha
      rw [Heap.slabNode_setSlab_self]
      exact hused p idx hp hpl
    · rw [Heap.slabNode_setSlab_of_ne hba]
      exact hpl.used

/-- **`alloc_obj`** -/
theorem allocObj (hC : SlabCore h live) (ha : IsSlab h size a)
    (hact : (h.slabNode a).active < objNum size) :
    SlabCore (OsLab.allocObj h a size (objNum size)).2
      (((OsLab.allocObj h a size (objNum size)).1, size) :: live) := by
  have hok := hC.slabOk ha
  generalize hidx : (h.slabNode a).freelist (h.slabNode a).active = idx
  have hlt : idx < objNum size := by
    rw [← hidx]
    exact hok.lt _ (le_refl _) hact
  have hun : (h.slabNode a).Unused (objNum size) idx := ⟨_, le_refl _, hact, hidx⟩
  have haddr : (OsLab.allocObj h a size (objNum size)).1 = objAddr a size idx := by
    rw [OsLab.allocObj, hidx, hok.colour, objAddr]
    rfl
  rw [haddr]
  have hC' := setSlab { h.slabNode a with active := (h.slabNode a).active + 1 } hC ha rfl
    (hok.alloc hact) (by
      rintro p idx' - hpl ⟨i, hi, hin, heq⟩
      exact hpl.used ⟨i, Nat.le_of_succ_le hi, hin, heq⟩)
  have hpl : PlacedAt (OsLab.allocObj h a size (objNum size)).2 size (objAddr a size idx) a idx := by
    refine ⟨⟨ha.1, ha.2.1, ?_⟩, hlt, rfl, ?_⟩
    · rw [OsLab.allocObj, Heap.slabNode_setSlab_self]
      exact ha.2.2
    · rw [OsLab.allocObj, Heap.slabNode_setSlab_self]
      rintro ⟨i, hi, hin, heq⟩
      have hi' : (h.slabNode a).active + 1 ≤ i := hi
      have heq' : (h.slabNode a).freelist i = idx := heq
      have := hok.inj i (h.slabNode a).active (by omega) hin (le_refl _) hact
        (heq'.trans hidx.symm)
      omega
  exact hC'.addLive hpl fun q hq => hC.ne_unused ha hlt hun hq

/-- An object that is no longer out goes back to its slab. -/
theorem free (hC : SlabCore h live) (hp : PlacedAt h size p a idx)
    (hnew : ∀ q, Out h live size q → q ≠ p) :
    SlabCore (h.setSlab a { h.slabNode a with
      active := (h.slabNode a).active - 1
      freelist := Function.update (h.slabNode a).freelist ((h.slabNode a).active - 1) idx }) live := by
  have hok := hC.slabOk hp.slab
  refine setSlab _ hC hp.slab rfl (hok.free hp.lt hp.used) ?_
  rintro q idx' hq hpl ⟨i, hi, hin, heq⟩
  have hi' : (h.slabNode a).active - 1 ≤ i := hi
  have heq' : Function.update (h.slabNode a).freelist ((h.slabNode a).active - 1) idx i = idx' := heq
  by_cases hia : i = (h.slabNode a).active - 1
  · rw [hia, Function.update_self] at heq'
    rw [← heq'] at hpl
    exact hnew q hq (hpl.eq.trans hp.eq.symm)
  · rw [Function.update_of_ne hia] at heq'
    exact hpl.used ⟨i, by omega, hin, heq'⟩

/-! ### New pages -/

/-- **A page becomes a slab**, of a cache that is there or of a new one. -/
theorem addPage {page : ℕ} (size : ℕ) (hC : SlabCore h live) (hpage : page % pageSize = 0)
    (hfresh : page ∉ h.pages) (hsize : 1 ≤ size ∧ size < 2048)
    (hpages : h'.pages = page :: h.pages)
    (hslab : h'.slabNode = Function.update h.slabNode page (initSlabNode (h'.kmemCacheArray size)))
    (h0 : h'.kmemCacheArray size ≠ 0)
    (hsame : ∀ size', h.kmemCacheArray size' ≠ 0 →
      h'.kmemCacheArray size' = h.kmemCacheArray size')
    (hnew : ∀ size', h'.kmemCacheArray size' ≠ 0 → h.kmemCacheArray size' ≠ 0 ∨ size' = size)
    (hcaches : ∀ size', h'.kmemCacheArray size' ≠ 0 →
      (h'.cacheNode (h'.kmemCacheArray size')).objectSize = size' ∧
        (h'.cacheNode (h'.kmemCacheArray size')).num = objNum size')
    (haddr : ∃ a ∈ page :: h.pages, h'.kmemCacheArray size = cacheAddr a)
    (hcached : ∀ size', h.kmemCacheArray size' ≠ 0 → cached h' size' = cached h size')
    (hempty : h.kmemCacheArray size = 0 → ∀ cpu, cached h' size cpu = []) :
    SlabCore h' live := by
  have hslabOf : ∀ size' b, IsSlab h size' b → IsSlab h' size' b ∧ h'.slabNode b = h.slabNode b := by
    intro size' b hb
    have hne : b ≠ page := by
      rintro rfl
      exact hfresh hb.1
    have hnode : h'.slabNode b = h.slabNode b := by
      rw [hslab, Function.update_of_ne hne]
    refine ⟨⟨?_, ?_, ?_⟩, hnode⟩
    · rw [hpages]
      exact List.mem_cons_of_mem _ hb.1
    · rw [hsame size' hb.2.1]
      exact hb.2.1
    · rw [hnode, hsame size' hb.2.1]
      exact hb.2.2
  -- nothing is cached for a new size
  have hlists : ∀ size' cpu, h'.kmemCacheArray size' ≠ 0 →
      h.kmemCacheArray size' ≠ 0 ∧ cached h' size' cpu = cached h size' cpu ∨
        cached h' size' cpu = [] := by
    intro size' cpu h0'
    by_cases hk : h.kmemCacheArray size' = 0
    · rcases hnew size' h0' with hk' | rfl
      · exact absurd hk hk'
      · exact Or.inr (hempty hk cpu)
    · exact Or.inl ⟨hk, by rw [hcached size' hk]⟩
  have hmem : ∀ size' p cpu, h'.kmemCacheArray size' ≠ 0 → p ∈ cached h' size' cpu →
      h.kmemCacheArray size' ≠ 0 ∧ p ∈ cached h size' cpu := by
    intro size' p cpu h0' hp
    rcases hlists size' cpu h0' with ⟨hk, heq⟩ | heq
    · rw [heq] at hp
      exact ⟨hk, hp⟩
    · rw [heq] at hp
      exact absurd hp List.not_mem_nil
  refine ⟨?_, ?_, hcaches, ?_, ?_, ?_, hC.nodup, ?_, ?_, ?_⟩
  · intro b hb
    rw [hpages] at hb
    rcases List.mem_cons.mp hb with rfl | hb
    · exact hpage
    · exact hC.aligned b hb
  · intro size' h0'
    rcases hnew size' h0' with hk | rfl
    · exact hC.sizes size' hk
    · exact hsize
  · intro size' h0'
    rw [hpages]
    by_cases hk : h.kmemCacheArray size' = 0
    · rcases hnew size' h0' with hk' | rfl
      · exact absurd hk hk'
      · exact haddr
    · rw [hsame size' hk]
      obtain ⟨a, ha, heq⟩ := hC.addrs size' hk
      exact ⟨a, List.mem_cons_of_mem _ ha, heq⟩
  · intro b hb
    rw [hpages] at hb
    rcases List.mem_cons.mp hb with rfl | hb
    · have hnode : h'.slabNode b = initSlabNode (h'.kmemCacheArray size) := by
        rw [hslab, Function.update_self]
      refine ⟨size, ⟨by rw [hpages]; exact List.mem_cons_self, h0, by rw [hnode]; rfl⟩, ?_⟩
      rw [hnode]
      exact slabOk_init _ _
    · obtain ⟨size', hb', hok⟩ := hC.slabs b hb
      obtain ⟨hb'', hnode⟩ := hslabOf size' b hb'
      refine ⟨size', hb'', ?_⟩
      rw [hnode]
      exact hok
  · intro size' p hp
    have hp' : Out h live size' p := by
      rcases hp with hp | ⟨h0', cpu', hp⟩
      · exact Or.inl hp
      · obtain ⟨hk, hp⟩ := hmem size' p cpu' h0' hp
        exact Or.inr ⟨hk, cpu', hp⟩
    obtain ⟨a, idx, hpl⟩ := hC.out size' p hp'
    obtain ⟨ha, hnode⟩ := hslabOf size' a hpl.slab
    exact ⟨a, idx, ha, hpl.lt, hpl.eq, by rw [hnode]; exact hpl.used⟩
  · intro size' cpu' h0'
    rcases hlists size' cpu' h0' with ⟨hk, heq⟩ | heq
    · rw [heq]
      exact hC.nodupCached size' cpu' hk
    · rw [heq]
      exact List.nodup_nil
  · intro size' p cpu' hp hin
    obtain ⟨a, idx, hpl⟩ := hC.out size' p (Or.inl hp)
    rw [hcached size' hpl.slab.2.1] at hin
    exact hC.liveCached size' p cpu' hp hin
  · intro size' p cpu₁ cpu₂ h0' hin₁ hin₂
    obtain ⟨hk, hin₁⟩ := hmem size' p cpu₁ h0' hin₁
    obtain ⟨-, hin₂⟩ := hmem size' p cpu₂ h0' hin₂
    exact hC.cachedCached size' p cpu₁ cpu₂ hk hin₁ hin₂

end SlabCore

/-! ## The lists of slabs -/

section Lists

variable {h h' : Heap} {live : List (ℕ × ℕ)}

/-- Nothing changes for the slabs of a cache. -/
theorem SlabLists.keep (hL : SlabLists h size)
    (hkeep : ∀ b, IsSlab h size b → IsSlab h' size b ∧
      (h'.slabNode b).active = (h.slabNode b).active)
    (hp : (h'.cacheNode (h'.kmemCacheArray size)).slabsPartial =
      (h.cacheNode (h.kmemCacheArray size)).slabsPartial)
    (hf : (h'.cacheNode (h'.kmemCacheArray size)).slabsFree =
      (h.cacheNode (h.kmemCacheArray size)).slabsFree) : SlabLists h' size := by
  refine ⟨?_, ?_, ?_⟩
  · rw [hp]
    intro b hb
    obtain ⟨hb, hact⟩ := hL.partials b hb
    rw [(hkeep b hb).2]
    exact ⟨(hkeep b hb).1, hact⟩
  · rw [hf]
    intro b hb
    obtain ⟨hb, hact⟩ := hL.frees b hb
    rw [(hkeep b hb).2]
    exact ⟨(hkeep b hb).1, hact⟩
  · rw [hp, hf]
    exact hL.apart

/-- **One slab changes**, and its place in the lists. -/
theorem SlabLists.change (a : ℕ) (hL : SlabLists h size)
    (hkeep : ∀ b, b ≠ a → IsSlab h size b → IsSlab h' size b ∧
      (h'.slabNode b).active = (h.slabNode b).active) (ha : IsSlab h' size a)
    (hp : ∀ b ∈ (h'.cacheNode (h'.kmemCacheArray size)).slabsPartial, b ≠ a →
      b ∈ (h.cacheNode (h.kmemCacheArray size)).slabsPartial)
    (hf : ∀ b ∈ (h'.cacheNode (h'.kmemCacheArray size)).slabsFree, b ≠ a →
      b ∈ (h.cacheNode (h.kmemCacheArray size)).slabsFree)
    (hpa : a ∈ (h'.cacheNode (h'.kmemCacheArray size)).slabsPartial →
      (h'.slabNode a).active < objNum size)
    (hfa : a ∈ (h'.cacheNode (h'.kmemCacheArray size)).slabsFree →
      (h'.slabNode a).active = 0 ∧ a ∉ (h'.cacheNode (h'.kmemCacheArray size)).slabsPartial) :
    SlabLists h' size := by
  refine ⟨?_, ?_, ?_⟩
  · intro b hb
    by_cases hba : b = a
    · subst hba
      exact ⟨ha, hpa hb⟩
    · obtain ⟨hb', hact⟩ := hL.partials b (hp b hb hba)
      rw [(hkeep b hba hb').2]
      exact ⟨(hkeep b hba hb').1, hact⟩
  · intro b hb
    by_cases hba : b = a
    · subst hba
      exact ⟨ha, (hfa hb).1⟩
    · obtain ⟨hb', hact⟩ := hL.frees b (hf b hb hba)
      rw [(hkeep b hba hb').2]
      exact ⟨(hkeep b hba hb').1, hact⟩
  · intro b hb hin
    by_cases hba : b = a
    · subst hba
      exact (hfa hb).2 hin
    · exact hL.apart b (hf b hb hba) (hp b hin hba)

end Lists

/-- **The invariant of the slab allocator.** -/
structure SlabInv (h : Heap) (live : List (ℕ × ℕ)) : Prop where
  core : SlabCore h live
  lists : ∀ size, h.kmemCacheArray size ≠ 0 → SlabLists h size

namespace SlabInv

variable {h : Heap} {live : List (ℕ × ℕ)} {cpu : Fin cpuNum}

/-- Slab `a` of the cache for `size` changes, with the lists of that cache. -/
private theorem of_change {live' : List (ℕ × ℕ)} {cn : CacheNode} (hI : SlabInv h live)
    (ha : IsSlab h size a) (hown : sl.ownerCache = (h.slabNode a).ownerCache)
    (hC : SlabCore ((h.setSlab a sl).setCache (h.kmemCacheArray size) cn) live')
    (hp : ∀ b ∈ cn.slabsPartial, b ≠ a →
      b ∈ (h.cacheNode (h.kmemCacheArray size)).slabsPartial)
    (hf : ∀ b ∈ cn.slabsFree, b ≠ a → b ∈ (h.cacheNode (h.kmemCacheArray size)).slabsFree)
    (hpa : a ∈ cn.slabsPartial → sl.active < objNum size)
    (hfa : a ∈ cn.slabsFree → sl.active = 0 ∧ a ∉ cn.slabsPartial) :
    SlabInv ((h.setSlab a sl).setCache (h.kmemCacheArray size) cn) live' := by
  generalize hh : (h.setSlab a sl).setCache (h.kmemCacheArray size) cn = h' at hC ⊢
  have hpages : h'.pages = h.pages := by
    rw [← hh]
    rfl
  have hkmem : h'.kmemCacheArray = h.kmemCacheArray := by
    rw [← hh]
    rfl
  have hself : h'.slabNode a = sl := by
    rw [← hh]
    exact Heap.slabNode_setSlab_self ..
  have hother : ∀ b, b ≠ a → h'.slabNode b = h.slabNode b := by
    intro b hb
    rw [← hh]
    exact Heap.slabNode_setSlab_of_ne hb
  have hcn : h'.cacheNode (h.kmemCacheArray size) = cn := by
    rw [← hh]
    exact Heap.cacheNode_setCache_self ..
  have hkeep : ∀ size' b, b ≠ a → IsSlab h size' b → IsSlab h' size' b ∧
      (h'.slabNode b).active = (h.slabNode b).active := by
    intro size' b hba hb
    rw [IsSlab, hother b hba, hpages, hkmem]
    exact ⟨hb, rfl⟩
  have ha' : IsSlab h' size a := by
    rw [IsSlab, hself, hpages, hkmem, hown]
    exact ha
  refine ⟨hC, ?_⟩
  intro size' h0
  rw [hkmem] at h0
  by_cases hne : size' = size
  · subst hne
    apply (hI.lists size' h0).change a (hkeep size') ha'
    · rw [hkmem, hcn]
      exact hp
    · rw [hkmem, hcn]
      exact hf
    · rw [hkmem, hcn, hself]
      exact hpa
    · rw [hkmem, hcn, hself]
      exact hfa
  · have hcn' : h'.cacheNode (h.kmemCacheArray size') = h.cacheNode (h.kmemCacheArray size') := by
      rw [← hh]
      apply Heap.cacheNode_setCache_of_ne
      intro heq
      exact hne (hI.core.size_eq h0 heq)
    apply (hI.lists size' h0).keep
    · intro b hb
      apply hkeep size' b _ hb
      rintro rfl
      exact hne (hI.core.isSlab_size hb ha)
    · rw [hkmem, hcn']
    · rw [hkmem, hcn']

private theorem mem_of_mem_detach {l : List ℕ} (hb : b ∈ l.filter (· ≠ a)) : b ∈ l :=
  List.mem_of_mem_filter hb

private theorem not_mem_detach {l : List ℕ} : a ∉ l.filter (· ≠ a) := by
  intro h
  have := List.of_mem_filter h
  simp at this

/-- The lists of a cache change after `alloc_obj`. -/
private theorem core_setCache {cn : CacheNode} {cache : ℕ} (hC : SlabCore h live)
    (hnum : cn.num = (h.cacheNode cache).num)
    (hobj : cn.objectSize = (h.cacheNode cache).objectSize)
    (hac : cn.arrayCache = (h.cacheNode cache).arrayCache) : SlabCore (h.setCache cache cn) live := by
  refine hC.congr rfl rfl rfl ?_
  intro c
  by_cases hc : c = cache
  · rw [hc, Heap.cacheNode_setCache_self]
    exact ⟨hobj, hnum, hac⟩
  · rw [Heap.cacheNode_setCache_of_ne hc]
    exact ⟨rfl, rfl, rfl⟩

private theorem active_allocObj (h : Heap) (slab size num : ℕ) :
    ((OsLab.allocObj h slab size num).2.slabNode slab).active = (h.slabNode slab).active + 1 := by
  rw [OsLab.allocObj, Heap.slabNode_setSlab_self]

theorem allocPartial_eq (h : Heap) (cache slab size num : ℕ) :
    OsLab.allocPartial h cache slab size num = ((OsLab.allocObj h slab size num).1,
      if num ≤ (h.slabNode slab).active + 1 then
        (OsLab.allocObj h slab size num).2.setCache cache { (h.cacheNode cache).detach slab with
          slabsFull := ((h.cacheNode cache).detach slab).slabsFull ++ [slab] }
      else (OsLab.allocObj h slab size num).2) := by
  simp only [OsLab.allocPartial, active_allocObj]
  split <;> rfl

theorem allocFree_eq (h : Heap) (cache slab size num : ℕ) :
    OsLab.allocFree h cache slab size num = ((OsLab.allocObj h slab size num).1,
      (OsLab.allocObj h slab size num).2.setCache cache (
        if num ≤ (h.slabNode slab).active + 1 then { (h.cacheNode cache).detach slab with
          slabsFull := ((h.cacheNode cache).detach slab).slabsFull ++ [slab] }
        else { (h.cacheNode cache).detach slab with
          slabsPartial := ((h.cacheNode cache).detach slab).slabsPartial ++ [slab] })) := by
  simp only [OsLab.allocFree, active_allocObj]
  split <;> rfl

/-- An object from a partial slab. -/
theorem allocPartial (hI : SlabInv h live) (h0 : h.kmemCacheArray size ≠ 0)
    (ha : a ∈ (h.cacheNode (h.kmemCacheArray size)).slabsPartial) :
    SlabInv (OsLab.allocPartial h (h.kmemCacheArray size) a size (objNum size)).2
      (((OsLab.allocPartial h (h.kmemCacheArray size) a size (objNum size)).1, size) :: live) := by
  have hL := hI.lists size h0
  obtain ⟨hslab, hact⟩ := hL.partials a ha
  have hC := hI.core.allocObj hslab hact
  have hfree : a ∉ (h.cacheNode (h.kmemCacheArray size)).slabsFree := fun hf => hL.apart a hf ha
  rw [allocPartial_eq]
  split
  · -- the slab is full now
    refine hI.of_change hslab rfl (core_setCache hC rfl rfl rfl) ?_ ?_ ?_ ?_
    · intro b hb _
      exact mem_of_mem_detach hb
    · intro b hb _
      exact mem_of_mem_detach hb
    · intro hb
      exact absurd hb not_mem_detach
    · intro hb
      exact absurd hb not_mem_detach
  · rename_i hfull
    have hsame : (OsLab.allocObj h a size (objNum size)).2 =
        (OsLab.allocObj h a size (objNum size)).2.setCache (h.kmemCacheArray size)
          (h.cacheNode (h.kmemCacheArray size)) :=
      (Heap.setCache_cacheNode (OsLab.allocObj h a size (objNum size)).2 _).symm
    rw [hsame] at hC ⊢
    refine hI.of_change hslab rfl hC (fun b hb _ => hb) (fun b hb _ => hb) ?_ ?_
    · intro _
      exact Nat.lt_of_not_le hfull
    · intro hb
      exact absurd hb hfree

/-- An object from a free slab. -/
theorem allocFree (hI : SlabInv h live) (h0 : h.kmemCacheArray size ≠ 0)
    (ha : a ∈ (h.cacheNode (h.kmemCacheArray size)).slabsFree) :
    SlabInv (OsLab.allocFree h (h.kmemCacheArray size) a size (objNum size)).2
      (((OsLab.allocFree h (h.kmemCacheArray size) a size (objNum size)).1, size) :: live) := by
  have hL := hI.lists size h0
  obtain ⟨hslab, hact⟩ := hL.frees a ha
  have hpos := objNum_pos (hI.core.sizes size h0).2
  have hC := hI.core.allocObj hslab (by omega)
  rw [allocFree_eq]
  split
  · refine hI.of_change hslab rfl (core_setCache hC rfl rfl rfl) ?_ ?_ ?_ ?_
    · intro b hb _
      exact mem_of_mem_detach hb
    · intro b hb _
      exact mem_of_mem_detach hb
    · intro hb
      exact absurd hb not_mem_detach
    · intro hb
      exact absurd hb not_mem_detach
  · rename_i hfull
    refine hI.of_change hslab rfl (core_setCache hC rfl rfl rfl) ?_ ?_ ?_ ?_
    · intro b hb hne
      rcases List.mem_append.mp hb with hb | hb
      · exact mem_of_mem_detach hb
      · exact absurd (List.mem_singleton.mp hb) hne
    · intro b hb _
      exact mem_of_mem_detach hb
    · intro _
      exact Nat.lt_of_not_le hfull
    · intro hb
      exact absurd hb not_mem_detach

/-- The array caches do not matter to the lists. -/
private theorem lists_setCache {cn : CacheNode} {cache : ℕ} (hI : SlabInv h live)
    (hp : cn.slabsPartial = (h.cacheNode cache).slabsPartial)
    (hf : cn.slabsFree = (h.cacheNode cache).slabsFree) (size : ℕ)
    (h0 : h.kmemCacheArray size ≠ 0) : SlabLists (h.setCache cache cn) size := by
  have hsame : ((h.setCache cache cn).cacheNode (h.kmemCacheArray size)).slabsPartial =
      (h.cacheNode (h.kmemCacheArray size)).slabsPartial ∧
      ((h.setCache cache cn).cacheNode (h.kmemCacheArray size)).slabsFree =
        (h.cacheNode (h.kmemCacheArray size)).slabsFree := by
    by_cases hc : h.kmemCacheArray size = cache
    · rw [hc, Heap.cacheNode_setCache_self]
      exact ⟨hp, hf⟩
    · rw [Heap.cacheNode_setCache_of_ne hc]
      exact ⟨rfl, rfl⟩
  exact (hI.lists size h0).keep (fun b hb => ⟨hb, rfl⟩) hsame.1 hsame.2

/-- An object from the array cache. -/
theorem allocCached {rest : List ℕ} (hI : SlabInv h live) (h0 : h.kmemCacheArray size ≠ 0)
    (hc : cached h size cpu = p :: rest) :
    SlabInv (h.setCache (h.kmemCacheArray size) { h.cacheNode (h.kmemCacheArray size) with
      arrayCache := Function.update (cached h size) cpu rest }) ((p, size) :: live) := by
  obtain ⟨hlive, hrest, hother, hC⟩ := SlabCore.pop { h.cacheNode (h.kmemCacheArray size) with
    arrayCache := Function.update (cached h size) cpu rest } hI.core h0 hc rfl rfl rfl
  have hout : Out h live size p := by
    refine Or.inr ⟨h0, cpu, ?_⟩
    rw [hc]
    exact List.mem_cons_self
  obtain ⟨a, idx, hpl⟩ := hI.core.out size p hout
  refine ⟨hC.addLive ⟨hpl.slab, hpl.lt, hpl.eq, hpl.used⟩ ?_, lists_setCache hI rfl rfl⟩
  rintro q (hq | ⟨-, cpu', hq⟩)
  · exact hlive q hq
  · rw [SlabCore.cached_setCache_self] at hq
    by_cases hcpu : cpu' = cpu
    · rw [hcpu] at hq
      simp only [Function.update_self] at hq
      exact hrest q hq
    · simp only [Function.update_of_ne hcpu] at hq
      rintro rfl
      exact hother cpu' hcpu hq

theorem newSlab_cacheNode (h : Heap) (c page : ℕ) :
    (OsLab.newSlab h c page).cacheNode c =
      { h.cacheNode c with slabsPartial := page :: (h.cacheNode c).slabsPartial } := by
  rw [OsLab.newSlab, Heap.cacheNode_setCache_self]
  rfl

/-- A page becomes a slab of a cache that is there. -/
theorem newSlab {page : ℕ} (hI : SlabInv h live) (h0 : h.kmemCacheArray size ≠ 0)
    (hpage : page % pageSize = 0) (hfresh : page ∉ h.pages) :
    SlabInv (OsLab.newSlab h (h.kmemCacheArray size) page) live := by
  have hcn : ∀ size', h.kmemCacheArray size' ≠ 0 →
      (OsLab.newSlab h (h.kmemCacheArray size) page).cacheNode (h.kmemCacheArray size') =
        if size' = size then { h.cacheNode (h.kmemCacheArray size) with
          slabsPartial := page :: (h.cacheNode (h.kmemCacheArray size)).slabsPartial }
        else h.cacheNode (h.kmemCacheArray size') := by
    intro size' h0'
    rw [OsLab.newSlab]
    by_cases hs : size' = size
    · rw [if_pos hs, hs, ← OsLab.newSlab, newSlab_cacheNode]
    · rw [if_neg hs, Heap.cacheNode_setCache_of_ne]
      · rfl
      · intro heq
        exact hs (hI.core.size_eq h0' heq)
  have hcached : ∀ size', h.kmemCacheArray size' ≠ 0 →
      cached (OsLab.newSlab h (h.kmemCacheArray size) page) size' = cached h size' := by
    intro size' h0'
    funext cpu
    show ((OsLab.newSlab h (h.kmemCacheArray size) page).cacheNode
      (h.kmemCacheArray size')).arrayCache cpu = _
    rw [hcn size' h0']
    split
    · rename_i hs
      rw [hs]
      rfl
    · rfl
  have hC : SlabCore (OsLab.newSlab h (h.kmemCacheArray size) page) live := by
    refine hI.core.addPage size hpage hfresh (hI.core.sizes size h0) rfl rfl h0 (fun _ _ => rfl)
      (fun _ h0' => Or.inl h0') ?_ ?_ hcached (fun hk => absurd hk h0)
    · intro size' h0'
      show ((OsLab.newSlab h (h.kmemCacheArray size) page).cacheNode
          (h.kmemCacheArray size')).objectSize = size' ∧
        ((OsLab.newSlab h (h.kmemCacheArray size) page).cacheNode
          (h.kmemCacheArray size')).num = objNum size'
      rw [hcn size' h0']
      split
      · rename_i hs
        rw [hs]
        exact hI.core.caches size h0
      · exact hI.core.caches size' h0'
    · obtain ⟨a, ha, heq⟩ := hI.core.addrs size h0
      exact ⟨a, List.mem_cons_of_mem _ ha, heq⟩
  have hslab : ∀ size' b, IsSlab h size' b →
      IsSlab (OsLab.newSlab h (h.kmemCacheArray size) page) size' b ∧
        ((OsLab.newSlab h (h.kmemCacheArray size) page).slabNode b).active =
          (h.slabNode b).active := by
    intro size' b hb
    have hne : b ≠ page := by
      rintro rfl
      exact hfresh hb.1
    have hnode : (OsLab.newSlab h (h.kmemCacheArray size) page).slabNode b = h.slabNode b :=
      Heap.slabNode_setSlab_of_ne hne
    rw [IsSlab, hnode]
    exact ⟨⟨List.mem_cons_of_mem _ hb.1, hb.2.1, hb.2.2⟩, rfl⟩
  refine ⟨hC, ?_⟩
  intro size' h0'
  have h0'' : h.kmemCacheArray size' ≠ 0 := h0'
  have hcn' := hcn size' h0''
  by_cases hs : size' = size
  · subst hs
    rw [if_pos rfl] at hcn'
    have hnode : (OsLab.newSlab h (h.kmemCacheArray size') page).slabNode page =
      initSlabNode (h.kmemCacheArray size') := Heap.slabNode_setSlab_self ..
    have hmem : page ∈ (OsLab.newSlab h (h.kmemCacheArray size') page).pages := List.mem_cons_self
    apply (hI.lists size' h0'').change page (fun b _ hb => hslab size' b hb)
    · exact ⟨hmem, h0', by rw [hnode]; rfl⟩
    · intro b hb hne
      have hb' : b ∈ ((OsLab.newSlab h (h.kmemCacheArray size') page).cacheNode
        (h.kmemCacheArray size')).slabsPartial := hb
      rw [hcn'] at hb'
      exact List.mem_of_ne_of_mem hne hb'
    · intro b hb _
      have hb' : b ∈ ((OsLab.newSlab h (h.kmemCacheArray size') page).cacheNode
        (h.kmemCacheArray size')).slabsFree := hb
      rw [hcn'] at hb'
      exact hb'
    · intro _
      rw [hnode]
      exact objNum_pos (hI.core.sizes size' h0'').2
    · intro hb
      have hb' : page ∈ ((OsLab.newSlab h (h.kmemCacheArray size') page).cacheNode
        (h.kmemCacheArray size')).slabsFree := hb
      rw [hcn'] at hb'
      exact absurd ((hI.lists size' h0'').frees page hb').1.1 hfresh
  · rw [if_neg hs] at hcn'
    apply (hI.lists size' h0'').keep (hslab size')
    · exact congrArg CacheNode.slabsPartial hcn'
    · exact congrArg CacheNode.slabsFree hcn'

/-- A page becomes the first slab of a new cache, and holds its node. -/
theorem newCache {page c : ℕ} (hI : SlabInv h live) (hk : h.kmemCacheArray size = 0)
    (hsize : 1 ≤ size ∧ size < 2048) (hpage : page % pageSize = 0) (hfresh : page ∉ h.pages)
    (hc : c = cacheAddr page) {h₀ : Heap} (hh₀ : h₀ = Heap.setCache { h with
      kmemCacheArray := Function.update h.kmemCacheArray size c } c
        (initCacheNode size (objNum size))) :
    SlabInv (OsLab.newSlab h₀ c page) live ∧
      (OsLab.newSlab h₀ c page).kmemCacheArray size = c ∧ c ≠ 0 ∧
      page ∈ ((OsLab.newSlab h₀ c page).cacheNode c).slabsPartial := by
  have hc0 : c ≠ 0 := by
    rw [hc, cacheAddr, pageSize, sizeofCacheNode]
    omega
  have hne : ∀ size', h.kmemCacheArray size' ≠ 0 → h.kmemCacheArray size' ≠ c := by
    intro size' h0' heq
    obtain ⟨a, ha, ha'⟩ := hI.core.addrs size' h0'
    have hbase : pageBase a = pageBase page := by
      rw [heq, hc] at ha'
      simp only [cacheAddr, pageSize, sizeofCacheNode] at ha'
      omega
    rw [pageBase_of_mod (hI.core.aligned a ha), pageBase_of_mod hpage] at hbase
    exact hfresh (hbase ▸ ha)
  generalize hh' : OsLab.newSlab h₀ c page = h'
  have hkmem : h'.kmemCacheArray = Function.update h.kmemCacheArray size c := by
    rw [← hh', hh₀]
    rfl
  have hksize : h'.kmemCacheArray size = c := by rw [hkmem, Function.update_self]
  have hkother : ∀ size', size' ≠ size → h'.kmemCacheArray size' = h.kmemCacheArray size' := by
    intro size' hs
    rw [hkmem, Function.update_of_ne hs]
  have hksame : ∀ size', h.kmemCacheArray size' ≠ 0 →
      h'.kmemCacheArray size' = h.kmemCacheArray size' := by
    intro size' h0'
    apply hkother
    rintro rfl
    exact h0' hk
  have hcn : h'.cacheNode c =
      { initCacheNode size (objNum size) with slabsPartial := [page] } := by
    have hcn₀ : h₀.cacheNode c = initCacheNode size (objNum size) := by
      rw [hh₀, Heap.cacheNode_setCache_self]
    rw [← hh', newSlab_cacheNode, hcn₀]
    rfl
  have hcn' : ∀ size', h.kmemCacheArray size' ≠ 0 →
      h'.cacheNode (h'.kmemCacheArray size') = h.cacheNode (h.kmemCacheArray size') := by
    intro size' h0'
    rw [hksame size' h0', ← hh', OsLab.newSlab, Heap.cacheNode_setCache_of_ne (hne size' h0'), hh₀]
    exact Heap.cacheNode_setCache_of_ne (hne size' h0')
  have hnode : h'.slabNode page = initSlabNode c := by
    rw [← hh', hh₀]
    exact Heap.slabNode_setSlab_self ..
  have hnew : ∀ size', h'.kmemCacheArray size' ≠ 0 → h.kmemCacheArray size' ≠ 0 ∨ size' = size := by
    intro size' h0'
    by_cases hs : size' = size
    · exact Or.inr hs
    · rw [hkother size' hs] at h0'
      exact Or.inl h0'
  have hpages : h'.pages = page :: h.pages := by
    rw [← hh', hh₀]
    rfl
  have hC : SlabCore h' live := by
    refine hI.core.addPage size hpage hfresh hsize hpages ?_ (by rw [hksize]; exact hc0) hksame hnew
      ?_ ⟨page, List.mem_cons_self, hksize.trans hc⟩ ?_ ?_
    · rw [hksize, ← hh', hh₀]
      rfl
    · intro size' h0'
      rcases hnew size' h0' with h0' | rfl
      · rw [hcn' size' h0']
        exact hI.core.caches size' h0'
      · rw [hksize, hcn]
        exact ⟨rfl, rfl⟩
    · intro size' h0'
      funext cpu
      rw [cached, hcn' size' h0', cached]
    · intro _ cpu
      rw [cached, hksize, hcn]
      rfl
  have hmem : page ∈ (h'.cacheNode c).slabsPartial := by
    rw [hcn]
    exact List.mem_singleton.mpr rfl
  refine ⟨⟨hC, ?_⟩, hksize, hc0, hmem⟩
  intro size' h0'
  rcases hnew size' h0' with h0' | rfl
  · apply (hI.lists size' h0').keep
    · intro b hb
      have hb' : b ≠ page := by
        rintro rfl
        exact hfresh hb.1
      have hsame : h'.slabNode b = h.slabNode b := by
        rw [← hh', hh₀]
        exact Heap.slabNode_setSlab_of_ne hb'
      rw [IsSlab, hsame, hksame size' h0', hpages]
      exact ⟨⟨List.mem_cons_of_mem _ hb.1, hb.2⟩, rfl⟩
    · rw [hcn' size' h0']
    · rw [hcn' size' h0']
  · refine ⟨?_, ?_, ?_⟩
    · rw [hksize, hcn]
      intro b hb
      rw [List.mem_singleton.mp hb]
      refine ⟨⟨by rw [hpages]; exact List.mem_cons_self, h0', ?_⟩, ?_⟩
      · rw [hnode, hksize]
        rfl
      · rw [hnode]
        exact objNum_pos hsize.2
    · rw [hksize, hcn]
      exact fun b hb => absurd hb List.not_mem_nil
    · rw [hksize, hcn]
      exact fun b hb => absurd hb List.not_mem_nil

/-- **`kalloc`** -/
theorem kalloc {page : ℕ} (cpu : Fin cpuNum) (hI : SlabInv h live)
    (hsize : 1 ≤ size ∧ size < 2048) (hpage : page % pageSize = 0) (hfresh : page ∉ h.pages) :
    SlabInv (OsLab.kalloc h cpu size page).2 (((OsLab.kalloc h cpu size page).1, size) :: live) := by
  by_cases h0 : h.kmemCacheArray size = 0
  · obtain ⟨hN, hk, hc0, hmem⟩ := hI.newCache h0 hsize hpage hfresh rfl rfl
    have halloc := hN.allocPartial (by rw [hk]; exact hc0) (by rw [hk]; exact hmem)
    rw [hk] at halloc
    rw [OsLab.kalloc, if_pos h0]
    exact halloc
  · have hnum := (hI.core.caches size h0).2
    rw [OsLab.kalloc, if_neg h0]
    dsimp only
    split
    · rename_i p rest hc
      exact hI.allocCached h0 hc
    · split
      · rename_i slab rest hp
        rw [hnum]
        apply hI.allocPartial h0
        rw [hp]
        exact List.mem_cons_self
      · split
        · rename_i slab rest hf
          rw [hnum]
          apply hI.allocFree h0
          rw [hf]
          exact List.mem_cons_self
        · have hN := hI.newSlab h0 hpage hfresh
          rw [hnum]
          apply hN.allocPartial h0
          have hcn := newSlab_cacheNode h (h.kmemCacheArray size) page
          show page ∈ ((OsLab.newSlab h (h.kmemCacheArray size) page).cacheNode
            (h.kmemCacheArray size)).slabsPartial
          rw [hcn]
          exact List.mem_cons_self

/-- **`cache_flusharray`** -/
theorem cacheFlusharray {rest : List ℕ} (hI : SlabInv h live) (h0 : h.kmemCacheArray size ≠ 0)
    (hc : cached h size cpu = p :: rest) :
    SlabInv (OsLab.cacheFlusharray h cpu (h.kmemCacheArray size) p rest) live := by
  have hout : Out h live size p := by
    refine Or.inr ⟨h0, cpu, ?_⟩
    rw [hc]
    exact List.mem_cons_self
  obtain ⟨a, idx, hpl⟩ := hI.core.out size p hout
  obtain ⟨hobj, hnum⟩ := hI.core.caches size h0
  have hok := hI.core.slabOk hpl.slab
  have hpos := hok.active_pos hpl.lt hpl.used
  have hle := hok.active
  have hidx : getObjIndex (h.slabNode a) a size (objNum size) p = idx := by
    rw [hpl.eq]
    exact getObjIndex_objAddr hok.colour (hI.core.sizes size h0).1
  rw [OsLab.cacheFlusharray, hI.core.pageBase_eq hpl]
  dsimp only
  rw [hobj, hnum, hidx]
  -- out of the array cache first, then back to the slab
  have hcore : ∀ cn : CacheNode, cn.num = (h.cacheNode (h.kmemCacheArray size)).num →
      cn.objectSize = (h.cacheNode (h.kmemCacheArray size)).objectSize →
      cn.arrayCache = Function.update (cached h size) cpu rest →
      SlabCore ((h.setSlab a { h.slabNode a with
        active := (h.slabNode a).active - 1
        freelist := Function.update (h.slabNode a).freelist ((h.slabNode a).active - 1) idx }).setCache
          (h.kmemCacheArray size) cn) live := by
    intro cn hn ho hac
    obtain ⟨hlive, hrest, hother, hC⟩ := SlabCore.pop cn hI.core h0 hc hn ho hac
    have hC' := hC.free ⟨hpl.slab, hpl.lt, hpl.eq, hpl.used⟩ (by
      rintro q (hq | ⟨-, cpu', hq⟩)
      · exact hlive q hq
      · rw [SlabCore.cached_setCache_self, hac] at hq
        by_cases hcpu : cpu' = cpu
        · rw [hcpu, Function.update_self] at hq
          exact hrest q hq
        · rw [Function.update_of_ne hcpu] at hq
          rintro rfl
          exact hother cpu' hcpu hq)
    exact hC'
  split
  · rename_i hfull
    have hfull' : (h.slabNode a).active - 1 = (h.cacheNode (h.kmemCacheArray size)).num - 1 := hfull
    rw [hnum] at hfull'
    refine hI.of_change hpl.slab rfl (hcore _ rfl rfl rfl) ?_ ?_ ?_ ?_
    · intro b hb hne
      exact mem_of_mem_detach (List.mem_of_ne_of_mem hne hb)
    · intro b hb _
      exact mem_of_mem_detach hb
    · intro _
      show (h.slabNode a).active - 1 < objNum size
      omega
    · intro hb
      exact absurd hb not_mem_detach
  · split
    · rename_i hzero
      have hzero' : (h.slabNode a).active - 1 = 0 := hzero
      refine hI.of_change hpl.slab rfl (hcore _ rfl rfl rfl) ?_ ?_ ?_ ?_
      · intro b hb _
        exact mem_of_mem_detach hb
      · intro b hb hne
        exact mem_of_mem_detach (List.mem_of_ne_of_mem hne hb)
      · intro hb
        exact absurd hb not_mem_detach
      · intro _
        exact ⟨hzero', not_mem_detach⟩
    · -- the slab is in no list now
      refine hI.of_change hpl.slab rfl (hcore _ rfl rfl rfl) ?_ ?_ ?_ ?_
      · intro b hb _
        exact mem_of_mem_detach hb
      · intro b hb _
        exact mem_of_mem_detach hb
      · intro hb
        exact absurd hb not_mem_detach
      · intro hb
        exact absurd hb not_mem_detach

theorem kmem_cacheFlusharray (h : Heap) (cpu : Fin cpuNum) (cache obj : ℕ) (rest : List ℕ) :
    (OsLab.cacheFlusharray h cpu cache obj rest).kmemCacheArray = h.kmemCacheArray := by
  rw [OsLab.cacheFlusharray]
  dsimp only
  split
  · rfl
  · split <;> rfl

/-- The end of `kfree`. -/
private theorem free_push (hI : SlabInv h live) (hp : (p, size) ∈ live) (cpu : Fin cpuNum) :
    SlabInv (h.setCache (h.kmemCacheArray size) { h.cacheNode (h.kmemCacheArray size) with
      arrayCache := Function.update (h.cacheNode (h.kmemCacheArray size)).arrayCache cpu
        (p :: (h.cacheNode (h.kmemCacheArray size)).arrayCache cpu) }) (live.erase (p, size)) := by
  obtain ⟨a, idx, hpl⟩ := hI.core.out size p (Or.inl hp)
  obtain ⟨hC, hnew⟩ := hI.core.dropLive hp
  exact ⟨hC.push hpl hnew rfl rfl rfl, lists_setCache hI rfl rfl⟩

/-- **`kfree`** -/
theorem kfree (hI : SlabInv h live) (hp : (p, size) ∈ live) (cpu : Fin cpuNum) :
    SlabInv (OsLab.kfree h cpu p) (live.erase (p, size)) := by
  obtain ⟨a, idx, hpl⟩ := hI.core.out size p (Or.inl hp)
  have h0 := hpl.slab.2.1
  rw [OsLab.kfree, hI.core.pageBase_eq hpl, hpl.slab.2.2]
  rcases hc : (h.cacheNode (h.kmemCacheArray size)).arrayCache cpu with - | ⟨obj, rest⟩
  · exact hI.free_push hp cpu
  · dsimp only
    split
    · have hF := hI.cacheFlusharray h0 hc
      have hpush := hF.free_push hp cpu
      rw [kmem_cacheFlusharray] at hpush
      exact hpush
    · exact hI.free_push hp cpu

end SlabInv

/-! ## Runs -/

namespace SlabSys

variable {s s' : SlabSys} {call : SlabCall}

theorem inv_init (cacheNode : ℕ → CacheNode) (slabNode : ℕ → SlabNode) :
    SlabInv (init cacheNode slabNode).heap (init cacheNode slabNode).live where
  core := by
    constructor
    case aligned => exact fun a ha => absurd ha List.not_mem_nil
    case sizes => exact fun size h0 => absurd rfl h0
    case caches => exact fun size h0 => absurd rfl h0
    case addrs => exact fun size h0 => absurd rfl h0
    case slabs => exact fun a ha => absurd ha List.not_mem_nil
    case out =>
      rintro size p (hp | ⟨h0, -⟩)
      · exact absurd hp List.not_mem_nil
      · exact absurd rfl h0
    case nodup => exact List.nodup_nil
    case nodupCached => exact fun size _ h0 => absurd rfl h0
    case liveCached => exact fun size p _ hp => absurd hp List.not_mem_nil
    case cachedCached => exact fun size _ _ _ h0 => absurd rfl h0
  lists := fun size h0 => absurd rfl h0

theorem inv_step (hI : SlabInv s.heap s.live) (hleg : Legal s call) (hr : s.step call = some s') :
    SlabInv s'.heap s'.live := by
  cases call with
  | kalloc cpu size page =>
      obtain ⟨h1, hlt, hpage, hfresh⟩ := hleg
      cases hr
      exact hI.kalloc cpu ⟨h1, hlt⟩ hpage hfresh
  | kfree cpu p size =>
      cases hr
      exact hI.kfree hleg cpu

end SlabSys

/-- **Slab allocation never overlaps.**  In every run, a live object lies in one page, between the
freelist of the page's slab and the place of the `CacheNode`, and is aligned as its size is; its page
is the slab it is from, of the cache for its size; and no two live objects overlap. -/
theorem slab_objects_apart {cacheNode : ℕ → CacheNode} {slabNode : ℕ → SlabNode} {t : SlabSys}
    (hr : Reach SlabSys.step SlabSys.Legal (SlabSys.init cacheNode slabNode) t) :
    (∀ p size, (p, size) ∈ t.live → pageBase p ∈ t.heap.pages ∧ pageBase p % pageSize = 0 ∧
      pageBase p + sizeofSlabNode + sizeofInt * objNum size ≤ p ∧
      p + size ≤ pageBase p + pageSize - sizeofCacheNode ∧
      (8 ∣ size → p % 8 = 0) ∧ (4 ∣ size → p % 4 = 0) ∧
      t.heap.kmemCacheArray size ≠ 0 ∧
      (t.heap.slabNode (pageBase p)).ownerCache = t.heap.kmemCacheArray size ∧
      (t.heap.cacheNode (t.heap.kmemCacheArray size)).objectSize = size ∧
      (t.heap.cacheNode (t.heap.kmemCacheArray size)).num = objNum size ∧
      ∃ idx, idx < objNum size ∧ p = objAddr (pageBase p) size idx ∧
        getObjIndex (t.heap.slabNode (pageBase p)) (pageBase p) size (objNum size) p = idx) ∧
    (∀ size, t.heap.kmemCacheArray size ≠ 0 → ∃ page ∈ t.heap.pages,
      t.heap.kmemCacheArray size = page + pageSize - sizeofCacheNode) ∧
    t.live.Pairwise fun x y => x.1 + x.2 ≤ y.1 ∨ y.1 + y.2 ≤ x.1 := by
  have hI : SlabInv t.heap t.live := hr.invariant (SlabSys.inv_init cacheNode slabNode)
    fun _ _ _ h hleg hs => SlabSys.inv_step h hleg hs
  have hC := hI.core
  refine ⟨?_, ?_, ?_⟩
  · intro p size hp
    obtain ⟨a, idx, hpl⟩ := hC.out size p (Or.inl hp)
    have hbase := hC.pageBase_eq hpl
    have ha := hC.aligned a hpl.slab.1
    have h0 := hpl.slab.2.1
    obtain ⟨hobj, hnum⟩ := hC.caches size h0
    obtain ⟨hlo, hhi⟩ := objAddr_bounds a hpl.lt
    rw [hbase]
    refine ⟨hpl.slab.1, ha, ?_, ?_, ?_, ?_, h0, hpl.slab.2.2, hobj, hnum, idx, hpl.lt, hpl.eq, ?_⟩
    · rw [hpl.eq]
      exact hlo
    · rw [hpl.eq]
      exact hhi
    · rw [hpl.eq]
      exact objAddr_mod_eight ha
    · rw [hpl.eq]
      exact objAddr_mod_four ha
    · rw [hpl.eq]
      exact getObjIndex_objAddr (hC.slabOk hpl.slab).colour (hC.sizes size h0).1
  · intro size h0
    obtain ⟨a, ha, heq⟩ := hC.addrs size h0
    refine ⟨a, ha, ?_⟩
    rw [heq, cacheAddr, pageBase_of_mod (hC.aligned a ha)]
  · refine List.Pairwise.imp_of_mem ?_ hC.nodup
    rintro ⟨p, size⟩ ⟨q, size'⟩ hp hq hne
    obtain ⟨a, idx, hpl⟩ := hC.out size p (Or.inl hp)
    obtain ⟨b, idx', hpl'⟩ := hC.out size' q (Or.inl hq)
    have hlo := (objAddr_bounds a hpl.lt).1
    have hhi := (objAddr_bounds a hpl.lt).2
    have hlo' := (objAddr_bounds b hpl'.lt).1
    have hhi' := (objAddr_bounds b hpl'.lt).2
    rw [← hpl.eq] at hlo hhi
    rw [← hpl'.eq] at hlo' hhi'
    have ha := hC.aligned a hpl.slab.1
    have hb := hC.aligned b hpl'.slab.1
    rw [pageSize_eq] at ha hb
    simp only [sizeofSlabNode, sizeofInt, pageSize, sizeofCacheNode] at hlo hhi hlo' hhi'
    rcases Nat.lt_trichotomy a b with hab | hab | hab
    · -- different pages
      exact Or.inl (by omega)
    · -- two objects of one slab
      subst hab
      obtain rfl := hC.isSlab_size hpl.slab hpl'.slab
      rcases Nat.lt_trichotomy idx idx' with hi | hi | hi
      · left
        rw [hpl.eq, hpl'.eq]
        exact objAddr_disjoint a hi
      · refine absurd ?_ hne
        rw [hpl.eq, hpl'.eq, hi]
      · right
        rw [hpl.eq, hpl'.eq]
        exact objAddr_disjoint a hi
    · exact Or.inr (by omega)

/-- CPU 0 allocates 8 bytes and CPU 1 then allocates 24. -/
theorem slab_objects_apart_two : ∃ t : SlabSys,
    Reach SlabSys.step SlabSys.Legal (SlabSys.init (fun _ => initCacheNode 0 0) fun _ => initSlabNode 0)
      t ∧ t.live = [(8752, 24), (5344, 8)] ∧
    t.live.Pairwise fun x y => x.1 + x.2 ≤ y.1 ∨ y.1 + y.2 ≤ x.1 := by
  generalize h₀ : SlabSys.init (fun _ => initCacheNode 0 0) (fun _ => initSlabNode 0) = s₀
  have h₁ : Reach SlabSys.step SlabSys.Legal s₀ _ :=
    Reach.init.step (i := SlabCall.kalloc ⟨0, by decide⟩ 8 4096)
      ⟨by decide, by decide, by decide, by rw [← h₀]; exact List.not_mem_nil⟩ rfl
  have h₂ := h₁.step (i := SlabCall.kalloc ⟨1, by decide⟩ 24 8192)
    ⟨by decide, by decide, by decide, by rw [← h₀]; decide⟩ rfl
  subst h₀
  exact ⟨_, h₂, by decide +kernel, (slab_objects_apart h₂).2.2⟩

end OsLab
