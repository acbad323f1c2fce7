import OsLab.Kernel.SlabInv

/-!
# The lists of slabs

A slab should be in the list of its cache that its number of active objects asks for.  `kalloc`
keeps it so.  `cache_flusharray` takes the slab out of its list, and puts it back only if all of
its objects but one are active, or none is: a slab that is left with some objects, but fewer, is in
no list after that.

## Main definitions

* `SlabPlaces` — each slab is in the list it belongs to.
* `SlabSys.FlushEnds` — the call flushes no object but the last of a slab, or one of a full one.
* `slabs_on_lists` — every run of such calls keeps the slabs in their lists.
* `slab_lost` — another call may lose one.
-/

namespace OsLab

variable {h h' : Heap} {live : List (ℕ × ℕ)} {size a b : ℕ} {cpu : Fin cpuNum}

/-- **Each slab is in a list of its cache**, and in `slabs_full` if it is full. -/
structure SlabPlaces (h : Heap) (size : ℕ) : Prop where
  fulls : ∀ a ∈ (h.cacheNode (h.kmemCacheArray size)).slabsFull,
    IsSlab h size a ∧ (h.slabNode a).active = objNum size
  placed : ∀ a, IsSlab h size a → a ∈ (h.cacheNode (h.kmemCacheArray size)).slabsFull ∨
    a ∈ (h.cacheNode (h.kmemCacheArray size)).slabsPartial ∨
    a ∈ (h.cacheNode (h.kmemCacheArray size)).slabsFree
  nodupFull : (h.cacheNode (h.kmemCacheArray size)).slabsFull.Nodup
  nodupPartial : (h.cacheNode (h.kmemCacheArray size)).slabsPartial.Nodup
  nodupFree : (h.cacheNode (h.kmemCacheArray size)).slabsFree.Nodup

/-- The lists of a cache change for the slab `a` only. -/
structure CacheNode.Moves (cn cn' : CacheNode) (a : ℕ) : Prop where
  full : ∀ b, b ≠ a → (b ∈ cn'.slabsFull ↔ b ∈ cn.slabsFull)
  part : ∀ b, b ≠ a → (b ∈ cn'.slabsPartial ↔ b ∈ cn.slabsPartial)
  free : ∀ b, b ≠ a → (b ∈ cn'.slabsFree ↔ b ∈ cn.slabsFree)
  nodupFull : cn.slabsFull.Nodup → cn'.slabsFull.Nodup
  nodupPartial : cn.slabsPartial.Nodup → cn'.slabsPartial.Nodup
  nodupFree : cn.slabsFree.Nodup → cn'.slabsFree.Nodup

namespace SlabPlaces

/-- Nothing changes for the slabs of a cache. -/
theorem keep (hP : SlabPlaces h size) (hslab : ∀ b, IsSlab h' size b ↔ IsSlab h size b)
    (hact : ∀ b, IsSlab h size b → (h'.slabNode b).active = (h.slabNode b).active)
    (hf : (h'.cacheNode (h'.kmemCacheArray size)).slabsFull =
      (h.cacheNode (h.kmemCacheArray size)).slabsFull)
    (hp : (h'.cacheNode (h'.kmemCacheArray size)).slabsPartial =
      (h.cacheNode (h.kmemCacheArray size)).slabsPartial)
    (he : (h'.cacheNode (h'.kmemCacheArray size)).slabsFree =
      (h.cacheNode (h.kmemCacheArray size)).slabsFree) : SlabPlaces h' size := by
  refine ⟨?_, ?_, ?_, ?_, ?_⟩
  · rw [hf]
    intro b hb
    obtain ⟨hs, heq⟩ := hP.fulls b hb
    rw [hslab, hact b hs]
    exact ⟨hs, heq⟩
  · rw [hf, hp, he]
    exact fun b hb => hP.placed b ((hslab b).mp hb)
  · rw [hf]
    exact hP.nodupFull
  · rw [hp]
    exact hP.nodupPartial
  · rw [he]
    exact hP.nodupFree

/-- **One slab changes**, and its place in the lists. -/
theorem change (a : ℕ) (hP : SlabPlaces h size)
    (hslab : ∀ b, b ≠ a → (IsSlab h' size b ↔ IsSlab h size b)) (ha : IsSlab h' size a)
    (hact : ∀ b, b ≠ a → (h'.slabNode b).active = (h.slabNode b).active)
    (hm : (h.cacheNode (h.kmemCacheArray size)).Moves (h'.cacheNode (h'.kmemCacheArray size)) a)
    (hplace : (a ∈ (h'.cacheNode (h'.kmemCacheArray size)).slabsFull ∧
        (h'.slabNode a).active = objNum size) ∨
      (a ∉ (h'.cacheNode (h'.kmemCacheArray size)).slabsFull ∧
        (a ∈ (h'.cacheNode (h'.kmemCacheArray size)).slabsPartial ∨
          a ∈ (h'.cacheNode (h'.kmemCacheArray size)).slabsFree))) : SlabPlaces h' size := by
  refine ⟨fun b hb => ?_, fun b hb => ?_, hm.nodupFull hP.nodupFull,
    hm.nodupPartial hP.nodupPartial, hm.nodupFree hP.nodupFree⟩
  · by_cases hba : b = a
    · subst hba
      rcases hplace with ⟨-, heq⟩ | ⟨hnot, -⟩
      · exact ⟨ha, heq⟩
      · exact absurd hb hnot
    · obtain ⟨hs, heq⟩ := hP.fulls b ((hm.full b hba).mp hb)
      rw [hslab b hba, hact b hba]
      exact ⟨hs, heq⟩
  · by_cases hba : b = a
    · subst hba
      rcases hplace with ⟨hin, -⟩ | ⟨-, hin⟩
      · exact .inl hin
      · exact .inr hin
    · rw [hm.full b hba, hm.part b hba, hm.free b hba]
      exact hP.placed b ((hslab b hba).mp hb)

end SlabPlaces

/-! ## Moves -/

namespace CacheNode

variable (cn : CacheNode) (a : ℕ)

theorem mem_detach {l : List ℕ} {b : ℕ} (hb : b ≠ a) : b ∈ l.filter (· ≠ a) ↔ b ∈ l := by
  simp [hb]

theorem notMem_detach (l : List ℕ) : a ∉ l.filter (· ≠ a) := by simp

theorem moves_refl : cn.Moves cn a :=
  ⟨fun _ _ => Iff.rfl, fun _ _ => Iff.rfl, fun _ _ => Iff.rfl, id, id, id⟩

theorem moves_detach : cn.Moves (cn.detach a) a :=
  ⟨fun _ => mem_detach a, fun _ => mem_detach a, fun _ => mem_detach a,
    fun h => h.filter _, fun h => h.filter _, fun h => h.filter _⟩

variable {cn a} {cn' : CacheNode}

/-- The slab is put into one of the lists, at either end. -/
theorem Moves.add (h : cn.Moves cn' a) {f p e : List ℕ}
    (hf : f = cn'.slabsFull ∨ (a ∉ cn'.slabsFull ∧ f.Perm (a :: cn'.slabsFull)))
    (hp : p = cn'.slabsPartial ∨ (a ∉ cn'.slabsPartial ∧ p.Perm (a :: cn'.slabsPartial)))
    (he : e = cn'.slabsFree ∨ (a ∉ cn'.slabsFree ∧ e.Perm (a :: cn'.slabsFree))) :
    cn.Moves { cn' with slabsFull := f, slabsPartial := p, slabsFree := e } a := by
  have hmem : ∀ {l l' : List ℕ}, (l = l' ∨ (a ∉ l' ∧ l.Perm (a :: l'))) →
      (∀ b, b ≠ a → (b ∈ l ↔ b ∈ l')) ∧ (l'.Nodup → l.Nodup) := by
    intro l l' hl
    rcases hl with rfl | ⟨hnot, hperm⟩
    · exact ⟨fun _ _ => Iff.rfl, id⟩
    · refine ⟨fun b hb => ?_, fun hnd => hperm.nodup_iff.mpr (List.nodup_cons.mpr ⟨hnot, hnd⟩)⟩
      rw [hperm.mem_iff]
      simp [hb]
  obtain ⟨hf, hf'⟩ := hmem hf
  obtain ⟨hp, hp'⟩ := hmem hp
  obtain ⟨he, he'⟩ := hmem he
  exact ⟨fun b hb => (hf b hb).trans (h.full b hb), fun b hb => (hp b hb).trans (h.part b hb),
    fun b hb => (he b hb).trans (h.free b hb), fun hnd => hf' (h.nodupFull hnd),
    fun hnd => hp' (h.nodupPartial hnd), fun hnd => he' (h.nodupFree hnd)⟩

end CacheNode

/-! ## The calls -/

/-- Every cache that is there has its slabs in place. -/
def AllPlaced (h : Heap) : Prop := ∀ size, h.kmemCacheArray size ≠ 0 → SlabPlaces h size

namespace AllPlaced

/-- Slab `a` of the cache for `size` changes, with the lists of that cache. -/
theorem of_change {cn : CacheNode} {sl : SlabNode} (hP : AllPlaced h) (hC : SlabCore h live)
    (ha : IsSlab h size a) (hown : sl.ownerCache = (h.slabNode a).ownerCache)
    (hm : (h.cacheNode (h.kmemCacheArray size)).Moves cn a)
    (hplace : (a ∈ cn.slabsFull ∧ sl.active = objNum size) ∨
      (a ∉ cn.slabsFull ∧ (a ∈ cn.slabsPartial ∨ a ∈ cn.slabsFree))) :
    AllPlaced ((h.setSlab a sl).setCache (h.kmemCacheArray size) cn) := by
  set h' := (h.setSlab a sl).setCache (h.kmemCacheArray size) cn with hh'
  have hself : h'.slabNode a = sl := Heap.slabNode_setSlab_self ..
  have hother : ∀ b, b ≠ a → h'.slabNode b = h.slabNode b := fun b hb =>
    Heap.slabNode_setSlab_of_ne hb
  have hslab : ∀ size' b, IsSlab h' size' b ↔ IsSlab h size' b := by
    intro size' b
    by_cases hb : b = a
    · subst hb
      rw [IsSlab, hself, hown]
      rfl
    · rw [IsSlab, hother b hb]
      rfl
  have hcn : h'.cacheNode (h.kmemCacheArray size) = cn := Heap.cacheNode_setCache_self ..
  intro size' h0
  have h0 : h.kmemCacheArray size' ≠ 0 := h0
  by_cases hs : size' = size
  · subst hs
    refine (hP size' h0).change a (fun b _ => hslab size' b) ((hslab size' a).mpr ha)
      (fun b hb => by rw [hother b hb]) ?_ ?_
    · change (h.cacheNode (h.kmemCacheArray size')).Moves (h'.cacheNode (h.kmemCacheArray size')) a
      rwa [hcn]
    · change (a ∈ (h'.cacheNode (h.kmemCacheArray size')).slabsFull ∧ _) ∨
        (a ∉ (h'.cacheNode (h.kmemCacheArray size')).slabsFull ∧
          (a ∈ (h'.cacheNode (h.kmemCacheArray size')).slabsPartial ∨
            a ∈ (h'.cacheNode (h.kmemCacheArray size')).slabsFree))
      rwa [hcn, hself]
  · have hcn' : h'.cacheNode (h'.kmemCacheArray size') = h.cacheNode (h.kmemCacheArray size') :=
      Heap.cacheNode_setCache_of_ne fun heq => hs (hC.size_eq h0 heq)
    refine (hP size' h0).keep (hslab size') (fun b hb => ?_) ?_ ?_ ?_
    · rw [hother b]
      rintro rfl
      exact hs (hC.isSlab_size hb ha)
    all_goals rw [hcn']

/-- The array caches do not matter to the lists. -/
theorem setCache {cn : CacheNode} {cache : ℕ} (hP : AllPlaced h)
    (hf : cn.slabsFull = (h.cacheNode cache).slabsFull)
    (hp : cn.slabsPartial = (h.cacheNode cache).slabsPartial)
    (he : cn.slabsFree = (h.cacheNode cache).slabsFree) : AllPlaced (h.setCache cache cn) := by
  intro size h0
  have hsame : ∀ c, ((h.setCache cache cn).cacheNode c).slabsFull = (h.cacheNode c).slabsFull ∧
      ((h.setCache cache cn).cacheNode c).slabsPartial = (h.cacheNode c).slabsPartial ∧
      ((h.setCache cache cn).cacheNode c).slabsFree = (h.cacheNode c).slabsFree := by
    intro c
    by_cases hc : c = cache
    · rw [hc, Heap.cacheNode_setCache_self]
      exact ⟨hf, hp, he⟩
    · rw [Heap.cacheNode_setCache_of_ne hc]
      exact ⟨rfl, rfl, rfl⟩
  exact (hP size h0).keep (fun b => Iff.rfl) (fun _ _ => rfl) (hsame _).1 (hsame _).2.1 (hsame _).2.2

/-- A slab that is full now is moved to the end of `slabs_full`. -/
theorem moves_full (cn : CacheNode) (a : ℕ) :
    cn.Moves { cn.detach a with slabsFull := (cn.detach a).slabsFull ++ [a] } a :=
  (cn.moves_detach a).add (.inr ⟨CacheNode.notMem_detach a _, List.perm_append_singleton ..⟩)
    (.inl rfl) (.inl rfl)

theorem allocPartial (hP : AllPlaced h) (hI : SlabInv h live) (h0 : h.kmemCacheArray size ≠ 0)
    (ha : a ∈ (h.cacheNode (h.kmemCacheArray size)).slabsPartial) :
    AllPlaced (OsLab.allocPartial h (h.kmemCacheArray size) a size (objNum size)).2 := by
  obtain ⟨hslab, hact⟩ := (hI.lists size h0).partials a ha
  have hnot : a ∉ (h.cacheNode (h.kmemCacheArray size)).slabsFull := fun hin => by
    have := ((hP size h0).fulls a hin).2
    omega
  rw [SlabInv.allocPartial_eq]
  split
  · rename_i hfull
    refine hP.of_change hI.core hslab rfl (moves_full _ a) (.inl ⟨by simp, ?_⟩)
    change (h.slabNode a).active + 1 = objNum size
    omega
  · have hsame : (OsLab.allocObj h a size (objNum size)).2 =
        (OsLab.allocObj h a size (objNum size)).2.setCache (h.kmemCacheArray size)
          (h.cacheNode (h.kmemCacheArray size)) :=
      (Heap.setCache_cacheNode (OsLab.allocObj h a size (objNum size)).2 _).symm
    rw [hsame]
    exact hP.of_change hI.core hslab rfl (CacheNode.moves_refl _ a) (.inr ⟨hnot, .inl ha⟩)

theorem allocFree (hP : AllPlaced h) (hI : SlabInv h live) (h0 : h.kmemCacheArray size ≠ 0)
    (ha : a ∈ (h.cacheNode (h.kmemCacheArray size)).slabsFree) :
    AllPlaced (OsLab.allocFree h (h.kmemCacheArray size) a size (objNum size)).2 := by
  obtain ⟨hslab, hact⟩ := (hI.lists size h0).frees a ha
  have hpos := objNum_pos (hI.core.sizes size h0).2
  rw [SlabInv.allocFree_eq]
  split
  · rename_i hfull
    refine hP.of_change hI.core hslab rfl (moves_full _ a) (.inl ⟨by simp, ?_⟩)
    change (h.slabNode a).active + 1 = objNum size
    omega
  · refine hP.of_change hI.core hslab rfl ?_ (.inr ⟨CacheNode.notMem_detach a _, .inl (by simp)⟩)
    exact (CacheNode.moves_detach _ a).add (.inl rfl)
      (.inr ⟨CacheNode.notMem_detach a _, List.perm_append_singleton ..⟩) (.inl rfl)

/-- A page becomes a slab of a cache that is there. -/
theorem newSlab {page : ℕ} (hP : AllPlaced h) (hI : SlabInv h live)
    (h0 : h.kmemCacheArray size ≠ 0) (hfresh : page ∉ h.pages) :
    AllPlaced (OsLab.newSlab h (h.kmemCacheArray size) page) := by
  set h' := OsLab.newSlab h (h.kmemCacheArray size) page with hh'
  have hcn : h'.cacheNode (h.kmemCacheArray size) = { h.cacheNode (h.kmemCacheArray size) with
      slabsPartial := page :: (h.cacheNode (h.kmemCacheArray size)).slabsPartial } :=
    SlabInv.newSlab_cacheNode h _ page
  have hself : h'.slabNode page = initSlabNode (h.kmemCacheArray size) :=
    Heap.slabNode_setSlab_self ..
  have hother : ∀ b, b ≠ page → h'.slabNode b = h.slabNode b := fun b hb =>
    Heap.slabNode_setSlab_of_ne hb
  have hslab : ∀ size' b, b ≠ page → (IsSlab h' size' b ↔ IsSlab h size' b) := by
    intro size' b hb
    have hmem : b ∈ h'.pages ↔ b ∈ h.pages := List.mem_cons.trans (or_iff_right hb)
    rw [IsSlab, hother b hb, hmem]
    rfl
  have hnew : IsSlab h' size page := ⟨List.mem_cons_self, h0, by rw [hself]; rfl⟩
  have hnot : ∀ {l : List ℕ}, (∀ b ∈ l, IsSlab h size b) → page ∉ l := fun hl hin =>
    hfresh (hl page hin).1
  intro size' h0'
  have h0' : h.kmemCacheArray size' ≠ 0 := h0'
  by_cases hs : size' = size
  · subst hs
    have hfull : page ∉ (h.cacheNode (h.kmemCacheArray size')).slabsFull :=
      hnot fun b hb => ((hP size' h0).fulls b hb).1
    have hpart : page ∉ (h.cacheNode (h.kmemCacheArray size')).slabsPartial :=
      hnot fun b hb => ((hI.lists size' h0).partials b hb).1
    refine (hP size' h0).change page (hslab size') hnew (fun b hb => by rw [hother b hb]) ?_ ?_
    · change (h.cacheNode (h.kmemCacheArray size')).Moves (h'.cacheNode (h.kmemCacheArray size')) page
      rw [hcn]
      exact (CacheNode.moves_refl _ page).add (.inl rfl) (.inr ⟨hpart, .refl _⟩) (.inl rfl)
    · change _ ∨ (page ∉ (h'.cacheNode (h.kmemCacheArray size')).slabsFull ∧
        (page ∈ (h'.cacheNode (h.kmemCacheArray size')).slabsPartial ∨ _))
      rw [hcn]
      exact .inr ⟨hfull, .inl List.mem_cons_self⟩
  · have hcn' : h'.cacheNode (h'.kmemCacheArray size') = h.cacheNode (h.kmemCacheArray size') :=
      Heap.cacheNode_setCache_of_ne fun heq => hs (hI.core.size_eq h0' heq)
    have hne : ∀ b, IsSlab h size' b → b ≠ page := by
      rintro b hb rfl
      exact hfresh hb.1
    have hpage : ¬IsSlab h' size' page := by
      intro hp
      have hown : (h'.slabNode page).ownerCache = h.kmemCacheArray size' := hp.2.2
      rw [hself] at hown
      exact hs (hI.core.size_eq h0' hown.symm)
    refine (hP size' h0').keep (fun b => ?_) (fun b hb => by rw [hother b (hne b hb)]) ?_ ?_ ?_
    · by_cases hb : b = page
      · subst hb
        exact iff_of_false hpage fun hb => hfresh hb.1
      · exact hslab size' b hb
    all_goals rw [hcn']

/-- A page becomes the first slab of a new cache. -/
theorem newCache {page c : ℕ} (hP : AllPlaced h) (hI : SlabInv h live)
    (hk : h.kmemCacheArray size = 0) (hpage : page % pageSize = 0) (hfresh : page ∉ h.pages)
    (hc : c = cacheAddr page) {h₀ : Heap} (hh₀ : h₀ = Heap.setCache { h with
      kmemCacheArray := Function.update h.kmemCacheArray size c } c
        (initCacheNode size (objNum size))) : AllPlaced (OsLab.newSlab h₀ c page) := by
  set h' := OsLab.newSlab h₀ c page with hh'
  have hne : ∀ size', h.kmemCacheArray size' ≠ 0 → h.kmemCacheArray size' ≠ c := by
    intro size' h0 heq
    obtain ⟨b, hb, hb'⟩ := hI.core.addrs size' h0
    have hbase : pageBase b = pageBase page := by
      rw [heq, hc] at hb'
      simp only [cacheAddr, pageSize, sizeofCacheNode] at hb'
      omega
    rw [pageBase_of_mod (hI.core.aligned b hb), pageBase_of_mod hpage] at hbase
    exact hfresh (hbase ▸ hb)
  have hksize : h'.kmemCacheArray size = c := by
    rw [hh', hh₀]
    exact Function.update_self ..
  have hkother : ∀ size', size' ≠ size → h'.kmemCacheArray size' = h.kmemCacheArray size' := by
    intro size' hs
    rw [hh', hh₀]
    exact Function.update_of_ne hs ..
  have hcn : h'.cacheNode c = { initCacheNode size (objNum size) with slabsPartial := [page] } := by
    have hcn₀ : h₀.cacheNode c = initCacheNode size (objNum size) := by
      rw [hh₀, Heap.cacheNode_setCache_self]
    rw [hh', SlabInv.newSlab_cacheNode, hcn₀]
    rfl
  have hself : h'.slabNode page = initSlabNode c := by
    rw [hh', hh₀]
    exact Heap.slabNode_setSlab_self ..
  have hother : ∀ b, b ≠ page → h'.slabNode b = h.slabNode b := by
    intro b hb
    rw [hh', hh₀]
    exact Heap.slabNode_setSlab_of_ne hb
  have hpages : h'.pages = page :: h.pages := by rw [hh', hh₀]; rfl
  intro size' h0
  by_cases hs : size' = size
  · -- the cache has this slab only
    subst hs
    have honly : ∀ b, IsSlab h' size' b → b = page := by
      intro b hb
      by_contra hb'
      have hmem := hb.1
      rw [hpages] at hmem
      have hin := List.mem_of_ne_of_mem hb' hmem
      obtain ⟨size'', hsl, -⟩ := hI.core.slabs b hin
      have hown := hb.2.2
      rw [hother b hb', hksize, hsl.2.2] at hown
      exact hne size'' hsl.2.1 hown
    rw [hksize] at h0
    refine ⟨?_, ?_, ?_, ?_, ?_⟩ <;> rw [hksize, hcn]
    · exact fun b hb => absurd hb List.not_mem_nil
    · exact fun b hb => .inr (.inl (List.mem_singleton.mpr (honly b hb)))
    · exact List.nodup_nil
    · exact List.nodup_singleton page
    · exact List.nodup_nil
  · rw [hkother size' hs] at h0
    have hcn' : h'.cacheNode (h'.kmemCacheArray size') = h.cacheNode (h.kmemCacheArray size') := by
      rw [hkother size' hs, hh', OsLab.newSlab, Heap.cacheNode_setCache_of_ne (hne size' h0), hh₀]
      exact Heap.cacheNode_setCache_of_ne (hne size' h0)
    have hslab : ∀ b, IsSlab h' size' b ↔ IsSlab h size' b := by
      intro b
      by_cases hb : b = page
      · subst hb
        refine iff_of_false (fun hb => ?_) fun hb => hfresh hb.1
        have hown := hb.2.2
        rw [hself, hkother size' hs] at hown
        exact hne size' h0 hown.symm
      · rw [IsSlab, IsSlab, hother b hb, hpages, hkother size' hs, List.mem_cons, or_iff_right hb]
    refine (hP size' h0).keep hslab (fun b hb => ?_) ?_ ?_ ?_
    · rw [hother b]
      rintro rfl
      exact hfresh hb.1
    all_goals rw [hcn']

/-- **`kalloc`** -/
theorem kalloc {page : ℕ} (cpu : Fin cpuNum) (hP : AllPlaced h) (hI : SlabInv h live)
    (hsize : 1 ≤ size ∧ size < 2048) (hpage : page % pageSize = 0) (hfresh : page ∉ h.pages) :
    AllPlaced (OsLab.kalloc h cpu size page).2 := by
  by_cases h0 : h.kmemCacheArray size = 0
  · obtain ⟨hN, hk, hc0, hmem⟩ := hI.newCache h0 hsize hpage hfresh rfl rfl
    have hPN := hP.newCache hI h0 hpage hfresh rfl rfl
    have halloc := hPN.allocPartial hN (by rw [hk]; exact hc0) (by rw [hk]; exact hmem)
    rw [hk] at halloc
    rw [OsLab.kalloc, if_pos h0]
    exact halloc
  · have hnum := (hI.core.caches size h0).2
    rw [OsLab.kalloc, if_neg h0]
    dsimp only
    split
    · exact hP.setCache rfl rfl rfl
    · split
      · rename_i slab rest hp
        rw [hnum]
        apply hP.allocPartial hI h0
        rw [hp]
        exact List.mem_cons_self
      · split
        · rename_i slab rest hf
          rw [hnum]
          apply hP.allocFree hI h0
          rw [hf]
          exact List.mem_cons_self
        · have hN := hI.newSlab h0 hpage hfresh
          have hPN := hP.newSlab hI h0 hfresh
          rw [hnum]
          apply hPN.allocPartial hN h0
          change page ∈ ((OsLab.newSlab h (h.kmemCacheArray size) page).cacheNode
            (h.kmemCacheArray size)).slabsPartial
          rw [SlabInv.newSlab_cacheNode]
          exact List.mem_cons_self

/-- **`cache_flusharray`**, of the last object of a slab, or one of a full slab -/
theorem cacheFlusharray {p : ℕ} {rest : List ℕ} (hP : AllPlaced h) (hI : SlabInv h live)
    (h0 : h.kmemCacheArray size ≠ 0) (hc : cached h size cpu = p :: rest)
    (hend : (h.slabNode (pageBase p)).active = 1 ∨
      (h.slabNode (pageBase p)).active = objNum size) :
    AllPlaced (OsLab.cacheFlusharray h cpu (h.kmemCacheArray size) p rest) := by
  have hout : Out h live size p := by
    refine Or.inr ⟨h0, cpu, ?_⟩
    rw [hc]
    exact List.mem_cons_self
  obtain ⟨a, idx, hpl⟩ := hI.core.out size p hout
  have hnum := (hI.core.caches size h0).2
  have hpos := (hI.core.slabOk hpl.slab).active_pos hpl.lt hpl.used
  rw [hI.core.pageBase_eq hpl] at hend
  rw [OsLab.cacheFlusharray, hI.core.pageBase_eq hpl]
  dsimp only
  rw [hnum]
  have hmoves : (h.cacheNode (h.kmemCacheArray size)).Moves
      { (h.cacheNode (h.kmemCacheArray size)).detach a with
        arrayCache := Function.update (h.cacheNode (h.kmemCacheArray size)).arrayCache cpu rest }
      a := by
    have := CacheNode.moves_detach (h.cacheNode (h.kmemCacheArray size)) a
    exact ⟨this.full, this.part, this.free, this.nodupFull, this.nodupPartial, this.nodupFree⟩
  have hnum' : ((h.cacheNode (h.kmemCacheArray size)).detach a).num = objNum size := hnum
  split
  · refine hP.of_change hI.core hpl.slab rfl ?_
      (.inr ⟨CacheNode.notMem_detach a _, .inl List.mem_cons_self⟩)
    exact hmoves.add (.inl rfl) (.inr ⟨CacheNode.notMem_detach a _, .refl _⟩) (.inl rfl)
  · split
    · refine hP.of_change hI.core hpl.slab rfl ?_
        (.inr ⟨CacheNode.notMem_detach a _, .inr List.mem_cons_self⟩)
      exact hmoves.add (.inl rfl) (.inl rfl) (.inr ⟨CacheNode.notMem_detach a _, .refl _⟩)
    · omega

/-- **`kfree`** -/
theorem kfree {p : ℕ} (hP : AllPlaced h) (hI : SlabInv h live) (hp : (p, size) ∈ live)
    (cpu : Fin cpuNum)
    (hend : ∀ obj rest, cached h size cpu = obj :: rest → (obj :: rest).length = acLimit →
      (h.slabNode (pageBase obj)).active = 1 ∨
        (h.slabNode (pageBase obj)).active = objNum size) :
    AllPlaced (OsLab.kfree h cpu p) := by
  obtain ⟨a, idx, hpl⟩ := hI.core.out size p (Or.inl hp)
  have h0 := hpl.slab.2.1
  rw [OsLab.kfree, hI.core.pageBase_eq hpl, hpl.slab.2.2]
  rcases hc : (h.cacheNode (h.kmemCacheArray size)).arrayCache cpu with - | ⟨obj, rest⟩
  · exact hP.setCache rfl rfl rfl
  · dsimp only
    split
    · rename_i hlen
      exact (hP.cacheFlusharray hI h0 hc (hend obj rest hc hlen)).setCache rfl rfl rfl
    · exact hP.setCache rfl rfl rfl

end AllPlaced

/-! ## Runs -/

/-- **A call that flushes an object flushes the last one of its slab, or one of a full slab.** -/
def SlabSys.FlushEnds (s : SlabSys) : SlabCall → Prop
  | .kalloc _ _ _ => True
  | .kfree cpu _ size => ∀ obj rest, cached s.heap size cpu = obj :: rest →
      (obj :: rest).length = acLimit →
      (s.heap.slabNode (pageBase obj)).active = 1 ∨
        (s.heap.slabNode (pageBase obj)).active = objNum size

/-- How often a slab is in the lists of its cache -/
def CacheNode.places (cn : CacheNode) (a : ℕ) : ℕ :=
  cn.slabsFull.count a + cn.slabsPartial.count a + cn.slabsFree.count a

/-- **The slab is in exactly one list**, in `slabs_full` if it is full, and in `slabs_free` only if
none of its objects is active. -/
structure OnItsList (h : Heap) (size a : ℕ) : Prop where
  once : (h.cacheNode (h.kmemCacheArray size)).places a = 1
  full : a ∈ (h.cacheNode (h.kmemCacheArray size)).slabsFull ↔
    (h.slabNode a).active = (h.cacheNode (h.kmemCacheArray size)).num
  free : a ∈ (h.cacheNode (h.kmemCacheArray size)).slabsFree → (h.slabNode a).active = 0

theorem SlabPlaces.onItsList (hP : SlabPlaces h size) (hI : SlabInv h live)
    (ha : IsSlab h size a) : OnItsList h size a := by
  have h0 := ha.2.1
  have hL := hI.lists size h0
  have hnum := (hI.core.caches size h0).2
  have hpos := objNum_pos (hI.core.sizes size h0).2
  have hfull := fun hin => (hP.fulls a hin).2
  have hpart := fun hin => (hL.partials a hin).2
  have hfree := fun hin => (hL.frees a hin).2
  have hplaced := hP.placed a ha
  have hcount : ∀ {l : List ℕ}, l.Nodup → l.count a = if a ∈ l then 1 else 0 := by
    intro l hl
    split
    · rename_i hin
      exact List.count_eq_one_of_mem hl hin
    · rename_i hnot
      exact List.count_eq_zero_of_not_mem hnot
  refine ⟨?_, ⟨fun hin => (hfull hin).trans hnum.symm, fun heq => ?_⟩, hfree⟩
  · rw [CacheNode.places, hcount hP.nodupFull, hcount hP.nodupPartial, hcount hP.nodupFree]
    rcases hplaced with hin | hin | hin
    · have hact := hfull hin
      have hnp : a ∉ (h.cacheNode (h.kmemCacheArray size)).slabsPartial := fun hp => by
        have := hpart hp
        omega
      have hne : a ∉ (h.cacheNode (h.kmemCacheArray size)).slabsFree := fun he => by
        have := hfree he
        omega
      simp [hin, hnp, hne]
    · have hact := hpart hin
      have hnf : a ∉ (h.cacheNode (h.kmemCacheArray size)).slabsFull := fun hf => by
        have := hfull hf
        omega
      have hne : a ∉ (h.cacheNode (h.kmemCacheArray size)).slabsFree := fun he =>
        hL.apart a he hin
      simp [hin, hnf, hne]
    · have hact := hfree hin
      have hnf : a ∉ (h.cacheNode (h.kmemCacheArray size)).slabsFull := fun hf => by
        have := hfull hf
        omega
      have hnp := hL.apart a hin
      simp [hin, hnf, hnp]
  · rw [hnum] at heq
    refine hplaced.resolve_right ?_
    rintro (hin | hin)
    · have := hpart hin
      omega
    · have := hfree hin
      omega

/-- `kalloc` takes a new page only if there is nothing else. -/
theorem kalloc_newPage {page : ℕ} (hP : AllPlaced h)
    (h0 : h.kmemCacheArray size ≠ 0) (hnew : (OsLab.kalloc h cpu size page).2.pages ≠ h.pages) :
    cached h size cpu = [] ∧ ∀ a, IsSlab h size a → (h.slabNode a).active = objNum size := by
  have hkept : ∀ h₁ slab num, (OsLab.allocPartial h₁ (h.kmemCacheArray size) slab size num).2.pages =
      h₁.pages := by
    intro h₁ slab num
    rw [SlabInv.allocPartial_eq]
    split <;> rfl
  have hfree : ∀ slab num, (OsLab.allocFree h (h.kmemCacheArray size) slab size num).2.pages =
      h.pages := by
    intro slab num
    rw [SlabInv.allocFree_eq]
    rfl
  rw [OsLab.kalloc, if_neg h0] at hnew
  dsimp only at hnew
  split at hnew
  · exact absurd rfl hnew
  · rename_i hcached
    split at hnew
    · exact absurd (hkept ..) hnew
    · rename_i hpart
      split at hnew
      · exact absurd (hfree ..) hnew
      · rename_i hfrees
        refine ⟨hcached, fun a ha => ?_⟩
        rcases (hP size h0).placed a ha with hin | hin | hin
        · exact ((hP size h0).fulls a hin).2
        · rw [hpart] at hin
          cases hin
        · rw [hfrees] at hin
          cases hin

/-- **Every slab is in the list it belongs to**, in every run in which a flush leaves no slab with
some objects active but fewer than all but one; then `kalloc` takes a page for a size that has a cache
only if all its slabs are full and the array cache of the CPU is empty. -/
theorem slabs_on_lists {cacheNode : ℕ → CacheNode} {slabNode : ℕ → SlabNode} {t : SlabSys}
    (hr : Reach SlabSys.step (fun s c => s.Legal c ∧ s.FlushEnds c)
      (SlabSys.init cacheNode slabNode) t) :
    (∀ size a, IsSlab t.heap size a → OnItsList t.heap size a) ∧
      ∀ cpu size page, t.heap.kmemCacheArray size ≠ 0 →
        (kalloc t.heap cpu size page).2.pages ≠ t.heap.pages →
        cached t.heap size cpu = [] ∧
          ∀ a, IsSlab t.heap size a → (t.heap.slabNode a).active = objNum size := by
  have hinv : SlabInv t.heap t.live ∧ AllPlaced t.heap := by
    refine hr.invariant (P := fun s => SlabInv s.heap s.live ∧ AllPlaced s.heap)
      ⟨SlabSys.inv_init cacheNode slabNode, fun size h0 => absurd rfl h0⟩
      fun s c s' ⟨hI, hP⟩ ⟨hleg, hend⟩ hs => ⟨SlabSys.inv_step hI hleg hs, ?_⟩
    cases c with
    | kalloc cpu size page =>
        obtain ⟨h1, hlt, hpage, hfresh⟩ := hleg
        cases hs
        exact hP.kalloc cpu hI ⟨h1, hlt⟩ hpage hfresh
    | kfree cpu p size =>
        cases hs
        exact hP.kfree hI hleg cpu hend
  obtain ⟨hI, hP⟩ := hinv
  exact ⟨fun size a ha => (hP size ha.2.1).onItsList hI ha,
    fun cpu size page h0 hnew => kalloc_newPage hP h0 hnew⟩

def SlabSys.legalTest (s : SlabSys) : SlabCall → Bool
  | .kalloc _ size page => 1 ≤ size ∧ size < 2048 ∧ page % pageSize = 0 ∧ page ∉ s.heap.pages
  | .kfree _ p size => (p, size) ∈ s.live

theorem SlabSys.legal_of_test (s : SlabSys) (c : SlabCall) (h : s.legalTest c = true) :
    s.Legal c := by
  cases c with
  | kalloc cpu size page =>
      rw [legalTest, decide_eq_true_eq] at h
      exact h
  | kfree cpu p size =>
      rw [legalTest, decide_eq_true_eq] at h
      exact h

def SlabSys.flushTest (s : SlabSys) : SlabCall → Bool
  | .kalloc _ _ _ => true
  | .kfree cpu _ size =>
      match cached s.heap size cpu with
      | obj :: rest => (obj :: rest).length ≠ acLimit ∨
          (s.heap.slabNode (pageBase obj)).active = 1 ∨
          (s.heap.slabNode (pageBase obj)).active = objNum size
      | [] => true

def SlabSys.endTest (s : SlabSys) (c : SlabCall) : Bool := s.legalTest c && s.flushTest c

theorem SlabSys.flushEnds_of_test (s : SlabSys) (c : SlabCall) (h : s.endTest c = true) :
    s.Legal c ∧ s.FlushEnds c := by
  rw [endTest, Bool.and_eq_true] at h
  refine ⟨s.legal_of_test c h.1, ?_⟩
  cases c with
  | kalloc cpu size page => trivial
  | kfree cpu p size =>
      intro obj rest hc hlen
      have hflush := h.2
      rw [flushTest, hc] at hflush
      exact (of_decide_eq_true hflush).resolve_left fun hne => hne hlen

/-- `n` objects of 1000 bytes are allocated on CPU 0, three to a slab, and freed in that order. -/
def slabCalls (n : ℕ) : List SlabCall :=
  (List.range n).map (fun i => .kalloc ⟨0, by decide⟩ 1000 (4096 * (i + 1))) ++
    (List.range n).map fun i =>
      .kfree ⟨0, by decide⟩ (4096 * (3 * (i / 3) + 1) + 56 + 1000 * (i % 3)) 1000

def emptyHeap : SlabSys := .init (fun _ => initCacheNode 0 0) fun _ => initSlabNode 0

/-- What is looked at of the slab 40960 after the calls -/
def lastSlab (t : SlabSys) : List ℕ × ℕ × ℕ × ℕ × ℕ :=
  (t.heap.pages, t.heap.kmemCacheArray 1000, (t.heap.slabNode 40960).ownerCache,
    (t.heap.slabNode 40960).active, (t.heap.cacheNode (t.heap.kmemCacheArray 1000)).places 40960)

/-- An object of a full slab is flushed. -/
theorem slabs_on_lists_full : ∃ t : SlabSys,
    lastSlab t = ([40960, 28672, 16384, 4096], 7752, 7752, 2, 1) ∧
    (∀ size a, IsSlab t.heap size a → OnItsList t.heap size a) ∧
      ∀ cpu size page, t.heap.kmemCacheArray size ≠ 0 →
        (kalloc t.heap cpu size page).2.pages ≠ t.heap.pages →
        cached t.heap size cpu = [] ∧
          ∀ a, IsSlab t.heap size a → (t.heap.slabNode a).active = objNum size := by
  have hrun : (runs (fun s c => if s.endTest c then s.step c else none) emptyHeap
      ((slabCalls 12).take 23)).map lastSlab =
      some ([40960, 28672, 16384, 4096], 7752, 7752, 2, 1) := by decide +kernel
  obtain ⟨t, ht, hres⟩ := Option.map_eq_some_iff.mp hrun
  have hreach : Reach SlabSys.step (fun s c => s.Legal c ∧ s.FlushEnds c) emptyHeap t :=
    .of_tested .init SlabSys.flushEnds_of_test _ ht
  exact ⟨t, hres, slabs_on_lists hreach⟩

/-- **A slab is lost.**  An object of the full slab is flushed, and then another one: the slab with
one active object of three is in no list. -/
theorem slab_lost : ¬∀ t : SlabSys, Reach SlabSys.step SlabSys.Legal emptyHeap t →
    ∀ size a, IsSlab t.heap size a → OnItsList t.heap size a := by
  intro hall
  have hrun : (runs (fun s c => if s.legalTest c then s.step c else none) emptyHeap
      (slabCalls 12)).map lastSlab =
      some ([40960, 28672, 16384, 4096], 7752, 7752, 1, 0) := by decide +kernel
  obtain ⟨t, ht, hres⟩ := Option.map_eq_some_iff.mp hrun
  simp only [lastSlab, Prod.mk.injEq] at hres
  obtain ⟨hpages, hkmem, hown, -, hplaces⟩ := hres
  have hreach := Reach.of_tested .init SlabSys.legal_of_test _ ht
  have hslab : IsSlab t.heap 1000 40960 := by
    refine ⟨by simp [hpages], by simp [hkmem], ?_⟩
    rw [hown, hkmem]
  have := (hall t hreach 1000 40960 hslab).once
  omega

end OsLab
