import OsLab.Common.Spinlock
import OsLab.Kernel.SlabInv
import Mathlib.Algebra.Order.BigOperators.Group.List
import Mathlib.Algebra.Order.Group.Nat

/-!
# The slab allocator under its spin lock

`SlabSys` runs `kalloc` and `kfree` one call at a time.  In the kernel every CPU may be in one of
them, and what they do one at a time is only what `mem_lock` makes of it.  Here a call is the
sequence of its accesses to the nodes, and a step is one access, or one step of
`_acquire_spinlock` or `_release_spinlock`.

## Main definitions

* `HeapOp`, `Heap.answer` — the accesses.
* `HeapProg.kalloc`, `HeapProg.kfree` — the functions between `acquire_spinlock` and
  `release_spinlock`, with `runs_kalloc` and `runs_kfree`: alone they are `kalloc` and `kfree`.
* `SlabSpin` — the system, and `SlabSpin.Promised`, what callers promise.
* `kalloc_atomic` — the result over runs.
-/

namespace OsLab

/-- One access of a section that `mem_lock` guards.  An access loads or stores a whole node, where
the source accesses its fields one by one; nobody else gets in between, as the results show. -/
inductive HeapOp
  | loadArray (size : ℕ)
  | storeArray (size cache : ℕ)
  | loadCache (a : ℕ)
  | storeCache (a : ℕ) (cn : CacheNode)
  | loadSlab (a : ℕ)
  | storeSlab (a : ℕ) (sl : SlabNode)
  | kallocPage

abbrev HeapRes : HeapOp → Type
  | .loadArray _ => ℕ
  | .loadCache _ => CacheNode
  | .loadSlab _ => SlabNode
  | .kallocPage => ℕ
  | _ => Unit

/-- The access; `page` is what `kalloc_page` returns, an aligned page that is not in use. -/
def Heap.answer (h : Heap) (page : ℕ) : (c : HeapOp) → Option (HeapRes c × Heap)
  | .loadArray size => some (h.kmemCacheArray size, h)
  | .storeArray size cache =>
      some ((), { h with kmemCacheArray := Function.update h.kmemCacheArray size cache })
  | .loadCache a => some (h.cacheNode a, h)
  | .storeCache a cn => some ((), h.setCache a cn)
  | .loadSlab a => some (h.slabNode a, h)
  | .storeSlab a sl => some ((), h.setSlab a sl)
  | .kallocPage =>
      if page % pageSize = 0 ∧ page ∉ h.pages then
        some (page, { h with pages := page :: h.pages })
      else none

abbrev HeapProg := Prog HeapOp HeapRes

namespace HeapProg

def loadArray (size : ℕ) : HeapProg ℕ := Prog.send (HeapOp.loadArray size)
def storeArray (size cache : ℕ) : HeapProg Unit := Prog.send (HeapOp.storeArray size cache)
def loadCache (a : ℕ) : HeapProg CacheNode := Prog.send (HeapOp.loadCache a)
def storeCache (a : ℕ) (cn : CacheNode) : HeapProg Unit := Prog.send (HeapOp.storeCache a cn)
def loadSlab (a : ℕ) : HeapProg SlabNode := Prog.send (HeapOp.loadSlab a)
def storeSlab (a : ℕ) (sl : SlabNode) : HeapProg Unit := Prog.send (HeapOp.storeSlab a sl)
def kallocPage : HeapProg ℕ := Prog.send HeapOp.kallocPage

/-! ## The functions -/

/-- `alloc_obj` -/
def allocObj (slab size objNum : ℕ) : HeapProg ℕ := do
  let sl ← loadSlab slab
  storeSlab slab { sl with active := sl.active + 1 }
  return slab + sizeofSlabNode + (sizeofInt * objNum / 8 + 1) * 8 + sl.colour +
    sl.freelist sl.active * size

/-- `_detach_from_list(&slab_node->snode)` -/
def detach (cache slab : ℕ) : HeapProg Unit := do
  let cn ← loadCache cache
  storeCache cache (cn.detach slab)

/-- `_merge_list` with the list of full slabs. -/
def mergeFull (cache slab : ℕ) : HeapProg Unit := do
  let cn ← loadCache cache
  storeCache cache { cn with slabsFull := cn.slabsFull ++ [slab] }

/-- `_merge_list` with the list of partial slabs. -/
def mergePartial (cache slab : ℕ) : HeapProg Unit := do
  let cn ← loadCache cache
  storeCache cache { cn with slabsPartial := cn.slabsPartial ++ [slab] }

def allocPartial (cache slab size num : ℕ) : HeapProg ℕ := do
  let ret ← allocObj slab size num
  let sl ← loadSlab slab
  if num ≤ sl.active then do
    detach cache slab
    mergeFull cache slab
    return ret
  else return ret

def allocFree (cache slab size num : ℕ) : HeapProg ℕ := do
  let ret ← allocObj slab size num
  detach cache slab
  let sl ← loadSlab slab
  if num ≤ sl.active then do
    mergeFull cache slab
    return ret
  else do
    mergePartial cache slab
    return ret

/-- `init_slab_node`, the owner, and `_insert_into_list`. -/
def newSlab (cache page : ℕ) : HeapProg Unit := do
  storeSlab page (initSlabNode cache)
  let cn ← loadCache cache
  storeCache cache { cn with slabsPartial := page :: cn.slabsPartial }

/-- `kalloc` on a CPU. -/
def kalloc (cpu : Fin cpuNum) (size : ℕ) : HeapProg ℕ := do
  let searchRes ← loadArray size
  if searchRes = 0 then do
    let page ← kallocPage
    storeArray size (cacheAddr page)
    storeCache (cacheAddr page) (initCacheNode size (objNum size))
    newSlab (cacheAddr page) page
    allocPartial (cacheAddr page) page size (objNum size)
  else do
    let cn ← loadCache searchRes
    match cn.arrayCache cpu with
    | objp :: rest => do
        storeCache searchRes { cn with arrayCache := Function.update cn.arrayCache cpu rest }
        return objp
    | [] =>
        match cn.slabsPartial with
        | slab :: _ => allocPartial searchRes slab size cn.num
        | [] =>
            match cn.slabsFree with
            | slab :: _ => allocFree searchRes slab size cn.num
            | [] => do
                let page ← kallocPage
                newSlab searchRes page
                allocPartial searchRes page size cn.num

/-- `cache_flusharray` with the last entry and the rest of them. -/
def cacheFlusharray (cpu : Fin cpuNum) (cache obj : ℕ) (rest : List ℕ) : HeapProg Unit := do
  let cn ← loadCache cache
  storeCache cache { cn with arrayCache := Function.update cn.arrayCache cpu rest }
  let sl ← loadSlab (pageBase obj)
  storeSlab (pageBase obj) { sl with
    active := sl.active - 1
    freelist := Function.update sl.freelist (sl.active - 1)
      (getObjIndex sl (pageBase obj) cn.objectSize cn.num obj) }
  detach cache (pageBase obj)
  let sl ← loadSlab (pageBase obj)
  let cn ← loadCache cache
  if sl.active = cn.num - 1 then
    storeCache cache { cn with slabsPartial := pageBase obj :: cn.slabsPartial }
  else if sl.active = 0 then
    storeCache cache { cn with slabsFree := pageBase obj :: cn.slabsFree }
  else return ()

/-- `ac->entry[ac->avail++] = p` -/
def pushEntry (cpu : Fin cpuNum) (cache p : ℕ) : HeapProg Unit := do
  let cn ← loadCache cache
  storeCache cache { cn with
    arrayCache := Function.update cn.arrayCache cpu (p :: cn.arrayCache cpu) }

/-- `kfree` on a CPU; see `OsLab.kfree` for the test at its end. -/
def kfree (cpu : Fin cpuNum) (p : ℕ) : HeapProg Unit := do
  let sl ← loadSlab (pageBase p)
  let cn ← loadCache sl.ownerCache
  match cn.arrayCache cpu with
  | obj :: rest =>
      if (obj :: rest).length = acLimit then do
        cacheFlusharray cpu sl.ownerCache obj rest
        pushEntry cpu sl.ownerCache p
      else pushEntry cpu sl.ownerCache p
  | [] => pushEntry cpu sl.ownerCache p

/-! ## The functions alone -/

section Runs

variable {α : Type} {h h' : Heap} {r : α} {a size : ℕ}

@[simp] theorem runs_loadArray {f : ℕ → HeapProg α} :
    ((loadArray size).bind f).Runs Heap.answer h r h' ↔
      (f (h.kmemCacheArray size)).Runs Heap.answer h r h' :=
  Prog.runs_send_bind fun _ => rfl

@[simp] theorem runs_storeArray {f : Unit → HeapProg α} :
    ((storeArray size a).bind f).Runs Heap.answer h r h' ↔
      (f ()).Runs Heap.answer
        { h with kmemCacheArray := Function.update h.kmemCacheArray size a } r h' :=
  Prog.runs_send_bind fun _ => rfl

@[simp] theorem runs_loadCache {f : CacheNode → HeapProg α} :
    ((loadCache a).bind f).Runs Heap.answer h r h' ↔
      (f (h.cacheNode a)).Runs Heap.answer h r h' :=
  Prog.runs_send_bind fun _ => rfl

@[simp] theorem runs_storeCache {f : Unit → HeapProg α} {cn : CacheNode} :
    ((storeCache a cn).bind f).Runs Heap.answer h r h' ↔
      (f ()).Runs Heap.answer (h.setCache a cn) r h' :=
  Prog.runs_send_bind fun _ => rfl

theorem runs_storeCache_last {cn : CacheNode} {u : Unit} :
    (storeCache a cn).Runs Heap.answer h u h' ↔ h.setCache a cn = h' :=
  (Prog.runs_send fun _ => rfl).trans (and_iff_right rfl)

@[simp] theorem runs_loadSlab {f : SlabNode → HeapProg α} :
    ((loadSlab a).bind f).Runs Heap.answer h r h' ↔ (f (h.slabNode a)).Runs Heap.answer h r h' :=
  Prog.runs_send_bind fun _ => rfl

@[simp] theorem runs_storeSlab {f : Unit → HeapProg α} {sl : SlabNode} :
    ((storeSlab a sl).bind f).Runs Heap.answer h r h' ↔
      (f ()).Runs Heap.answer (h.setSlab a sl) r h' :=
  Prog.runs_send_bind fun _ => rfl

variable {slab num cache page : ℕ} {u : Unit} {ret : ℕ}

@[simp] theorem setCache_setSlab (h : Heap) (c a : ℕ) (cn : CacheNode) (sl : SlabNode) :
    (h.setCache c cn).setSlab a sl = (h.setSlab a sl).setCache c cn := rfl

@[simp] theorem setCache_setCache (h : Heap) (c : ℕ) (cn cn' : CacheNode) :
    (h.setCache c cn).setCache c cn' = h.setCache c cn' := by
  simp [Heap.setCache]

@[simp] theorem setCache_slabNode (h : Heap) (c : ℕ) (cn : CacheNode) :
    (h.setCache c cn).slabNode = h.slabNode := rfl

theorem runs_allocObj : (allocObj slab size num).Runs Heap.answer h ret h' ↔
    OsLab.allocObj h slab size num = (ret, h') := by
  simp [allocObj, OsLab.allocObj]

theorem runs_detach : (detach cache slab).Runs Heap.answer h u h' ↔
    ((), h.setCache cache ((h.cacheNode cache).detach slab)) = (u, h') := by
  simp [detach, runs_storeCache_last]

theorem runs_mergeFull : (mergeFull cache slab).Runs Heap.answer h u h' ↔
    ((), h.setCache cache { h.cacheNode cache with
      slabsFull := (h.cacheNode cache).slabsFull ++ [slab] }) = (u, h') := by
  simp [mergeFull, runs_storeCache_last]

theorem runs_mergePartial : (mergePartial cache slab).Runs Heap.answer h u h' ↔
    ((), h.setCache cache { h.cacheNode cache with
      slabsPartial := (h.cacheNode cache).slabsPartial ++ [slab] }) = (u, h') := by
  simp [mergePartial, runs_storeCache_last]

theorem active_allocObj (h : Heap) (slab size num : ℕ) :
    ((OsLab.allocObj h slab size num).2.slabNode slab).active = (h.slabNode slab).active + 1 := by
  rw [OsLab.allocObj, Heap.slabNode_setSlab_self]

@[simp] theorem cacheNode_allocObj (h : Heap) (slab size num : ℕ) :
    (OsLab.allocObj h slab size num).2.cacheNode = h.cacheNode := rfl

theorem runs_allocPartial : (allocPartial cache slab size num).Runs Heap.answer h ret h' ↔
    OsLab.allocPartial h cache slab size num = (ret, h') := by
  simp only [allocPartial, Prog.monad_bind_eq, Prog.pure_eq,
    Prog.runs_bind_of fun _ _ => runs_allocObj, runs_loadSlab, active_allocObj,
    SlabInv.allocPartial_eq]
  split
  · simp [Prog.runs_bind_of fun _ _ => runs_detach, Prog.runs_bind_of fun _ _ => runs_mergeFull]
  · simp [Prod.ext_iff]

theorem runs_allocFree : (allocFree cache slab size num).Runs Heap.answer h ret h' ↔
    OsLab.allocFree h cache slab size num = (ret, h') := by
  simp only [allocFree, Prog.monad_bind_eq, Prog.pure_eq,
    Prog.runs_bind_of fun _ _ => runs_allocObj, Prog.runs_bind_of fun _ _ => runs_detach,
    runs_loadSlab, setCache_slabNode, active_allocObj, SlabInv.allocFree_eq]
  split
  · simp [Prog.runs_bind_of fun _ _ => runs_mergeFull]
  · simp [Prog.runs_bind_of fun _ _ => runs_mergePartial]

/-- `newSlab` with the page that `kalloc_page` has returned. -/
theorem runs_newSlab_bind {f : Unit → HeapProg α} :
    ((newSlab cache page).bind f).Runs Heap.answer { h with pages := page :: h.pages } r h' ↔
      (f ()).Runs Heap.answer (OsLab.newSlab h cache page) r h' := by
  refine Prog.runs_bind_of (x := ((), OsLab.newSlab h cache page)) fun u t => ?_
  simp [newSlab, OsLab.newSlab, runs_storeCache_last]

/-- There is always a page that is not in use. -/
theorem exists_fresh (h : Heap) : ∃ page, page % pageSize = 0 ∧ page ∉ h.pages := by
  refine ⟨pageSize * (h.pages.sum + 1), Nat.mul_mod_right .., fun hmem => ?_⟩
  have hle := List.le_sum_of_mem hmem
  simp only [pageSize] at hle
  omega

theorem runs_kallocPage {f : ℕ → HeapProg α} : (kallocPage.bind f).Runs Heap.answer h r h' ↔
    ∃ page, (page % pageSize = 0 ∧ page ∉ h.pages) ∧
      (f page).Runs Heap.answer { h with pages := page :: h.pages } r h' := by
  rw [kallocPage, Prog.send_bind, Prog.runs_call]
  refine exists_congr fun page => ?_
  by_cases hp : page % pageSize = 0 ∧ page ∉ h.pages
  · simp only [Heap.answer, if_pos hp, Option.some.injEq, Prod.mk.injEq]
    constructor
    · rintro ⟨q, t, ⟨rfl, rfl⟩, hf⟩
      exact ⟨hp, hf⟩
    · rintro ⟨-, hf⟩
      exact ⟨page, _, ⟨rfl, rfl⟩, hf⟩
  · simp [Heap.answer, hp]

/-- **`kalloc` alone.** -/
theorem runs_kalloc (cpu : Fin cpuNum) :
    (kalloc cpu size).Runs Heap.answer h ret h' ↔ ∃ page, (page % pageSize = 0 ∧ page ∉ h.pages) ∧
      OsLab.kalloc h cpu size page = (ret, h') := by
  -- a page that is not asked for may be any one
  have hany : ∀ {P : Prop}, P ↔ ∃ page, (page % pageSize = 0 ∧ page ∉ h.pages) ∧ P := by
    intro P
    obtain ⟨page, hp⟩ := exists_fresh h
    exact ⟨fun hP => ⟨page, hp, hP⟩, fun ⟨_, _, hP⟩ => hP⟩
  simp only [kalloc, Prog.monad_bind_eq, Prog.pure_eq, runs_loadArray]
  by_cases h0 : h.kmemCacheArray size = 0
  · rw [if_pos h0, runs_kallocPage]
    refine exists_congr fun page => and_congr_right fun _ => ?_
    simp only [OsLab.kalloc, h0, if_true]
    rw [runs_storeArray, runs_storeCache, ← runs_allocPartial]
    exact runs_newSlab_bind (h := Heap.setCache { h with
      kmemCacheArray := Function.update h.kmemCacheArray size (cacheAddr page) } (cacheAddr page)
      (initCacheNode size (objNum size)))
  · rw [if_neg h0, runs_loadCache]
    cases hac : (h.cacheNode (h.kmemCacheArray size)).arrayCache cpu with
    | cons objp rest =>
        rw [runs_storeCache, hany (P := Prog.Runs _ _ _ _ _)]
        simp [OsLab.kalloc, h0, hac]
    | nil =>
        cases hpart : (h.cacheNode (h.kmemCacheArray size)).slabsPartial with
        | cons slab _ =>
            rw [hany (P := Prog.Runs _ _ _ _ _)]
            simp [OsLab.kalloc, h0, hac, hpart, runs_allocPartial]
        | nil =>
            cases hfree : (h.cacheNode (h.kmemCacheArray size)).slabsFree with
            | cons slab _ =>
                rw [hany (P := Prog.Runs _ _ _ _ _)]
                simp [OsLab.kalloc, h0, hac, hpart, hfree, runs_allocFree]
            | nil =>
                rw [runs_kallocPage]
                refine exists_congr fun page => and_congr_right fun _ => ?_
                simp only [OsLab.kalloc, h0, hac, hpart, hfree, if_false]
                rw [← runs_allocPartial]
                exact runs_newSlab_bind

theorem runs_cacheFlusharray (cpu : Fin cpuNum) (obj : ℕ) (rest : List ℕ) :
    (cacheFlusharray cpu cache obj rest).Runs Heap.answer h u h' ↔
      ((), OsLab.cacheFlusharray h cpu cache obj rest) = (u, h') := by
  simp only [cacheFlusharray, Prog.monad_bind_eq, Prog.pure_eq, runs_loadCache, runs_storeCache,
    runs_loadSlab, runs_storeSlab, Prog.runs_bind_of fun _ _ => runs_detach, setCache_slabNode,
    setCache_setSlab, setCache_setCache, Heap.cacheNode_setCache_self, Heap.slabNode_setSlab_self,
    CacheNode.detach, OsLab.cacheFlusharray]
  by_cases hfull : (h.slabNode (pageBase obj)).active - 1 = (h.cacheNode cache).num - 1
  · simp only [eq_true hfull, if_true, runs_storeCache_last, setCache_setCache, Prod.mk.injEq,
      true_and]
  · by_cases hempty : (h.slabNode (pageBase obj)).active - 1 = 0
    · simp only [eq_false hfull, eq_true hempty, if_true, if_false, runs_storeCache_last,
        setCache_setCache, Prod.mk.injEq, true_and]
    · simp only [eq_false hfull, eq_false hempty, if_false, Prog.runs_ret, Prod.mk.injEq]

theorem runs_pushEntry (cpu : Fin cpuNum) (p : ℕ) :
    (pushEntry cpu cache p).Runs Heap.answer h u h' ↔
      h.setCache cache { h.cacheNode cache with
        arrayCache := Function.update (h.cacheNode cache).arrayCache cpu
          (p :: (h.cacheNode cache).arrayCache cpu) } = h' := by
  simp [pushEntry, runs_storeCache_last]

/-- **`kfree` alone.** -/
theorem runs_kfree (cpu : Fin cpuNum) (p : ℕ) :
    (kfree cpu p).Runs Heap.answer h u h' ↔ OsLab.kfree h cpu p = h' := by
  simp only [kfree, Prog.monad_bind_eq, runs_loadCache, runs_loadSlab, OsLab.kfree]
  cases hac : (h.cacheNode (h.slabNode (pageBase p)).ownerCache).arrayCache cpu with
  | nil => exact runs_pushEntry cpu p
  | cons obj rest =>
      by_cases hlen : (obj :: rest).length = acLimit
      · simp only [if_pos hlen]
        rw [Prog.runs_bind_of fun _ _ => runs_cacheFlusharray cpu obj rest]
        exact runs_pushEntry cpu p
      · simp only [if_neg hlen]
        exact runs_pushEntry cpu p

end Runs

end HeapProg

/-! ## Runs -/

/-- A call that a CPU makes; `kfree` with the size the object was allocated with. -/
inductive HeapCall
  | kalloc (size : ℕ)
  | kfree (p size : ℕ)
  deriving DecidableEq

/-- What a CPU does between `acquire_spinlock` and `release_spinlock`, and what it returns. -/
def HeapCall.body (cpu : Fin cpuNum) : HeapCall → HeapProg (Option ℕ)
  | .kalloc size => (HeapProg.kalloc cpu size).bind fun p => .ret (some p)
  | .kfree p _ => (HeapProg.kfree cpu p).bind fun _ => .ret none

abbrev SlabSpin := SpinSys (Fin cpuNum) HeapCall HeapOp HeapRes (Option ℕ) Heap

namespace SlabSpin

def init (cacheNode : ℕ → CacheNode) (slabNode : ℕ → SlabNode) : SlabSpin :=
  SpinSys.init (SlabSys.init cacheNode slabNode).heap

def step : SlabSpin → SpinAct (Fin cpuNum) HeapCall ℕ → Option SlabSpin :=
  SpinSys.step Heap.answer HeapCall.body

/-- The objects that are out after one more call. -/
def liveAfter (l : List (ℕ × ℕ)) : HeapCall → Option ℕ → List (ℕ × ℕ)
  | .kalloc size, some p => (p, size) :: l
  | .kalloc _, none => l
  | .kfree p size, _ => l.erase (p, size)

/-- The objects that were returned and not freed, with their sizes. -/
def live (s : SlabSpin) : List (ℕ × ℕ) :=
  s.done.foldl (fun l x => liveAfter l x.1.2 x.2) []

/-- What callers promise: the sizes, and that an object is freed by the one who has it. -/
def Promised (s : SlabSpin) : SpinAct (Fin cpuNum) HeapCall ℕ → Prop
  | .call _ (.kalloc size) => 1 ≤ size ∧ size < 2048
  | .call _ (.kfree p size) =>
      (p, size) ∈ s.live ∧ ∀ t, s.calls t ≠ some (.kfree p size)
  | .next _ _ => True

/-- The calls that have not returned. -/
structure CallsOk (s : SlabSpin) : Prop where
  sizes : ∀ t size, s.calls t = some (.kalloc size) → 1 ≤ size ∧ size < 2048
  frees : ∀ t p size, s.calls t = some (.kfree p size) → (p, size) ∈ s.live
  once : ∀ t t' p size, s.calls t = some (.kfree p size) →
    s.calls t' = some (.kfree p size) → t = t'

variable {s s' : SlabSpin} {cacheNode : ℕ → CacheNode} {slabNode : ℕ → SlabNode}

theorem live_append {x : (Fin cpuNum × HeapCall) × Option ℕ} (h : s'.done = s.done ++ [x]) :
    s'.live = liveAfter s.live x.1.2 x.2 := by
  rw [live, h, List.foldl_append]
  rfl

theorem live_congr (h : s'.done = s.done) : s'.live = s.live := by
  rw [live, live, h]

/-- An object stays out until its own `kfree` returns. -/
theorem mem_liveAfter {l : List (ℕ × ℕ)} {i : HeapCall} {r : Option ℕ} {p size : ℕ}
    (h : (p, size) ∈ l) (hi : i ≠ .kfree p size) : (p, size) ∈ liveAfter l i r := by
  cases i with
  | kalloc _ =>
      cases r with
      | none => exact h
      | some _ => exact List.mem_cons_of_mem _ h
  | kfree q size' =>
      refine (List.mem_erase_of_ne fun heq => hi ?_).mpr h
      cases heq
      rfl

end SlabSpin

/-- A call of the allocator that runs one call at a time, with its result. -/
def SlabSys.Does (z : SlabSys) (x : Fin cpuNum × HeapCall) (r : Option ℕ) (z' : SlabSys) : Prop :=
  match x with
  | (cpu, .kalloc size) => ∃ page p, r = some p ∧ z'.live = (p, size) :: z.live ∧
      z.Legal (.kalloc cpu size page) ∧ z.step (.kalloc cpu size page) = some z'
  | (cpu, .kfree p size) => r = none ∧
      z.Legal (.kfree cpu p size) ∧ z.step (.kfree cpu p size) = some z'

namespace SlabSpin

variable {s s' : SlabSpin} {cacheNode : ℕ → CacheNode} {slabNode : ℕ → SlabNode} {z : SlabSys}

/-- **The section of a call is the call.** -/
theorem does_of_runs {t : Fin cpuNum} {i : HeapCall} {r : Option ℕ} {h' : Heap}
    (hr : (HeapCall.body t i).Runs Heap.answer z.heap r h')
    (hsize : ∀ size, i = .kalloc size → 1 ≤ size ∧ size < 2048)
    (hfree : ∀ p size, i = .kfree p size → (p, size) ∈ z.live) :
    z.Does (t, i) r ⟨h', liveAfter z.live i r⟩ := by
  cases i with
  | kalloc size =>
      obtain ⟨p, h, hp, rfl, rfl⟩ := Prog.runs_bind.mp hr
      obtain ⟨page, hpage, hk⟩ := (HeapProg.runs_kalloc t).mp hp
      obtain ⟨h1, hlt⟩ := hsize size rfl
      refine ⟨page, p, rfl, rfl, ⟨h1, hlt, hpage⟩, ?_⟩
      rw [SlabSys.step, hk]
      rfl
  | kfree p size =>
      obtain ⟨u, h, hp, rfl, rfl⟩ := Prog.runs_bind.mp hr
      refine ⟨rfl, hfree p size rfl, ?_⟩
      rw [SlabSys.step, (HeapProg.runs_kfree t p).mp hp]
      rfl

/-- What holds of every state: the calls that have returned are calls of `SlabSys`. -/
structure Atomic (cacheNode : ℕ → CacheNode) (slabNode : ℕ → SlabNode) (s : SlabSpin)
    (z : SlabSys) : Prop where
  history : SerialRun SlabSys.Does (SlabSys.init cacheNode slabNode) s.done z
  live : z.live = s.live
  guards : SpinSys.Guards Heap.answer HeapCall.body s z.heap
  ok : s.CallsOk

theorem atomic_init : Atomic cacheNode slabNode (init cacheNode slabNode)
    (SlabSys.init cacheNode slabNode) where
  history := .init
  live := rfl
  guards := SpinSys.guards_init _
  ok := by constructor <;> simp [init, SpinSys.init, SpinSys.calls, SpinPc.call]

/-- A call begins. -/
theorem CallsOk.call {t : Fin cpuNum} {i : HeapCall} (h : s.CallsOk)
    (hok : s.Promised (.call t i)) (hdone : s'.done = s.done)
    (hcalls : s'.calls = Function.update s.calls t (some i)) : s'.CallsOk := by
  have hself : s'.calls t = some i := by rw [hcalls, Function.update_self]
  have hother : ∀ u, u ≠ t → s'.calls u = s.calls u := fun u hu => by
    rw [hcalls, Function.update_of_ne hu]
  constructor
  · intro u size hu
    by_cases hut : u = t
    · rw [hut, hself] at hu
      cases hu
      exact hok
    · exact h.sizes u size ((hother u hut).symm.trans hu)
  · intro u p size hu
    rw [live_congr hdone]
    by_cases hut : u = t
    · rw [hut, hself] at hu
      cases hu
      exact hok.1
    · exact h.frees u p size ((hother u hut).symm.trans hu)
  · -- nobody else was freeing the object
    have hnew : ∀ u p size, i = .kfree p size → s'.calls u = some (.kfree p size) → u = t := by
      rintro u p size rfl hu
      by_contra hut
      exact hok.2 u ((hother u hut).symm.trans hu)
    intro u u' p size hu hu'
    by_cases hut : u = t
    · rw [hut, hself] at hu
      rw [hut]
      exact (hnew u' p size (Option.some.inj hu) hu').symm
    · by_cases hut' : u' = t
      · rw [hut', hself] at hu'
        rw [hut']
        exact hnew u p size (Option.some.inj hu') hu
      · exact h.once u u' p size ((hother u hut).symm.trans hu) ((hother u' hut').symm.trans hu')

/-- A call returns. -/
theorem CallsOk.ret {t : Fin cpuNum} {i : HeapCall} {r : Option ℕ} (h : s.CallsOk)
    (hcall : s.calls t = some i) (hcalls : s'.calls = Function.update s.calls t none)
    (hdone : s'.done = s.done ++ [((t, i), r)]) : s'.CallsOk := by
  have hold : ∀ u j, s'.calls u = some j → u ≠ t ∧ s.calls u = some j := by
    intro u j hu
    by_cases hut : u = t
    · rw [hut, hcalls, Function.update_self] at hu
      cases hu
    · rw [hcalls, Function.update_of_ne hut] at hu
      exact ⟨hut, hu⟩
  constructor
  · intro u size hu
    exact h.sizes u size (hold u _ hu).2
  · intro u p size hu
    obtain ⟨hut, hu⟩ := hold u _ hu
    rw [live_append hdone]
    refine mem_liveAfter (h.frees u p size hu) ?_
    rintro rfl
    exact hut (h.once u t p size hu hcall)
  · intro u u' p size hu hu'
    exact h.once u u' p size (hold u _ hu).2 (hold u' _ hu').2

theorem Atomic.step {a : SpinAct (Fin cpuNum) HeapCall ℕ} (h : Atomic cacheNode slabNode s z)
    (hok : s.Promised a) (hs : s.step a = some s') : ∃ z', Atomic cacheNode slabNode s' z' := by
  cases h.guards.next hs with
  | call t i calls done guards =>
      refine ⟨z, ?_, ?_, guards, h.ok.call hok done calls⟩
      · rw [done]
        exact h.history
      · rw [h.live, live_congr done]
  | on t w calls done guards =>
      have hlive := live_congr done
      refine ⟨z, ?_, h.live.trans hlive.symm, guards, ?_⟩
      · rw [done]
        exact h.history
      · constructor
        · rw [calls]
          exact h.ok.sizes
        · rw [calls, hlive]
          exact h.ok.frees
        · rw [calls]
          exact h.ok.once
  | ret t w i r call calls done does guards =>
      refine ⟨⟨s'.data, liveAfter z.live i r⟩, ?_, ?_, guards, h.ok.ret call calls done⟩
      · rw [done]
        refine h.history.step (does_of_runs does ?_ ?_)
        · rintro size rfl
          exact h.ok.sizes t size call
        · rintro p size rfl
          rw [h.live]
          exact h.ok.frees t p size call
      · rw [live_append done, h.live]

/-- A history of `SlabSys` is a run of it. -/
theorem reach_of_history {l : List ((Fin cpuNum × HeapCall) × Option ℕ)}
    (h : SerialRun SlabSys.Does (SlabSys.init cacheNode slabNode) l z) :
    Reach SlabSys.step SlabSys.Legal (SlabSys.init cacheNode slabNode) z := by
  refine h.invariant (P := fun _ z => Reach _ _ _ z) .init ?_
  rintro l z ⟨cpu, i⟩ r z' hz hdoes
  cases i with
  | kalloc size =>
      obtain ⟨page, p, -, -, hlegal, hs⟩ := hdoes
      exact hz.step hlegal hs
  | kfree p size => exact hz.step hdoes.2.1 hdoes.2.2

end SlabSpin

/-- **`kalloc` and `kfree` are atomic.**  However the accesses of the CPUs are interleaved, the calls
that have returned, in the order of their releases and with their results, are a run of the
allocator that runs one call at a time, and where `mem_lock` is free the nodes are as after that
run.  The lock is taken exactly while a CPU is inside, and no two are. -/
theorem kalloc_atomic {cacheNode : ℕ → CacheNode} {slabNode : ℕ → SlabNode} {s : SlabSpin}
    (h : Reach SlabSpin.step SlabSpin.Promised (SlabSpin.init cacheNode slabNode) s) :
    (∃ z, SerialRun SlabSys.Does (SlabSys.init cacheNode slabNode) s.done z ∧
      Reach SlabSys.step SlabSys.Legal (SlabSys.init cacheNode slabNode) z ∧ z.live = s.live ∧
      (s.lock.locked = false → s.data = z.heap)) ∧
    (s.lock.locked = true ↔ ∃ t i p, s.pc t = .inside i p) ∧
    ∀ t t' i i' p p', s.pc t = .inside i p → s.pc t' = .inside i' p' → t = t' := by
  have hA : ∃ z, SlabSpin.Atomic cacheNode slabNode s z :=
    h.invariant (P := fun s => ∃ z, SlabSpin.Atomic cacheNode slabNode s z)
      ⟨_, SlabSpin.atomic_init⟩ fun _ _ _ hz hok hs => hz.choose_spec.step hok hs
  obtain ⟨z, hz⟩ := hA
  refine ⟨⟨z, hz.history, SlabSpin.reach_of_history hz.history, hz.live, hz.guards.data_of_free⟩,
    hz.guards.locked_iff, ?_⟩
  intro t t' i i' p p' hpc hpc'
  exact hz.guards.mutex hpc hpc'

namespace SlabSpin

def promisedTest (s : SlabSpin) : SpinAct (Fin cpuNum) HeapCall ℕ → Bool
  | .call _ (.kalloc size) => 1 ≤ size ∧ size < 2048
  | .call _ (.kfree p size) =>
      s.live.contains (p, size) && decide (∀ t, s.calls t ≠ some (.kfree p size))
  | .next _ _ => true

theorem promised_of_test (s : SlabSpin) (a : SpinAct (Fin cpuNum) HeapCall ℕ)
    (h : s.promisedTest a = true) : s.Promised a := by
  cases a with
  | next _ _ => trivial
  | call t i =>
      cases i with
      | kalloc size =>
          rw [promisedTest, decide_eq_true_eq] at h
          exact h
      | kfree p size =>
          rw [promisedTest, Bool.and_eq_true, List.contains_iff_mem, decide_eq_true_eq] at h
          exact h

theorem zero_lt_cpuNum : 0 < cpuNum := by decide

theorem one_lt_cpuNum : 1 < cpuNum := by decide

/-- CPU 0 allocates 8 bytes.  CPU 1 finds the lock clear too but loses the test-and-set, and tries
again while CPU 0 is inside; then it allocates 8 bytes as well and frees the object of CPU 0. -/
def twoCpus : List (SpinAct (Fin cpuNum) HeapCall ℕ) :=
  let cpu0 : Fin cpuNum := ⟨0, zero_lt_cpuNum⟩
  let cpu1 : Fin cpuNum := ⟨1, one_lt_cpuNum⟩
  [.call cpu0 (.kalloc 8), .call cpu1 (.kalloc 8), .next cpu1 0, .next cpu0 0, .next cpu0 0,
    .next cpu1 0] ++
  (List.replicate 11 [.next cpu0 4096, .next cpu1 0]).flatten ++ List.replicate 7 (.next cpu1 0) ++
  [.call cpu1 (.kfree 5344 8)] ++ List.replicate 7 (.next cpu1 0)

end SlabSpin

theorem kalloc_atomic_two : ∃ s : SlabSpin, s.live = [(5352, 8)] ∧ s.done.length = 3 ∧
    ∃ z, SerialRun SlabSys.Does (SlabSys.init (fun _ => initCacheNode 0 0) fun _ => initSlabNode 0)
      s.done z ∧ z.live = s.live := by
  have hrun : (runs (fun s a => if SlabSpin.promisedTest s a then s.step a else none)
      (SlabSpin.init (fun _ => initCacheNode 0 0) fun _ => initSlabNode 0) SlabSpin.twoCpus).map
      (fun s => (s.live, s.done.length)) = some ([(5352, 8)], 3) := by decide +kernel
  obtain ⟨s, hs, hres⟩ := Option.map_eq_some_iff.mp hrun
  obtain ⟨hlive, hdone⟩ := Prod.mk.inj hres
  obtain ⟨⟨z, hser, -, hz, -⟩, -⟩ :=
    kalloc_atomic (.of_tested .init SlabSpin.promised_of_test _ hs)
  exact ⟨s, hlive, hdone, z, hser, hz⟩

end OsLab
