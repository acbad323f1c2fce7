import Mathlib.Logic.Function.Basic
import Mathlib.Data.List.Basic
import Mathlib.Data.Finset.Card
import OsLab.Lib.Run
import OsLab.Kernel.Mmu

/-!
# The slab allocator

`kalloc` and `kfree` of `kernel/mem.c`.  The nodes the allocator keeps in its pages are
read and written by address; the objects it hands out lie beside them.

A circular list of slabs is the list of its nodes, first node first.  The `entry` array
of an `Array_cache_t` is the list of its first `avail` entries, the last one first.

## Main definitions

* `CacheNode`, `SlabNode`, `Heap` — the nodes and the memory that holds them.
* `kalloc`, `kfree` — as in the source; `kalloc_page` is the page given to `kalloc`.
* `SlabSys` — any CPU allocates and frees in any order.
-/

namespace OsLab

/-- `CPU_NUM` -/
def cpuNum : ℕ := 4

/-- `AC_LIMIT` -/
def acLimit : ℕ := 10

/-- `COLOUR_OFF` -/
def colourOff : ℕ := 0

/-- `sizeof(SlabNode)`, `sizeof(CacheNode)` and `sizeof(int)` -/
def sizeofSlabNode : ℕ := 40
def sizeofCacheNode : ℕ := 440
def sizeofInt : ℕ := 4

structure CacheNode where
  num : ℕ
  objectSize : ℕ
  /-- the objects in `array_cache` of each CPU -/
  arrayCache : Fin cpuNum → List ℕ
  slabsPartial : List ℕ
  slabsFull : List ℕ
  slabsFree : List ℕ

structure SlabNode where
  colour : ℕ
  active : ℕ
  ownerCache : ℕ
  freelist : ℕ → ℕ

/-- The nodes at each address, `kmem_cache_array`, and the pages that `kalloc_page` has returned. -/
structure Heap where
  cacheNode : ℕ → CacheNode
  slabNode : ℕ → SlabNode
  kmemCacheArray : ℕ → ℕ
  pages : List ℕ

namespace Heap

def setSlab (h : Heap) (slab : ℕ) (sl : SlabNode) : Heap :=
  { h with slabNode := Function.update h.slabNode slab sl }

def setCache (h : Heap) (cache : ℕ) (cn : CacheNode) : Heap :=
  { h with cacheNode := Function.update h.cacheNode cache cn }

variable (h : Heap) (a : ℕ) (sl : SlabNode) (cn : CacheNode)

@[simp] theorem slabNode_setSlab_self : (h.setSlab a sl).slabNode a = sl := Function.update_self ..

@[simp] theorem cacheNode_setCache_self : (h.setCache a cn).cacheNode a = cn :=
  Function.update_self ..

@[simp] theorem setCache_cacheNode : h.setCache a (h.cacheNode a) = h := by
  rw [setCache, Function.update_eq_self]

variable {h a sl cn} {b : ℕ}

theorem slabNode_setSlab_of_ne (hb : b ≠ a) : (h.setSlab a sl).slabNode b = h.slabNode b :=
  Function.update_of_ne hb ..

theorem cacheNode_setCache_of_ne (hb : b ≠ a) : (h.setCache a cn).cacheNode b = h.cacheNode b :=
  Function.update_of_ne hb ..

end Heap

/-- `_detach_from_list` of a slab, from whichever list it is in. -/
def CacheNode.detach (cn : CacheNode) (slab : ℕ) : CacheNode :=
  { cn with
    slabsPartial := cn.slabsPartial.filter (· ≠ slab)
    slabsFull := cn.slabsFull.filter (· ≠ slab)
    slabsFree := cn.slabsFree.filter (· ≠ slab) }

/-- `init_slab_node`, and the owner that is set after it. -/
def initSlabNode (owner : ℕ) : SlabNode := ⟨0, 0, owner, fun i => i⟩

/-- `init_cache_node` -/
def initCacheNode (size num : ℕ) : CacheNode := ⟨num, size, fun _ => [], [], [], []⟩

/-- `alloc_obj` -/
def allocObj (h : Heap) (slab size objNum : ℕ) : ℕ × Heap :=
  let sl := h.slabNode slab
  (slab + sizeofSlabNode + (sizeofInt * objNum / 8 + 1) * 8 + sl.colour +
      sl.freelist sl.active * size,
    h.setSlab slab { sl with active := sl.active + 1 })

/-- `get_obj_index` -/
def getObjIndex (sl : SlabNode) (slab size objNum objAddr : ℕ) : ℕ :=
  (objAddr - slab - (sizeofInt * objNum / 8 + 1) * 8 - sl.colour - sizeofSlabNode) / size

/-- The lines of `kalloc` that take an object from a partial slab; they are there three times. -/
def allocPartial (h : Heap) (cache slab size num : ℕ) : ℕ × Heap :=
  let (ret, h) := allocObj h slab size num
  let cn := h.cacheNode cache
  if num ≤ (h.slabNode slab).active then
    (ret, h.setCache cache { cn.detach slab with slabsFull := (cn.detach slab).slabsFull ++ [slab] })
  else (ret, h)

/-- The lines of `kalloc` that take an object from a free slab. -/
def allocFree (h : Heap) (cache slab size num : ℕ) : ℕ × Heap :=
  let (ret, h) := allocObj h slab size num
  let cn := (h.cacheNode cache).detach slab
  if num ≤ (h.slabNode slab).active then
    (ret, h.setCache cache { cn with slabsFull := cn.slabsFull ++ [slab] })
  else (ret, h.setCache cache { cn with slabsPartial := cn.slabsPartial ++ [slab] })

/-- A page from `kalloc_page` becomes a slab, the first one in the partial list. -/
def newSlab (h : Heap) (cache page : ℕ) : Heap :=
  let h := { h with pages := page :: h.pages }
  let h := h.setSlab page (initSlabNode cache)
  let cn := h.cacheNode cache
  h.setCache cache { cn with slabsPartial := page :: cn.slabsPartial }

/-- `num` in `kalloc` -/
def objNum (size : ℕ) : ℕ :=
  (pageSize - 3 * colourOff - sizeofSlabNode - 8 - sizeofCacheNode) / (size + sizeofInt)

/-- The address of the `CacheNode` in the first slab's page. -/
def cacheAddr (page : ℕ) : ℕ := pageBase page + pageSize - sizeofCacheNode

/-- `kalloc` on a CPU; `page` is what `kalloc_page` returns if it is called. -/
def kalloc (h : Heap) (cpu : Fin cpuNum) (size page : ℕ) : ℕ × Heap :=
  let cache := h.kmemCacheArray size
  if cache = 0 then
    let cache := cacheAddr page
    let num := objNum size
    let h := { h with kmemCacheArray := Function.update h.kmemCacheArray size cache }
    let h := h.setCache cache (initCacheNode size num)
    allocPartial (newSlab h cache page) cache page size num
  else
    let cn := h.cacheNode cache
    match cn.arrayCache cpu with
    | objp :: rest =>
        (objp, h.setCache cache { cn with arrayCache := Function.update cn.arrayCache cpu rest })
    | [] =>
        match cn.slabsPartial with
        | slab :: _ => allocPartial h cache slab size cn.num
        | [] =>
            match cn.slabsFree with
            | slab :: _ => allocFree h cache slab size cn.num
            | [] => allocPartial (newSlab h cache page) cache page size cn.num

/-- `cache_flusharray` with `entry[--ac->avail]` and the rest of the entries. -/
def cacheFlusharray (h : Heap) (cpu : Fin cpuNum) (cache obj : ℕ) (rest : List ℕ) : Heap :=
  let cn := h.cacheNode cache
  let slab := pageBase obj
  let sl := h.slabNode slab
  let sl := { sl with
    active := sl.active - 1
    freelist := Function.update sl.freelist (sl.active - 1)
      (getObjIndex sl slab cn.objectSize cn.num obj) }
  let h := h.setSlab slab sl
  let cn := { cn.detach slab with arrayCache := Function.update cn.arrayCache cpu rest }
  if sl.active = cn.num - 1 then
    h.setCache cache { cn with slabsPartial := slab :: cn.slabsPartial }
  else if sl.active = 0 then
    h.setCache cache { cn with slabsFree := slab :: cn.slabsFree }
  else h.setCache cache cn

/-- `kfree` on a CPU.  After `ac->avail++` the test `ac->avail == 0` is never true, so no page is
given back. -/
def kfree (h : Heap) (cpu : Fin cpuNum) (p : ℕ) : Heap :=
  let cache := (h.slabNode (pageBase p)).ownerCache
  let h := match (h.cacheNode cache).arrayCache cpu with
    | obj :: rest =>
        if (obj :: rest).length = acLimit then cacheFlusharray h cpu cache obj rest else h
    | [] => h
  let cn := h.cacheNode cache
  h.setCache cache { cn with
    arrayCache := Function.update cn.arrayCache cpu (p :: cn.arrayCache cpu) }

/-! ## Runs -/

/-- The memory, and the objects that were returned and not freed, with their sizes. -/
structure SlabSys where
  heap : Heap
  live : List (ℕ × ℕ)

inductive SlabCall
  | kalloc (cpu : Fin cpuNum) (size page : ℕ)
  | kfree (cpu : Fin cpuNum) (p size : ℕ)

namespace SlabSys

/-- One call; callers hold `mem_lock`. -/
def step (s : SlabSys) : SlabCall → Option SlabSys
  | .kalloc cpu size page =>
      let (p, h) := OsLab.kalloc s.heap cpu size page
      some ⟨h, (p, size) :: s.live⟩
  | .kfree cpu p size => some ⟨OsLab.kfree s.heap cpu p, s.live.erase (p, size)⟩

/-- What callers promise: the sizes, that only live objects are freed, and that `kalloc_page` returns
a page that is aligned and not in use. -/
def Legal (s : SlabSys) : SlabCall → Prop
  | .kalloc _ size page => 1 ≤ size ∧ size < 2048 ∧ page % pageSize = 0 ∧ page ∉ s.heap.pages
  | .kfree _ p size => (p, size) ∈ s.live

/-- No cache yet. -/
def init (cacheNode : ℕ → CacheNode) (slabNode : ℕ → SlabNode) : SlabSys :=
  ⟨⟨cacheNode, slabNode, fun _ => 0, []⟩, []⟩

end SlabSys

end OsLab
