import OsLab.Fs.InodeProg
import OsLab.Fs.Ownership
import OsLab.Fs.PlainMap

/-!
# The calls keep to the contract of the cache

What `fs/cache.c` asks of its clients: they keep out of the log, a block that was changed is
synced before it is released, and inside an operation every `cache_sync` names it.  On a sound
image the programs of `OsLab.Fs.InodeProg` do so: they acquire bitmap blocks, inode blocks and
blocks that a bit says are in use, each of which is outside the log.

## Main definitions

* `Hand`, `clientContract` — what a program holds, and what the cache asks of it.
* `Tidy` — the program keeps the contract and ends without a change that is not synced.
* `SuperBlock.LogApart` — the log shares no block with files.
* `tidy_inodeCall` — every call of the inode tree is tidy.
-/

namespace OsLab

/-- The blocks a program holds, the contents with what it changed, and the blocks among those
that it has not synced since. -/
structure Hand where
  held : List ℕ
  disk : Disk
  unsynced : Set ℕ

/-- **What the block cache asks of a client** in an operation. -/
def clientContract (sb : SuperBlock) : Contract CacheCall CacheCall.Res Hand where
  pre g
    | .acquire b => sb.Client b
    | .store _ _ => True
    | .sync ctx _ => ctx = true
    | .release b => b ∉ g.unsynced
  post g c r g' :=
    CacheCall.alone (g.held, g.disk) c = some (r, g'.held, g'.disk) ∧
      g'.unsynced = match c with
        | .store b _ => insert b g.unsynced
        | .sync _ b => g.unsynced \ {b}
        | _ => g.unsynced

/-- From here the program keeps the contract, and leaves every change synced and `Q`. -/
def Tidy {α : Type} (sb : SuperBlock) (H : List ℕ) (m : Disk) (p : CacheProg α)
    (Q : α → List ℕ → Disk → Prop) : Prop :=
  p.Meets (clientContract sb) (fun a g => g.unsynced = ∅ ∧ Q a g.held g.disk) ⟨H, m, ∅⟩

/-- What holds of every result. -/
def anyResult {α : Type} : α → List ℕ → Disk → Prop := fun _ _ _ => True

/-- No block of the log is a bitmap block or one that can be in use. -/
structure SuperBlock.LogApart (sb : SuperBlock) (K : Set ℕ) : Prop extends sb.Layout K where
  bitmap : ∀ b, b < sb.numBlocks → sb.Client (sb.bblock b)
  data : ∀ b, b < sb.numBlocks → b ∉ K → sb.Client b

section Rules

open CacheProg

variable {sb : SuperBlock} {α β : Type} {H : List ℕ} {m : Disk} {b : ℕ} {d : Sector}
  {Q : α → List ℕ → Disk → Prop} {R : β → List ℕ → Disk → Prop}

theorem Tidy.ret {a : α} (h : Q a H m) : Tidy sb H m (.ret a) Q := ⟨rfl, h⟩

theorem Tidy.fail : Tidy sb H m (.fail : CacheProg α) Q := trivial

/-- The rule of composition. -/
theorem Tidy.bind {p : CacheProg α} {f : α → CacheProg β} (h : Tidy sb H m p Q)
    (hf : ∀ a H' m', Q a H' m' → Tidy sb H' m' (f a) R) : Tidy sb H m (p.bind f) R := by
  refine Prog.Meets.bind h ?_
  intro a g hg
  obtain ⟨H', m', U⟩ := g
  obtain ⟨hU, hQ⟩ := hg
  obtain rfl : U = ∅ := hU
  exact hf a H' m' hQ

/-- A tidy program ends as it does alone. -/
theorem Tidy.exec {p : CacheProg α} (h : Tidy sb H m p Q) : Tidy sb H m p fun a H' m' =>
    Q a H' m' ∧ p.exec CacheCall.alone (H, m) = some (a, H', m') := by
  have hpost : ∀ g c r g', (clientContract sb).post g c r g' →
      CacheCall.alone (g.held, g.disk) c = some (r, g'.held, g'.disk) := fun _ _ _ _ h => h.1
  have hexec := Prog.Meets.and_exec hpost h
  exact hexec.mono fun a g hg => ⟨hg.1.1, hg.1.2, hg.2⟩

/-- Composition, where the second program starts from what the first does alone. -/
theorem Tidy.bind_exec {p : CacheProg α} {f : α → CacheProg β} (h : Tidy sb H m p fun _ _ _ => True)
    (hf : ∀ a H' m', p.exec CacheCall.alone (H, m) = some (a, H', m') → Tidy sb H' m' (f a) R) :
    Tidy sb H m (p.bind f) R :=
  h.exec.bind fun a H' m' ha => hf a H' m' ha.2

theorem Tidy.acquire {f : Sector → CacheProg α} (hb : sb.Client b)
    (h : b ∉ H → Tidy sb (b :: H) m (f (m b)) Q) : Tidy sb H m ((CacheProg.acquire b).bind f) Q := by
  refine ⟨hb, ?_⟩
  intro r g hpost
  obtain ⟨H', m', U⟩ := g
  obtain ⟨halone, hU⟩ := hpost
  obtain rfl : U = ∅ := hU
  simp only [CacheCall.alone] at halone
  split_ifs at halone with hmem
  cases halone
  exact h hmem

theorem Tidy.release {f : Unit → CacheProg α} (h : Tidy sb H m (f ()) Q) :
    Tidy sb (b :: H) m ((CacheProg.release b).bind f) Q := by
  refine ⟨Set.notMem_empty b, ?_⟩
  intro r g hpost
  obtain ⟨H', m', U⟩ := g
  obtain ⟨halone, hU⟩ := hpost
  obtain rfl : U = ∅ := hU
  simp only [CacheCall.alone, List.erase_cons_head] at halone
  cases halone
  exact h

/-- A change of a block is synced, and then the block is released. -/
theorem Tidy.update {f : Unit → CacheProg α} (h : Tidy sb H (Function.update m b d) (f ()) Q) :
    Tidy sb (b :: H) m ((store b d).bind fun _ =>
      (sync true b).bind fun _ => (CacheProg.release b).bind f) Q := by
  refine ⟨trivial, ?_⟩
  intro r g₁ hpost₁
  obtain ⟨H₁, m₁, U₁⟩ := g₁
  obtain ⟨halone₁, hU₁⟩ := hpost₁
  cases halone₁
  refine ⟨rfl, ?_⟩
  intro r g₂ hpost₂
  obtain ⟨H₂, m₂, U₂⟩ := g₂
  obtain ⟨halone₂, hU₂⟩ := hpost₂
  cases halone₂
  have hU : U₂ = ∅ := by
    refine hU₂.trans ?_
    dsimp only at hU₁ ⊢
    rw [hU₁, insert_empty_eq, Set.sdiff_self]
  subst hU
  exact Tidy.release h

end Rules

namespace CacheProg

/-! ## Allocation -/

section Alloc

variable {sb : SuperBlock} {K U : Set ℕ} {H : List ℕ} {m : Disk} {b n : ℕ}

theorem tidy_bzero (hb : sb.Client b) : Tidy sb H m (bzero true b) anyResult := by
  rw [bzero]
  refine Tidy.acquire hb fun _ => ?_
  exact Tidy.update (f := Prog.ret) (Tidy.ret trivial)

/-- A clear bit is that of a block outside the log. -/
theorem client_of_clear (hL : sb.LogApart K) (hE : sb.Exact K n U m) (hb : b < sb.numBlocks)
    (hclear : sb.used m b = false) : sb.Client b := by
  refine hL.data b hb fun hK => ?_
  have := (hE.bits b hb).mpr (Or.inr hK)
  rw [hclear] at this
  cases this

theorem tidy_cacheAllocLoop (hL : sb.LogApart K) (hE : sb.Exact K n U m) (fuel i : ℕ) :
    Tidy sb H m (cacheAllocLoop sb true fuel (i * bitPerBlock)) anyResult := by
  induction fuel generalizing i with
  | zero => exact Tidy.fail
  | succ fuel ih =>
      rw [cacheAllocLoop]
      split_ifs with hlt
      · refine Tidy.acquire (hL.bitmap _ hlt) fun _ => ?_
        cases hfree : freeBit sb (m (sb.bblock (i * bitPerBlock))) (i * bitPerBlock) with
        | none =>
            refine Tidy.release ?_
            rw [← Nat.succ_mul]
            exact ih (i + 1)
        | some bi =>
            obtain ⟨hbi, hlt', hclear⟩ := freeBit_some hfree
            have hblock : sb.bblock (i * bitPerBlock + bi) = sb.bblock (i * bitPerBlock) := by
              rw [SuperBlock.bblock, SuperBlock.bblock, bitPerBlock_eq] at *
              omega
            have hmod : (i * bitPerBlock + bi) % bitPerBlock = bi := by
              rw [bitPerBlock_eq] at *
              omega
            have hclient : sb.Client (i * bitPerBlock + bi) := by
              refine client_of_clear hL hE hlt' ?_
              rw [SuperBlock.used, hblock, hmod]
              exact hclear
            refine Tidy.update ?_
            exact (tidy_bzero hclient).bind fun _ _ _ _ => Tidy.ret trivial
      · exact Tidy.fail

theorem tidy_cacheAlloc (hL : sb.LogApart K) (hE : sb.Exact K n U m) :
    Tidy sb H m (cacheAlloc sb true) anyResult := by
  rw [cacheAlloc, ← Nat.zero_mul bitPerBlock]
  exact tidy_cacheAllocLoop hL hE _ 0

theorem tidy_cacheFree (hL : sb.LogApart K) (hb : b < sb.numBlocks) :
    Tidy sb H m (cacheFree sb true b) anyResult := by
  rw [cacheFree]
  refine Tidy.acquire (hL.bitmap b hb) fun _ => ?_
  split_ifs
  · exact Tidy.update (f := Prog.ret) (Tidy.ret trivial)
  · exact Tidy.fail

theorem tidy_freeAll (hL : sb.LogApart K) {l : List ℕ} (hl : ∀ b ∈ l, b ≠ 0 → b < sb.numBlocks) :
    Tidy sb H m (freeAll sb true l) anyResult := by
  induction l generalizing H m with
  | nil => exact Tidy.ret trivial
  | cons b l ih =>
      have hrest : ∀ b ∈ l, b ≠ 0 → b < sb.numBlocks :=
        fun b hb => hl b (List.mem_cons_of_mem _ hb)
      rw [freeAll]
      split_ifs with h0
      · exact ih hrest
      · exact (tidy_cacheFree hL (hl b List.mem_cons_self h0)).bind fun _ _ _ _ => ih hrest

end Alloc

/-! ## Files -/

/-- The blocks of the entry are apart from the blocks `V` of the others, and the bits are those of
all of them. -/
structure Ready (sb : SuperBlock) (K V : Set ℕ) (m : Disk) (e : InodeEntry) : Prop where
  apart : Apart V m e
  exact : sb.Exact K 0 (V ∪ blocks m e) m

section Files

variable {sb : SuperBlock} {K V : Set ℕ} {H : List ℕ} {m : Disk} {e : InodeEntry} {b k no : ℕ}

/-- A block in use is outside the log. -/
theorem client_of_exact {U : Set ℕ} {n : ℕ} (hL : sb.LogApart K) (hE : sb.Exact K n U m)
    (hb : b ∈ U) : sb.Client b :=
  hL.data b (hE.lt b hb) (hE.off b hb)

theorem Ready.client (hL : sb.LogApart K) (hR : Ready sb K V m e) (hb : b ∈ blocks m e) :
    sb.Client b :=
  client_of_exact hL hR.exact (Or.inr hb)

theorem client_inode (hL : sb.LogApart K) (hno : no ≤ sb.numInodes) :
    sb.Client (sb.toBlockNo no) := by
  obtain ⟨hlt, hK⟩ := hL.area _ ⟨no, hno, rfl⟩
  exact hL.data _ hlt hK

theorem tidy_inodeSync {ctx valid doWrite : Bool} (hL : sb.LogApart K) (hno : no ≤ sb.numInodes)
    (hctx : ctx = true ∨ (valid && doWrite) = false) :
    Tidy sb H m (inodeSync sb ctx no valid e doWrite) anyResult := by
  rw [inodeSync]
  refine Tidy.acquire (client_inode hL hno) fun _ => ?_
  split_ifs with hwrite
  · obtain rfl : ctx = true := by
      refine hctx.resolve_right fun h => ?_
      rw [h] at hwrite
      cases hwrite
    exact Tidy.update (Tidy.ret trivial)
  · exact Tidy.release (Tidy.ret trivial)
  · exact Tidy.release (Tidy.ret trivial)

/-- Where `inode_map` goes on after the indirect block was found or allocated. -/
theorem mapIndirect_client {e' : InodeEntry} {m' : Disk} (hL : sb.LogApart K)
    (hR : Ready sb K V m e)
    (h : OsLab.mapIndirect (bcacheAlloc sb) m e = some (b, e', m')) :
    sb.Client b ∧ ∃ U, sb.Exact K 0 U m' := by
  rw [OsLab.mapIndirect] at h
  split_ifs at h with h0
  · obtain ⟨⟨b₁, m₁⟩, halloc, h⟩ := Option.bind_eq_some_iff.mp h
    cases h
    obtain ⟨-, hK, hlt, -, -, hE⟩ := hR.exact.alloc hL.reserved halloc
    exact ⟨hL.data b hlt hK, _, hE⟩
  · cases h
    exact ⟨hR.client hL (indirect_mem_blocks h0), _, hR.exact⟩

theorem tidy_inodeMap (hL : sb.LogApart K) (hR : Ready sb K V m e) :
    Tidy sb H m (inodeMap sb true e k) anyResult := by
  rw [inodeMap]
  split_ifs
  · exact (tidy_cacheAlloc hL hR.exact).bind fun _ _ _ _ => Tidy.ret trivial
  · exact Tidy.ret trivial
  · have hind : Tidy sb H m (mapIndirect sb true e) anyResult := by
      rw [mapIndirect]
      split_ifs
      · exact (tidy_cacheAlloc hL hR.exact).bind fun _ _ _ _ => Tidy.ret trivial
      · exact Tidy.ret trivial
    refine hind.bind_exec ?_
    intro r H₁ m₁ hr
    obtain ⟨hclient, U, hE⟩ := mapIndirect_client hL hR (exec_mapIndirect hr).2
    have htable : Tidy sb H₁ m₁ (mapTable sb true r.1 (k - inodeNumDirect)) anyResult := by
      rw [mapTable]
      refine Tidy.acquire hclient fun _ => ?_
      split_ifs
      · refine (tidy_cacheAlloc hL hE).bind_exec ?_
        intro b H₂ m₂ hb
        obtain rfl : H₂ = r.1 :: H₁ := (exec_cacheAlloc hb).1
        exact Tidy.update (Tidy.ret trivial)
      · exact Tidy.release (Tidy.ret trivial)
    exact htable.bind fun _ _ _ _ => Tidy.ret trivial
  · exact Tidy.fail

/-- **The loop of `inode_write`.** -/
theorem tidy_writeLoop (hL : sb.LogApart K) (hR : Ready sb K V m e) (fuel offset : ℕ)
    (src : List UInt8) : Tidy sb H m (writeLoop sb true fuel e offset src) anyResult := by
  induction fuel generalizing H m e offset src with
  | zero =>
      rw [writeLoop]
      split_ifs
      · exact Tidy.ret trivial
      · exact Tidy.fail
  | succ fuel ih =>
      rw [writeLoop]
      split_ifs
      · exact Tidy.ret trivial
      · refine (tidy_inodeMap hL hR).bind_exec ?_
        rintro ⟨b, modified, e₁⟩ H₁ m₁ hmap
        obtain ⟨hstep, hE⟩ := inodeMap_spec (cacheAlloc_lawful hL.reserved) hR.apart hR.exact
          (exec_inodeMap hmap).2
        have h0 : blockAddr m₁ e₁ (offset / blockSize) ≠ 0 := by
          rw [hstep.addr]
          exact hstep.ne_zero
        have haddr : blockAddr m₁ e₁ (offset / blockSize) = b := hstep.addr
        subst haddr
        refine Tidy.acquire (client_of_exact hL hE (Or.inr (blockAddr_mem_blocks h0))) fun _ => ?_
        refine Tidy.update (ih ?_ _ _)
        refine ⟨hstep.apart.store h0 _, ?_⟩
        rw [blocks_store hstep.apart h0]
        exact (hE.mono (Nat.zero_le _)).sync hL.reserved (Or.inr (blockAddr_mem_blocks h0))

theorem tidy_inodeWrite {offset : ℕ} {src : List UInt8} (hL : sb.LogApart K)
    (hR : Ready sb K V m e) (hno : no ≤ sb.numInodes) :
    Tidy sb H m (inodeWrite sb true no e offset src) anyResult := by
  simp only [inodeWrite]
  split_ifs
  · refine (tidy_writeLoop hL hR _ _ _).bind fun e₁ _ _ _ => ?_
    split_ifs
    · exact (tidy_inodeSync hL hno (Or.inl rfl)).bind fun _ _ _ _ => Tidy.ret trivial
    · exact Tidy.ret trivial
  · exact Tidy.fail

end Files

/-! ## Reading -/

section Read

variable {sb : SuperBlock} {K V : Set ℕ} {H : List ℕ} {m : Disk} {e : InodeEntry}
  (hL : sb.LogApart K) (hR : Ready sb K V m e)

include hL hR

/-- A block that is mapped is found without an allocation. -/
theorem tidy_inodeMap_mapped {ctx : Bool} {k : ℕ} (h0 : blockAddr m e k ≠ 0) :
    Tidy sb H m (inodeMap sb ctx e k) anyResult := by
  rw [inodeMap]
  by_cases hk : k < inodeNumDirect
  · rw [blockAddr, if_pos hk] at h0
    rw [if_pos hk, if_neg h0]
    exact Tidy.ret trivial
  · rw [blockAddr, if_neg hk] at h0
    have hind : e.indirect ≠ 0 := by
      intro hind
      rw [if_pos hind] at h0
      exact h0 rfl
    rw [if_neg hind, indirectAddr] at h0
    rw [if_neg hk]
    split_ifs
    · rw [mapIndirect, if_neg hind]
      have htable : Tidy sb H m (mapTable sb ctx e.indirect.toNat (k - inodeNumDirect))
          anyResult := by
        rw [mapTable]
        refine Tidy.acquire (hR.client hL (indirect_mem_blocks hind)) fun _ => ?_
        rw [if_neg h0]
        exact Tidy.release (Tidy.ret trivial)
      exact htable.bind fun _ _ _ _ => Tidy.ret trivial
    · exact Tidy.fail

variable (hD : Dense m e)

include hD

theorem tidy_readLoop {fuel offset count : ℕ} (hle : offset + count ≤ e.numBytes.toNat) :
    Tidy sb H m (readLoop sb fuel e offset count)
      fun r H' m' => r.2 = e ∧ H' = H ∧ m' = m := by
  induction fuel generalizing offset count with
  | zero =>
      rw [readLoop]
      split_ifs
      · exact Tidy.ret ⟨rfl, rfl, rfl⟩
      · exact Tidy.fail
  | succ fuel ih =>
      rw [readLoop]
      split_ifs with h0
      · exact Tidy.ret ⟨rfl, rfl, rfl⟩
      · have hmapped : blockAddr m e (offset / blockSize) ≠ 0 := hD.blockAddr_ne_zero (by omega)
        refine (tidy_inodeMap_mapped hL hR hmapped).bind_exec ?_
        rintro ⟨b, modified, e₁⟩ H₁ m₁ hmap
        obtain ⟨hH, hfun⟩ := exec_inodeMap hmap
        obtain rfl : H₁ = H := hH
        rw [inodeMap_of_mapped hmapped] at hfun
        simp only [Option.some.injEq, Prod.mk.injEq] at hfun
        obtain ⟨rfl, -, rfl, rfl⟩ := hfun
        refine Tidy.acquire (hR.client hL (blockAddr_mem_blocks hmapped)) fun _ => ?_
        refine Tidy.release ?_
        exact (ih (by omega)).bind fun _ _ _ hrest => Tidy.ret hrest

theorem tidy_inodeRead {offset count : ℕ} (hcount : count < 2 ^ 64) :
    Tidy sb H m (inodeRead sb e offset count)
      fun r H' m' => r.2.2 = e ∧ H' = H ∧ m' = m := by
  have hsize := e.numBytes.toNat_lt
  simp only [inodeRead]
  generalize hc : (if (count + offset) % 2 ^ 64 > e.numBytes.toNat then
    (e.numBytes.toNat + 2 ^ 64 - offset) % 2 ^ 64 else count) = count'
  have hcount' : count' < 2 ^ 64 := by
    rw [← hc]
    split_ifs
    · exact Nat.mod_lt _ (by decide)
    · exact hcount
  split_ifs with hok
  · exact (tidy_readLoop hL hR hD (by omega)).bind fun _ _ _ hread => Tidy.ret hread
  · exact Tidy.fail

theorem tidy_readEntry {off : ℕ} : Tidy sb H m (readEntry sb e off)
    fun r H' m' => r.2 = e ∧ H' = H ∧ m' = m := by
  refine (tidy_inodeRead hL hR hD (by decide)).bind ?_
  rintro ⟨r, dest, e'⟩ H' m' hread
  dsimp only
  split_ifs
  · exact Tidy.fail
  · exact Tidy.ret hread

theorem tidy_lookupLoop {name : List UInt8} {fuel off : ℕ} :
    Tidy sb H m (lookupLoop sb name fuel e off)
      fun r H' m' => r.2 = e ∧ H' = H ∧ m' = m := by
  induction fuel generalizing off with
  | zero => exact Tidy.fail
  | succ fuel ih =>
      rw [lookupLoop]
      split_ifs
      · refine (tidy_readEntry hL hR hD).bind ?_
        rintro ⟨de, e'⟩ H' m' ⟨he, rfl, rfl⟩
        obtain rfl : e' = e := he
        dsimp only
        split_ifs
        · exact ih
        · exact Tidy.ret ⟨rfl, rfl, rfl⟩
        · exact ih
      · exact Tidy.ret ⟨rfl, rfl, rfl⟩

theorem tidy_inodeLookup {name : List UInt8} : Tidy sb H m (inodeLookup sb e name)
    fun r H' m' => r.2.2 = e ∧ H' = H ∧ m' = m := by
  rw [inodeLookup]
  split_ifs
  · refine (tidy_lookupLoop hL hR hD).bind ?_
    rintro ⟨_ | ⟨inum, off⟩, e'⟩ H' m' hlook
    · exact Tidy.ret hlook
    · exact Tidy.ret hlook
  · exact Tidy.fail

theorem tidy_freeLoop {fuel off : ℕ} : Tidy sb H m (freeLoop sb fuel e off)
    fun r H' m' => r.2 = e ∧ H' = H ∧ m' = m := by
  induction fuel generalizing off with
  | zero => exact Tidy.fail
  | succ fuel ih =>
      rw [freeLoop]
      split_ifs
      · refine (tidy_readEntry hL hR hD).bind ?_
        rintro ⟨de, e'⟩ H' m' ⟨he, rfl, rfl⟩
        obtain rfl : e' = e := he
        dsimp only
        split_ifs
        · exact Tidy.ret ⟨rfl, rfl, rfl⟩
        · exact ih
      · exact Tidy.ret ⟨rfl, rfl, rfl⟩

theorem tidy_inodeInsert {no inodeNo : ℕ} {name : List UInt8} (hno : no ≤ sb.numInodes) :
    Tidy sb H m (inodeInsert sb true no e name inodeNo) anyResult := by
  rw [inodeInsert]
  split_ifs
  · refine (tidy_inodeLookup hL hR hD).bind ?_
    rintro ⟨inum, index, e'⟩ H' m' ⟨he, rfl, rfl⟩
    obtain rfl : e' = e := he
    dsimp only
    split_ifs
    · exact Tidy.ret trivial
    · refine (tidy_freeLoop hL hR hD).bind ?_
      rintro ⟨off, e''⟩ H'' m'' ⟨he, rfl, rfl⟩
      obtain rfl : e'' = e' := he
      exact (tidy_inodeWrite hL hR hno).bind fun _ _ _ _ => Tidy.ret trivial
  · exact Tidy.fail

end Read

/-! ## Freeing -/

section Free

variable {sb : SuperBlock} {K V : Set ℕ} {H : List ℕ} {m m' : Disk} {e : InodeEntry} {no : ℕ}

theorem tidy_inodeRemove {index : ℕ} (hL : sb.LogApart K) (hR : Ready sb K V m e)
    (hno : no ≤ sb.numInodes) : Tidy sb H m (inodeRemove sb true no e index) anyResult := by
  rw [inodeRemove]
  split_ifs
  · exact (tidy_inodeWrite hL hR hno).bind fun _ _ _ _ => Tidy.ret trivial
  · exact Tidy.fail

/-- Freeing changes bitmap blocks only. -/
theorem freeAll_of_ne {l : List ℕ} {x : ℕ} (h : OsLab.freeAll (bcacheAlloc sb) m l = some m')
    (hx : ∀ b ∈ l, b ≠ 0 → x ≠ sb.bblock b) : m' x = m x := by
  induction l generalizing m with
  | nil =>
      cases h
      rfl
  | cons b l ih =>
      have hrest : ∀ b ∈ l, b ≠ 0 → x ≠ sb.bblock b :=
        fun b hb => hx b (List.mem_cons_of_mem _ hb)
      rw [OsLab.freeAll] at h
      split_ifs at h with h0
      · exact ih h hrest
      · obtain ⟨m₁, hfree, h⟩ := Option.bind_eq_some_iff.mp h
        rw [ih h hrest]
        simp only [bcacheAlloc, OsLab.cacheFree] at hfree
        split_ifs at hfree
        cases hfree
        exact Function.update_of_ne (hx b List.mem_cons_self h0) ..

/-- The blocks an inode uses are blocks of the device. -/
theorem Ready.lt (hR : Ready sb K V m e) {s : ℕ} (hs : s ≤ inodeMaxBlocks) (h0 : slot m e s ≠ 0) :
    slot m e s < sb.numBlocks :=
  hR.exact.lt _ (Or.inr (mem_blocks_of_slot hs h0))

theorem Ready.addr_lt (hR : Ready sb K V m e) : ∀ b ∈ (List.range inodeNumDirect).map e.addr,
    b ≠ 0 → b < sb.numBlocks := by
  intro b hb h0
  obtain ⟨i, hi, rfl⟩ := List.mem_map.mp hb
  have hi' := List.mem_range.mp hi
  have hlt : i < inodeMaxBlocks := lt_of_lt_of_le hi' (Nat.le_add_right _ _)
  have hslot : slot m e i = e.addr i := by
    rw [slot_of_lt hlt, blockAddr, if_pos hi']
  rw [← hslot] at h0 ⊢
  exact hR.lt hlt.le h0

theorem Ready.table_lt (hR : Ready sb K V m e) (hind : e.indirect ≠ 0) :
    ∀ b ∈ (List.range inodeNumIndirect).map (indirectAddr m e.indirect.toNat),
      b ≠ 0 → b < sb.numBlocks := by
  intro b hb h0
  obtain ⟨i, hi, rfl⟩ := List.mem_map.mp hb
  have hi' := List.mem_range.mp hi
  have hlt : inodeNumDirect + i < inodeMaxBlocks := Nat.add_lt_add_left hi' _
  have hslot : slot m e (inodeNumDirect + i) = indirectAddr m e.indirect.toNat i := by
    rw [slot_of_lt hlt, blockAddr, if_neg (by omega), if_neg hind, Nat.add_sub_cancel_left]
  rw [← hslot] at h0 ⊢
  exact hR.lt hlt.le h0

theorem tidy_clearBlocks (hL : sb.LogApart K) (hR : Ready sb K V m e) :
    Tidy sb H m (clearBlocks sb true e) anyResult := by
  rw [clearBlocks]
  refine (tidy_freeAll hL hR.addr_lt).bind_exec ?_
  intro u H₁ m₁ hdirect
  obtain ⟨-, hfree⟩ := exec_freeAll hdirect
  split_ifs with hind
  · exact Tidy.ret trivial
  · have hmem : e.indirect.toNat ∈ blocks m e := indirect_mem_blocks hind
    have hsame : m₁ e.indirect.toNat = m e.indirect.toNat := by
      refine freeAll_of_ne hfree fun b hb h0 => ?_
      exact (hR.exact.bblock_ne hL.reserved (Or.inr hmem) (hR.addr_lt b hb h0)).symm
    rw [clearIndirect]
    refine Tidy.acquire (hR.client hL hmem) fun _ => ?_
    refine (tidy_freeAll hL ?_).bind_exec ?_
    · rw [hsame]
      exact hR.table_lt hind
    · intro v H₂ m₂ htable
      obtain ⟨hH₂, -⟩ := exec_freeAll htable
      obtain rfl : H₂ = e.indirect.toNat :: H₁ := hH₂
      exact Tidy.release (tidy_cacheFree hL (hR.exact.lt _ (Or.inr hmem)))

theorem tidy_inodeClear (hL : sb.LogApart K) (hR : Ready sb K V m e) (hno : no ≤ sb.numInodes) :
    Tidy sb H m (inodeClear sb true no e) anyResult := by
  rw [inodeClear]
  refine (tidy_clearBlocks hL hR).bind fun _ _ _ _ => ?_
  exact (tidy_inodeSync hL hno (Or.inl rfl)).bind fun _ _ _ _ => Tidy.ret trivial

end Free

/-! ## Calls -/

section Calls

variable {sb : SuperBlock} {K : Set ℕ} {H : List ℕ} {m : Disk} {t : Inodes} {ip : Inode} {id : ℕ}

theorem tidy_inodeAllocLoop {type : UInt16} (hL : sb.LogApart K) (fuel no : ℕ) :
    Tidy sb H m (inodeAllocLoop sb true type fuel no) anyResult := by
  induction fuel generalizing no with
  | zero => exact Tidy.fail
  | succ fuel ih =>
      rw [inodeAllocLoop]
      split_ifs with hle
      · refine Tidy.acquire (client_inode hL hle) fun _ => ?_
        split_ifs
        · exact Tidy.update (Tidy.ret trivial)
        · exact Tidy.release (ih _)
      · exact Tidy.fail

theorem tidy_inodeAlloc {type : UInt16} (hL : sb.LogApart K) :
    Tidy sb H m (inodeAlloc sb true type) anyResult := by
  rw [inodeAlloc]
  split_ifs
  · exact Tidy.fail
  · exact tidy_inodeAllocLoop hL _ _

theorem tidy_inodeGet {no : ℕ} (hL : sb.LogApart K) :
    Tidy sb H m (inodeGet sb t no) anyResult := by
  rw [inodeGet]
  split_ifs with hno
  · split
    · exact Tidy.ret trivial
    · split
      all_goals
        refine (tidy_inodeSync hL hno.2.le (Or.inr rfl)).bind ?_
        rintro ⟨valid, e⟩ _ _ _
        exact Tidy.ret trivial
  · exact Tidy.fail

/-- What an inode in memory is on a sound image. -/
theorem ready_of_find (hI : InodeTree.Inv sb K (t.tree m)) (hip : t.find id = some ip) :
    Dense m ip.entry ∧ Ready sb K (sb.others m ip.inodeNo) m ip.entry ∧
      ip.inodeNo ≤ sb.numInodes := by
  obtain ⟨hmem, -, hpos⟩ := InodeTree.find_eq_some (s := t.tree m) hip
  obtain ⟨-, hno, he⟩ := hI.live ip hmem hpos
  obtain ⟨hD, hA, hE⟩ := hI.image.at hno
  rw [he]
  exact ⟨hD, ⟨hA, hE⟩, hno.2.1⟩

theorem tidy_inodePut (hL : sb.LogApart K) (hI : InodeTree.Inv sb K (t.tree m))
    (hip : t.find id = some ip) : Tidy sb H m (inodePut sb true t ip) anyResult := by
  obtain ⟨-, hR, hno⟩ := ready_of_find hI hip
  rw [inodePut]
  split_ifs
  · exact Tidy.fail
  · refine (tidy_inodeClear hL hR hno).bind fun _ _ _ _ => ?_
    exact (tidy_inodeSync hL hno (Or.inl rfl)).bind fun _ _ _ _ => Tidy.ret trivial
  · exact Tidy.ret trivial

theorem Tidy.referenced {α : Type} {f : Inode → CacheProg α} {Q : α → List ℕ → Disk → Prop}
    (h : ∀ ip, t.find id = some ip → Tidy sb H m (f ip) Q) : Tidy sb H m (referenced t id f) Q := by
  rw [CacheProg.referenced]
  split
  · rename_i ip hip
    exact h ip hip
  · exact Tidy.fail

/-- **A call keeps the contract of the cache** on a sound image. -/
theorem tidy_inodeCall {call : InodeCall} (hL : sb.LogApart K)
    (hI : InodeTree.Inv sb K (t.tree m)) (hlegal : InodeTree.Legal sb (t.tree m) call) :
    Tidy sb H m (inodeCall sb true t call) anyResult := by
  cases call with
  | alloc type => exact (tidy_inodeAlloc hL).bind fun _ _ _ _ => Tidy.ret trivial
  | get no => exact (tidy_inodeGet hL).bind fun _ _ _ _ => Tidy.ret trivial
  | share id => exact Tidy.referenced fun _ _ => Tidy.ret trivial
  | put id =>
      refine Tidy.referenced fun ip hip => ?_
      exact (tidy_inodePut hL hI hip).bind fun _ _ _ _ => Tidy.ret trivial
  | clear id =>
      refine Tidy.referenced fun ip hip => ?_
      obtain ⟨-, hR, hno⟩ := ready_of_find hI hip
      exact (tidy_inodeClear hL hR hno).bind fun _ _ _ _ => Tidy.ret trivial
  | read id offset count =>
      refine Tidy.referenced fun ip hip => ?_
      obtain ⟨hD, hR, -⟩ := ready_of_find hI hip
      exact (tidy_inodeRead hL hR hD hlegal).bind fun _ _ _ _ => Tidy.ret trivial
  | write id offset src =>
      refine Tidy.referenced fun ip hip => ?_
      obtain ⟨-, hR, hno⟩ := ready_of_find hI hip
      exact (tidy_inodeWrite hL hR hno).bind fun _ _ _ _ => Tidy.ret trivial
  | lookup id name =>
      refine Tidy.referenced fun ip hip => ?_
      obtain ⟨hD, hR, -⟩ := ready_of_find hI hip
      exact (tidy_inodeLookup hL hR hD).bind fun _ _ _ _ => Tidy.ret trivial
  | insert id name inodeNo =>
      refine Tidy.referenced fun ip hip => ?_
      obtain ⟨hD, hR, hno⟩ := ready_of_find hI hip
      exact (tidy_inodeInsert hL hR hD hno).bind fun _ _ _ _ => Tidy.ret trivial
  | remove id index =>
      refine Tidy.referenced fun ip hip => ?_
      obtain ⟨-, hR, hno⟩ := ready_of_find hI hip
      exact (tidy_inodeRemove hL hR hno).bind fun _ _ _ _ => Tidy.ret trivial
  | setLinks id n =>
      refine Tidy.referenced fun ip hip => ?_
      obtain ⟨-, -, hno⟩ := ready_of_find hI hip
      exact (tidy_inodeSync hL hno (Or.inl rfl)).bind fun _ _ _ _ => Tidy.ret trivial

end Calls

end CacheProg

end OsLab
