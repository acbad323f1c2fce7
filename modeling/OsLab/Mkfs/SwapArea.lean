import OsLab.Mkfs.Format
import OsLab.Fs.Swap

/-!
# Files and swap on an image of mkfs

mkfs gives the file system all `FSSIZE` blocks, of which the kernel uses the last 200 for
swapping.  `cache_alloc` takes the lowest free block, so files stay out of the swap area
as long as there is a free block below it, and no longer.

## Main definitions

* `files_and_swap_apart` — runs in which there always is.
* `files_reach_swap` — every image is filled up to the swap area.
-/

namespace OsLab.Mkfs

variable {fs : List InputFile} {s : State}

/-- **File blocks and swap blocks do not collide** in a run in which every `cache_alloc` finds a
free block below the swap area, whatever image of this layout the run starts from. -/
theorem files_and_swap_apart {m : Disk} {t : TwoAllocs}
    (hr : Reach (TwoAllocs.step sb) (fun t call => TwoAllocs.Legal sb t call ∧
      TwoAllocs.RoomBelow sb t call) (TwoAllocs.init m) t) : TwoAllocs.Separate t := by
  have hsides : TwoAllocs.Sides t := hr.invariant (TwoAllocs.Sides.init m)
    fun _ _ _ h hok hs => h.step hok.2 hs
  exact hsides.separate

/-! ## Filling the disk -/

/-- The bits of the first `n` blocks are set. -/
def FirstUsed (m : Disk) (n : ℕ) : Prop := ∀ b, b < fsSize → (sb.used m b = true ↔ b < n)

theorem FirstUsed.alloc {m : Disk} {n : ℕ} (h : FirstUsed m n) (hlo : nmeta ≤ n)
    (hhi : n < fsSize) : ∃ m', cacheAlloc sb m = some (n, m') ∧ FirstUsed m' (n + 1) := by
  have hscan : sb.scan m = some n := by
    rcases hs : sb.scan m with - | b
    · have := (h n hhi).mp (scan_eq_none hs hhi)
      omega
    · obtain ⟨hlt, hclear, hfirst⟩ := scan_eq_some hs
      rcases Nat.lt_trichotomy b n with hb | hb | hb
      · rw [(h b hlt).mpr hb] at hclear
        cases hclear
      · rw [hb]
      · have := (h n hhi).mp (hfirst n hb)
        omega
  refine ⟨_, by rw [cacheAlloc, hscan]; rfl, ?_⟩
  intro b hb
  have hne : sb.bblock b ≠ n := by
    have hb' : b < 1000 := hb
    have hblock : sb.bblock b = b / 4096 + 91 := rfl
    rw [hblock]
    rw [nmeta_eq] at hlo
    omega
  rw [SuperBlock.used_congr (Function.update_of_ne hne _ _), used_setBit, Bool.or_eq_true,
    decide_eq_true_eq, h b hb]
  omega

/-- `k` calls of `cache_alloc` take the next `k` blocks. -/
theorem FirstUsed.reach {m₀ : Disk} {t : TwoAllocs} {n : ℕ} (k : ℕ)
    (ht : Reach (TwoAllocs.step sb) (TwoAllocs.Legal sb) (TwoAllocs.init m₀) t)
    (h : FirstUsed t.disk n) (hlo : nmeta ≤ n) (hhi : n + k ≤ fsSize) :
    ∃ t', Reach (TwoAllocs.step sb) (TwoAllocs.Legal sb) (TwoAllocs.init m₀) t' ∧
      t'.swapValid = t.swapValid ∧ (∀ b ∈ t.allocated, b ∈ t'.allocated) ∧
      ∀ b, n ≤ b → b < n + k → b ∈ t'.allocated := by
  induction k generalizing t n with
  | zero => exact ⟨t, ht, rfl, fun b hb => hb, fun b h₁ h₂ => absurd h₂ (by omega)⟩
  | succ k ih =>
      obtain ⟨m', ha, h'⟩ := h.alloc hlo (by omega)
      have hstep : TwoAllocs.step sb t .cacheAlloc =
          some { t with disk := m', allocated := n :: t.allocated } := by
        rw [TwoAllocs.step, ha]
        rfl
      obtain ⟨t', hr, hv, hmono, hall⟩ := ih (ht.step (i := AllocCall.cacheAlloc) trivial hstep) h' (by omega) (by omega)
      refine ⟨t', hr, hv, fun b hb => hmono b (List.mem_cons_of_mem _ hb), ?_⟩
      intro b h₁ h₂
      rcases Nat.eq_or_lt_of_le h₁ with rfl | h₁
      · exact hmono _ List.mem_cons_self
      · exact hall b h₁ (by omega)

theorem findAndSet8Blocks_clear : ∃ valid,
    findAndSet8Blocks (fun _ => false) = some (swapStart, valid) :=
  ⟨_, rfl⟩

/-- The bits of an image. -/
theorem firstUsed_of_main (h : main fs = some s) (hfew : fs.length + 1 ≤ nInodes) :
    FirstUsed s.img s.freeblock ∧ nmeta ≤ s.freeblock := by
  obtain ⟨s₀, -, hB, rfl⟩ := built_of_main h hfew
  refine ⟨?_, hB.lo⟩
  intro b hb
  apply finished_used hB
  rw [fsSize_eq] at hb
  rw [bitPerBlock_eq]
  omega

/-- The image of one small file, after a `cache_alloc` and a `find_and_set_8_blocks`. -/
theorem files_and_swap_apart_small : ∃ s t, main [smallFile] = some s ∧
    Reach (TwoAllocs.step sb) (fun t call => TwoAllocs.Legal sb t call ∧
      TwoAllocs.RoomBelow sb t call) (TwoAllocs.init s.img) t ∧
    t.allocated = [94] ∧ t.live = [800] ∧ TwoAllocs.Separate t := by
  obtain ⟨s, hs⟩ := Option.isSome_iff_exists.mp
    (main_isSome fits_small.size fits_small.inodes.le fits_small.blocks)
  have hfree : s.freeblock = 94 := by
    obtain ⟨s₀, -, hB, rfl⟩ := built_of_main hs (by decide)
    exact hB.free
  obtain ⟨hfirst, hlo⟩ := firstUsed_of_main hs (by decide)
  rw [hfree] at hfirst hlo
  obtain ⟨m', ha, -⟩ := hfirst.alloc hlo (by decide)
  have hclear : sb.used s.img 94 = false := by
    rw [Bool.eq_false_iff, Ne, hfirst 94 (by decide)]
    exact Nat.lt_irrefl 94
  obtain ⟨valid, hfind⟩ := findAndSet8Blocks_clear
  have hstep : TwoAllocs.step sb (TwoAllocs.init s.img) .cacheAlloc =
      some ⟨m', fun _ => false, [94], []⟩ := by
    have ha' : cacheAlloc sb (TwoAllocs.init s.img).disk = some (94, m') := ha
    rw [TwoAllocs.step, ha']
    rfl
  have hstep' : TwoAllocs.step sb ⟨m', fun _ => false, [94], []⟩ .findAndSet8Blocks =
      some ⟨m', valid, [94], [800]⟩ := by
    rw [TwoAllocs.step, hfind]
    rfl
  have hbelow : 94 < swapStart := by
    show 94 < 800
    omega
  have hr₁ : Reach (TwoAllocs.step sb) (fun t call => TwoAllocs.Legal sb t call ∧
      TwoAllocs.RoomBelow sb t call) (TwoAllocs.init s.img) ⟨m', fun _ => false, [94], []⟩ :=
    Reach.init.step (i := AllocCall.cacheAlloc) ⟨trivial, 94, hbelow, hclear⟩ hstep
  have hr := hr₁.step (i := AllocCall.findAndSet8Blocks) ⟨trivial, trivial⟩ hstep'
  exact ⟨s, _, hs, hr, rfl, rfl, files_and_swap_apart hr⟩

/-- **Files reach the swap area** on every image of mkfs that is not filled up to there and whose
inodes are not too many. -/
theorem files_reach_swap (h : main fs = some s) (hfew : fs.length + 1 ≤ nInodes)
    (hroom : s.freeblock ≤ swapStart) :
    ∃ t, Reach (TwoAllocs.step sb) (TwoAllocs.Legal sb) (TwoAllocs.init s.img) t ∧
      swapStart ∈ t.allocated ∧ swapStart ∈ t.live ∧ ¬ TwoAllocs.Separate t := by
  obtain ⟨hfirst, hlo⟩ := firstUsed_of_main h hfew
  have hswap : swapStart < fsSize := by decide
  obtain ⟨t, hr, hv, -, hall⟩ := hfirst.reach (swapStart + 1 - s.freeblock)
    (t := TwoAllocs.init s.img) Reach.init hlo (by omega)
  obtain ⟨valid, hfind⟩ := findAndSet8Blocks_clear
  have hstep : TwoAllocs.step sb t .findAndSet8Blocks =
      some { t with swapValid := valid, live := swapStart :: t.live } := by
    have hclear : t.swapValid = fun _ => false := hv
    rw [TwoAllocs.step, hclear, hfind]
    rfl
  have hin : swapStart ∈ t.allocated := hall _ hroom (by omega)
  refine ⟨_, hr.step (i := AllocCall.findAndSet8Blocks) trivial hstep, hin, List.mem_cons_self, ?_⟩
  intro hsep
  exact hsep swapStart hin swapStart List.mem_cons_self ⟨le_refl _, by omega⟩

/-- After 707 calls of `cache_alloc` and one of `find_and_set_8_blocks`, block 800 is in both. -/
theorem block_800_shared : ∃ s t, main [smallFile] = some s ∧
    Reach (TwoAllocs.step sb) (TwoAllocs.Legal sb) (TwoAllocs.init s.img) t ∧
    800 ∈ t.allocated ∧ 800 ∈ t.live ∧ ¬ TwoAllocs.Separate t := by
  obtain ⟨s, hs⟩ := Option.isSome_iff_exists.mp
    (main_isSome fits_small.size fits_small.inodes.le fits_small.blocks)
  have hfree : s.freeblock ≤ swapStart := by
    obtain ⟨s₀, -, hB, rfl⟩ := built_of_main hs (by decide)
    have hfree : s₀.freeblock = 94 := hB.free
    show s₀.freeblock ≤ 800
    omega
  obtain ⟨t, hr, ha, hl, hsep⟩ := files_reach_swap hs (by decide) hfree
  exact ⟨s, t, hs, hr, ha, hl, hsep⟩

end OsLab.Mkfs
