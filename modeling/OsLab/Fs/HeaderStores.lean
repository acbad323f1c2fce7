import OsLab.Fs.LogProtocol

/-!
# The stores into the log header

`cache_sync` stores the number of a block that is new to the log before it looks at
what the operation may still record.  The reservation keeps the store in bounds while
there is something left; an operation that has nothing left finds the header full if
the other operations of its group left no room.

## Main definitions

* `Log.syncStore` — the index `cache_sync` stores at.
* `header_store_in_bounds` — when it is in bounds.
-/

namespace OsLab

/-- The index of `header.block_no` that the critical section of `cache_sync` stores at, if it
stores; whether it panics is decided later. -/
def Log.syncStore (l : Log) (b : ℕ) : Option ℕ :=
  if b ∈ l.header.entries then none else some l.header.numBlocks

/-- What `cache_sync` changes in the header, it changes there. -/
theorem Log.sync_header {l l' : Log} {rm rm' b : ℕ} {r : Bool}
    (hs : l.sync rm b = some (r, rm', l')) :
    l'.header = match l.syncStore b with
      | none => l.header
      | some i => ⟨i + 1, Function.update l.header.blockNo i b⟩ := by
  rw [Log.sync] at hs
  rw [Log.syncStore]
  split at hs
  · rename_i hmem
    cases hs
    rw [if_pos hmem]
  · rename_i hmem
    split at hs
    · cases hs
      rw [if_neg hmem]
      rfl
    · cases hs

/-- The store of an operation with something left to record. -/
theorem Reserved.store_lt {l : Log} {ctxs : List (ℕ × ℕ)} {t rm : ℕ} (h : Reserved l ctxs)
    (ht : (t, rm) ∈ ctxs) (hrm : 0 < rm) : l.header.numBlocks < logMaxSize := by
  have hbound := h.bound
  rw [Reserved.sum_erase ht] at hbound
  omega

/-- **The stores into the log header.**  In every state of every interleaving, a `cache_sync` of
any block by any operation stores in bounds exactly if the operation may still record a block, or
the block is recorded already, or the header is not full. -/
theorem header_store_in_bounds {sb : SuperBlock} {disk : ℕ → Sector} {s : LogSys}
    (h : Reach (LogSys.step sb) (fun _ _ => True) (LogSys.start disk) s) {t rm : ℕ}
    (ht : (t, rm) ∈ s.ctxs) (b : ℕ) : (∀ i ∈ s.log.syncStore b, i < logMaxSize) ↔
      0 < rm ∨ b ∈ s.log.header.entries ∨ s.log.header.numBlocks ≠ logMaxSize := by
  have hR := (Proto.of_reach h).reserved
  have hle := hR.numBlocks_le
  rw [Log.syncStore]
  split
  · rename_i hmem
    simp [hmem]
  · rename_i hmem
    simp only [Option.mem_def, Option.some.injEq, forall_eq', hmem, false_or]
    constructor
    · intro hlt
      exact Or.inr (Nat.ne_of_lt hlt)
    · rintro (hrm | hne)
      · exact hR.store_lt ht hrm
      · exact Nat.lt_of_le_of_ne hle hne

/-- Two operations have recorded three blocks, and one of them goes on to a fourth. -/
theorem header_store_in_bounds_fourth : ∃ s,
    Reach (LogSys.step Mkfs.sb) (fun _ _ => True) (LogSys.start fun _ => Bytes.zero) s ∧
      s.ctxs = [(1, 9), (0, 8)] ∧ s.log.header.entries = [100, 101, 102] ∧
      s.log.syncStore 103 = some 3 ∧ ∀ i ∈ s.log.syncStore 103, i < logMaxSize := by
  have hinit : Reach (LogSys.step Mkfs.sb) (fun _ _ => True) (LogSys.start fun _ => Bytes.zero)
    (LogSys.start fun _ => Bytes.zero) := .init
  have hrun := hinit.of_runs [(0, .beginOp), (0, .run), (0, .acquire 100), (0, .sync 100),
    (0, .acquire 101), (0, .sync 101), (1, .beginOp), (1, .run), (1, .acquire 102),
    (1, .sync 102)] rfl
  refine ⟨_, hrun, ?_, rfl, rfl,
    (header_store_in_bounds hrun List.mem_cons_self 103).mpr (Or.inl (by decide))⟩
  rfl

/-- Operations that record 63 blocks in all leave one of them with nothing to record.  Its next
`cache_sync` of a block that it holds panics, after it stored at index 63. -/
theorem header_store_out_of_bounds : ∃ s,
    Reach (LogSys.step Mkfs.sb) (fun _ _ => True) (LogSys.start fun _ => Bytes.zero) s ∧
      s.pc 0 = .inOp ∧ s.ctxs = [(0, 0)] ∧ s.held 129 = some 0 ∧
      s.step Mkfs.sb (0, .sync 129) = none ∧ s.log.syncStore 129 = some 63 ∧
      ¬ ∀ i ∈ s.log.syncStore 129, i < logMaxSize := by
  obtain ⟨s, h⟩ := Overfull.exists_full (fun _ => Bytes.zero)
    (show Mkfs.sb.numLogBlocks ≤ logMaxSize by decide)
  have hpc : s.pc 0 = .inOp := (Proto.of_reach h.reach).keys 0 (by simp [h.ctxs_eq])
  have hnew : 129 ∉ s.log.header.entries := by
    rw [h.entries]
    decide
  have hstore : s.log.syncStore 129 = some 63 := by
    rw [Log.syncStore, if_neg hnew, h.numBlocks]
    rfl
  have hfree : s.held 129 = none := h.unheld 63 (le_refl _)
  have htake : s.step Mkfs.sb (0, .acquire 129) =
      some { s with held := Function.update s.held 129 (some 0) } := by
    simp only [LogSys.step]
    rw [if_pos ⟨Or.inr (Or.inl hpc), by decide, by decide⟩, LogSys.take, if_pos hfree]
  have hheld : Function.update s.held 129 (some 0) 129 = some 0 := Function.update_self ..
  refine ⟨_, h.reach.step trivial htake, hpc, h.ctxs_eq, hheld, ?_, hstore, ?_⟩
  · have hrm : LogSys.rm { s with held := Function.update s.held 129 (some 0) } 0 = some 0 := by
      simp only [LogSys.rm, h.ctxs_eq]
      rfl
    have hsync : s.log.sync 0 129 = none := by
      rw [Log.sync, if_neg hnew]
      rfl
    simp only [LogSys.step]
    rw [if_pos ⟨hpc, hheld, by decide, by decide⟩, LogSys.sync, hrm]
    simp only [Option.bind_eq_bind, Option.bind_some, hsync, Option.bind_none]
  · intro hall
    exact absurd (hall 63 hstore) (by decide)

end OsLab
