import OsLab.Fs.Cache
import Mathlib.Algebra.BigOperators.Group.List.Basic

/-!
# The log reservation

Every admitted operation may still record `ctx->rm` new block numbers, and
`log.op_reserved` counts them all.  `Reserved l ctxs` says that the log state `l`
agrees with the operations `ctxs` that are outstanding, each with its `ctx->rm`;
it is kept by the critical sections of `cache_begin_op`, `cache_sync` and
`cache_end_op` and by the reset of the header at the end of a commit.
-/

namespace OsLab

/-- The log state agrees with the outstanding operations. -/
structure Reserved (l : Log) (ctxs : List (ℕ × ℕ)) : Prop where
  keys : (ctxs.map Prod.fst).Nodup
  outstanding : l.outstanding = ctxs.length
  reserved : l.opReserved = (ctxs.map Prod.snd).sum
  bound : l.header.numBlocks + (ctxs.map Prod.snd).sum ≤ logMaxSize
  nodup : l.header.entries.Nodup

namespace Reserved

variable {l l' : Log} {ctxs : List (ℕ × ℕ)} {c rm rm' b : ℕ} {r : Bool}

theorem numBlocks_le (h : Reserved l ctxs) : l.header.numBlocks ≤ logMaxSize :=
  le_trans (Nat.le_add_right _ _) h.bound

/-- Taking one operation out of the list takes its reservation out of the sum. -/
theorem sum_erase (hc : (c, rm) ∈ ctxs) :
    (ctxs.map Prod.snd).sum = rm + ((ctxs.erase (c, rm)).map Prod.snd).sum := by
  have hp := (List.perm_cons_erase hc).map Prod.snd
  rw [hp.sum_eq]
  simp

theorem keys_erase (h : (ctxs.map Prod.fst).Nodup) (hc : (c, rm) ∈ ctxs) :
    ((ctxs.erase (c, rm)).map Prod.fst).Nodup ∧ c ∉ (ctxs.erase (c, rm)).map Prod.fst := by
  have hp := (List.perm_cons_erase hc).map Prod.fst
  rw [hp.nodup_iff, List.map_cons, List.nodup_cons] at h
  exact ⟨h.2, h.1⟩

/-- `cache_begin_op` admits an operation only where its ten blocks still fit. -/
theorem beginOp (h : Reserved l ctxs) (hc : c ∉ ctxs.map Prod.fst)
    (hb : l.beginOp = .admitted rm l') : Reserved l' ((c, rm) :: ctxs) ∧ rm = opMaxNumBlocks ∧
      l.committing = false ∧ l'.committing = false ∧ l'.header = l.header := by
  have hsum := h.reserved
  have hbound := h.bound
  simp only [Log.beginOp] at hb
  split at hb
  · cases hb
  · split at hb
    · cases hb
    · rename_i hcom hfull
      cases hb
      have hcom' : l.committing = false := by simpa using hcom
      refine ⟨⟨List.nodup_cons.mpr ⟨hc, h.keys⟩, by simp [h.outstanding], ?_, ?_, h.nodup⟩, rfl,
        hcom', hcom', rfl⟩
      · simp only [List.map_cons, List.sum_cons, hsum]
        push_cast
        omega
      · simp only [List.map_cons, List.sum_cons]
        simp only [logMaxSize_eq, opMaxNumBlocks_eq] at hfull ⊢
        omega

/-- `cache_sync` moves one reserved block from its operation to the header, or
finds the number recorded already. -/
theorem sync (h : Reserved l ctxs) (hc : (c, rm) ∈ ctxs) (hs : l.sync rm b = some (r, rm', l')) :
    Reserved l' ((c, rm') :: ctxs.erase (c, rm)) ∧
    l'.committing = l.committing ∧ b ∈ l'.header.entries ∧
    (∀ x, x ∈ l'.header.entries ↔ x ∈ l.header.entries ∨ x = b) ∧
    (r = true ↔ b ∉ l.header.entries) := by
  have hsum := h.reserved
  have hbound := h.bound
  rw [sum_erase hc] at hsum hbound
  obtain ⟨hkeys, hnot⟩ := keys_erase h.keys hc
  have hlen : ctxs.length = (ctxs.erase (c, rm)).length + 1 := by
    rw [List.length_erase_of_mem hc]
    have := List.length_pos_of_mem hc
    omega
  have hk : (((c, rm') :: ctxs.erase (c, rm)).map Prod.fst).Nodup :=
    List.nodup_cons.mpr ⟨hnot, hkeys⟩
  simp only [Log.sync] at hs
  split at hs
  · rename_i hmem
    cases hs
    refine ⟨⟨hk, by rw [h.outstanding, hlen]; rfl, by simpa using hsum, by simpa using hbound,
      h.nodup⟩, rfl, hmem, ?_, by simp [hmem]⟩
    intro x
    constructor
    · exact Or.inl
    · rintro (hx | rfl)
      · exact hx
      · exact hmem
  · rename_i hmem
    split at hs
    · rename_i hrm
      cases hs
      refine ⟨⟨hk, by rw [h.outstanding, hlen]; rfl, ?_, ?_, ?_⟩, rfl, by simp, by simp, by simp [hmem]⟩
      · simp only [List.map_cons, List.sum_cons, hsum]
        push_cast
        omega
      · simp only [List.map_cons, List.sum_cons, LogHeader.numBlocks_push]
        omega
      · rw [LogHeader.entries_push]
        exact List.nodup_append.mpr ⟨h.nodup, List.nodup_singleton b, by
          intro x hx y hy
          rw [List.mem_singleton] at hy
          subst hy
          rintro rfl
          exact hmem hx⟩
    · cases hs

/-- `cache_end_op` gives back what the operation did not use. -/
theorem endOp (h : Reserved l ctxs) (hc : (c, rm) ∈ ctxs) (he : l.endOp rm = (r, l')) :
    Reserved l' (ctxs.erase (c, rm)) ∧ l'.header = l.header ∧
      (r = true → ctxs.erase (c, rm) = [] ∧ l'.committing = true) ∧
      (r = false → l'.committing = l.committing) := by
  have hsum := h.reserved
  have hbound := h.bound
  rw [sum_erase hc] at hsum hbound
  have hlen : (ctxs.erase (c, rm)).length = l.outstanding - 1 := by
    rw [List.length_erase_of_mem hc, h.outstanding]
  simp only [Log.endOp] at he
  split at he
  · rename_i h0
    cases he
    refine ⟨⟨(keys_erase h.keys hc).1, hlen.symm, ?_, ?_, h.nodup⟩, rfl, ?_, by simp⟩
    · simp only [hsum]
      push_cast
      omega
    · simp only
      omega
    · intro _
      exact ⟨List.length_eq_zero_iff.mp (hlen.trans h0), rfl⟩
  · cases he
    refine ⟨⟨(keys_erase h.keys hc).1, hlen.symm, ?_, ?_, h.nodup⟩, rfl, by simp, by simp⟩
    · simp only [hsum]
      push_cast
      omega
    · simp only
      omega

/-- The header is emptied while no operation is outstanding. -/
theorem clear (h : Reserved l ctxs) : Reserved { l with header := l.header.clear } ctxs :=
  ⟨h.keys, h.outstanding, h.reserved, by
    have := h.bound
    simp only [LogHeader.numBlocks_clear]
    omega, by simp⟩

theorem setCommitting (h : Reserved l ctxs) (v : Bool) :
    Reserved { l with committing := v } ctxs :=
  ⟨h.keys, h.outstanding, h.reserved, h.bound, h.nodup⟩

end Reserved

end OsLab
