import Mathlib.Data.List.GetD
import Mathlib.Logic.Function.Basic
import Mathlib.Algebra.Group.Nat.Defs

/-!
# Straight-line code that saves and restores registers

A small part of the AArch64 instruction set: register pairs pushed on the stack and
popped off it, moves to and from the stack pointer, one plain store, and the moves
between general and system registers.  Memory is a doubleword at each address; an access
to an address that is no multiple of 8 is outside this picture and gives `none`.

A run of pushes stores one block of doublewords below the stack pointer, and a run of
pops loads one, so code of this kind is described by the list of its registers in the
order of their addresses.

## Main definitions

* `Asm.Regs`, `Asm.Instr`, `Asm.exec` — registers, instructions, and what they do.
* `Asm.store` — a block of doublewords.
* `Asm.slots` — the registers of a list of pairs, by address.
-/

namespace OsLab.Asm

/-- A 64-bit register or address. -/
abbrev Word := BitVec 64

/-- The doubleword at each address. -/
abbrev Mem := Word → Word

/-- The general registers; `x30` is the link register. -/
inductive Reg
  | x0 | x1 | x2 | x3 | x4 | x5 | x6 | x7 | x8 | x9 | x10 | x11 | x12 | x13 | x14 | x15
  | x16 | x17 | x18 | x19 | x20 | x21 | x22 | x23 | x24 | x25 | x26 | x27 | x28 | x29 | x30
  deriving DecidableEq, Repr

inductive SysReg
  | spEl0
  | spsrEl1
  | elrEl1
  deriving DecidableEq, Repr

/-- The registers of a core at EL1: the general ones, the stack pointer of EL1, and the
system registers that code here reads and writes. -/
structure Regs where
  x : Reg → Word
  sp : Word
  sys : SysReg → Word

inductive Instr
  /-- `stp a, b, [sp, #-0x10]!` -/
  | push (a b : Reg)
  /-- `ldp a, b, [sp], #0x10` -/
  | pop (a b : Reg)
  /-- `mov d, sp` -/
  | getSp (d : Reg)
  /-- `mov sp, s` -/
  | setSp (s : Reg)
  /-- `str t, [n]` -/
  | str (t n : Reg)
  /-- `mrs d, r` -/
  | mrs (d : Reg) (r : SysReg)
  /-- `msr r, s` -/
  | msr (r : SysReg) (s : Reg)
  /-- `bl f`, where the next instruction is at `ret`; what follows is up to `f` -/
  | bl (ret : Word)
  deriving DecidableEq, Repr

/-- The address is a multiple of 8. -/
def Aligned (a : Word) : Prop := a.toNat % 8 = 0

instance (a : Word) : Decidable (Aligned a) := inferInstanceAs (Decidable (_ = _))

/-- The registers with `v` in `d`. -/
def Regs.set (r : Regs) (d : Reg) (v : Word) : Regs := { r with x := Function.update r.x d v }

/-- Store a block of doublewords from `a` on. -/
def store (m : Mem) (a : Word) (ws : List Word) : Mem := fun b =>
  if (b - a).toNat % 8 = 0 then ws.getD ((b - a).toNat / 8) (m b) else m b

/-- One instruction. -/
def exec (i : Instr) (s : Regs × Mem) : Option (Regs × Mem) :=
  let (r, m) := s
  match i with
  | .push a b =>
      if Aligned r.sp then
        some ({ r with sp := r.sp - 16#64 }, store m (r.sp - 16#64) [r.x a, r.x b])
      else none
  | .pop a b =>
      if Aligned r.sp then
        some ({ (r.set a (m r.sp)).set b (m (r.sp + 8#64)) with sp := r.sp + 16#64 }, m)
      else none
  | .getSp d => some (r.set d r.sp, m)
  | .setSp t => some ({ r with sp := r.x t }, m)
  | .str t n =>
      if Aligned (r.x n) then some (r, store m (r.x n) [r.x t]) else none
  | .mrs d q => some (r.set d (r.sys q), m)
  | .msr q t => some ({ r with sys := Function.update r.sys q (r.x t) }, m)
  | .bl ret => some (r.set .x30 ret, m)

/-- A straight-line program. -/
def execs : List Instr → Regs × Mem → Option (Regs × Mem)
  | [], s => some s
  | i :: is, s => (exec i s).bind (execs is)

@[simp] theorem execs_nil (s : Regs × Mem) : execs [] s = some s := rfl

theorem execs_cons (i : Instr) (is : List Instr) (s : Regs × Mem) :
    execs (i :: is) s = (exec i s).bind (execs is) := rfl

theorem execs_append (is js : List Instr) (s : Regs × Mem) :
    execs (is ++ js) s = (execs is s).bind (execs js) := by
  induction is generalizing s with
  | nil => rfl
  | cons i is ih =>
      rw [List.cons_append, execs_cons, execs_cons]
      cases exec i s with
      | none => rfl
      | some t => exact ih t

/-! ## Blocks of doublewords -/

/-- The address of the `i`-th doubleword of the block at `a`. -/
def dword (a : Word) (i : ℕ) : Word := a + BitVec.ofNat 64 (8 * i)

@[simp] theorem dword_zero (a : Word) : dword a 0 = a := by simp [dword]

theorem dword_succ (a : Word) (i : ℕ) : dword a (i + 1) = dword (a + 8#64) i := by
  unfold dword
  rw [Nat.mul_succ, Nat.add_comm, BitVec.ofNat_add, BitVec.add_assoc]

theorem dword_add (a : Word) (i j : ℕ) :
    dword (a + BitVec.ofNat 64 (8 * i)) j = dword a (i + j) := by
  unfold dword
  rw [Nat.mul_add, BitVec.ofNat_add, BitVec.add_assoc]

theorem toNat_dword_sub (a : Word) {i : ℕ} (h : 8 * i < 2 ^ 64) :
    (dword a i - a).toNat = 8 * i := by
  unfold dword
  rw [show a + BitVec.ofNat 64 (8 * i) - a = BitVec.ofNat 64 (8 * i) by bv_omega]
  rw [BitVec.toNat_ofNat, Nat.mod_eq_of_lt h]

theorem store_dword (m : Mem) (a : Word) (ws : List Word) {i : ℕ} (hi : i < ws.length)
    (h : 8 * i < 2 ^ 64) : store m a ws (dword a i) = ws[i] := by
  have h0 := toNat_dword_sub a h
  simp only [store, h0, Nat.mul_mod_right, if_true]
  rw [Nat.mul_div_cancel_left i (by decide), List.getD_eq_getElem _ _ hi]

/-- An address that is not inside the block keeps its content. -/
theorem store_of_le (m : Mem) (a : Word) (ws : List Word) {b : Word}
    (h : 8 * ws.length ≤ (b - a).toNat) : store m a ws b = m b := by
  unfold store
  split
  · rw [List.getD_eq_default _ _ (by omega)]
  · rfl

/-- Two blocks one after the other. -/
theorem store_store (m : Mem) (a : Word) (us vs : List Word)
    (h : 8 * (us.length + vs.length) < 2 ^ 64) :
    store (store m (a + BitVec.ofNat 64 (8 * us.length)) vs) a us = store m a (us ++ vs) := by
  funext b
  obtain ⟨d, hd⟩ : ∃ d, (b - a).toNat = d := ⟨_, rfl⟩
  have hd' : d < 2 ^ 64 := by rw [← hd]; exact (b - a).isLt
  by_cases h8 : d % 8 = 0
  · have hsub : 8 * us.length ≤ d →
        (b - (a + BitVec.ofNat 64 (8 * us.length))).toNat = d - 8 * us.length := by
      intro hle
      bv_omega
    have hsub' : d < 8 * us.length →
        (b - (a + BitVec.ofNat 64 (8 * us.length))).toNat = 2 ^ 64 - (8 * us.length - d) := by
      intro hlt
      bv_omega
    rcases Nat.lt_or_ge (d / 8) us.length with hlt | hge
    · simp only [store, hd, h8, if_true]
      rw [List.getD_eq_getElem _ _ hlt, List.getD_eq_getElem _ _ (by simp; omega),
        List.getElem_append_left hlt]
    · have h' := hsub (by omega)
      simp only [store, hd, h8, if_true, h']
      rw [List.getD_eq_default us _ hge, List.getD_append_right _ _ _ _ hge, if_pos (by omega)]
      congr 1
      omega
  · have h' : (b - (a + BitVec.ofNat 64 (8 * us.length))).toNat % 8 ≠ 0 := by
      bv_omega
    simp only [store, hd, h8, if_false, h']

/-! ## Pushes and pops -/

/-- The registers of a list of pairs, in the order of their addresses. -/
def slots (ps : List (Reg × Reg)) : List Reg := ps.flatMap fun p => [p.1, p.2]

@[simp] theorem slots_nil : slots [] = [] := rfl

@[simp] theorem slots_cons (p : Reg × Reg) (ps : List (Reg × Reg)) :
    slots (p :: ps) = p.1 :: p.2 :: slots ps := rfl

theorem length_slots (ps : List (Reg × Reg)) : (slots ps).length = 2 * ps.length := by
  induction ps with
  | nil => rfl
  | cons p ps ih => simp [ih]; omega

/-- The stack pointer after a run of pushes. -/
def down (a : Word) (n : ℕ) : Word := a - BitVec.ofNat 64 (8 * n)

theorem Aligned.sub {a : Word} (h : Aligned a) : Aligned (a - 16#64) := by
  unfold Aligned at *
  bv_omega

theorem Aligned.add {a : Word} (h : Aligned a) : Aligned (a + 16#64) := by
  unfold Aligned at *
  bv_omega

theorem Aligned.down {a : Word} (h : Aligned a) (n : ℕ) : Aligned (down a n) := by
  unfold Aligned Asm.down at *
  bv_omega

/-- **A run of pushes**: the block of the registers, the last pushed pair first, lies
below the old stack pointer. -/
theorem execs_push (ps : List (Reg × Reg)) (r : Regs) (m : Mem) (ha : Aligned r.sp)
    (hl : 16 * ps.length < 2 ^ 64) :
    execs (ps.reverse.map fun p => .push p.1 p.2) (r, m) =
      some ({ r with sp := down r.sp (slots ps).length },
        store m (down r.sp (slots ps).length) ((slots ps).map r.x)) := by
  induction ps with
  | nil =>
      have h0 : down r.sp 0 = r.sp := by simp [down]
      have hs : store m r.sp [] = m := by
        funext b
        simp [store]
      simp [h0, hs]
  | cons p ps ih =>
      have hlen := length_slots ps
      simp only [List.length_cons] at hl
      rw [List.reverse_cons, List.map_append, execs_append, ih (by omega)]
      have ha' := ha.down (slots ps).length
      have hb : down r.sp (slots ps).length - 16#64 = down r.sp (slots (p :: ps)).length := by
        simp only [down, slots_cons, List.length_cons]
        bv_omega
      have hc : down r.sp (slots ps).length =
          down r.sp (slots (p :: ps)).length + BitVec.ofNat 64 (8 * [r.x p.1, r.x p.2].length) := by
        simp only [down, slots_cons, List.length_cons, List.length_nil]
        bv_omega
      have hst := store_store m (down r.sp (slots (p :: ps)).length) [r.x p.1, r.x p.2]
        ((slots ps).map r.x) (by simp; omega)
      rw [← hc] at hst
      simp only [List.map_cons, List.map_nil, Option.bind_some, execs_cons, execs_nil, exec, ha',
        if_true, hb, hst]
      rfl

/-- What a run of pops leaves in the registers. -/
def popped (x : Reg → Word) (m : Mem) : Word → List Reg → Reg → Word
  | _, [] => x
  | a, q :: qs => popped (Function.update x q (m a)) m (a + 8#64) qs

/-- **A run of pops** loads the block from the stack pointer on. -/
theorem execs_pop (ps : List (Reg × Reg)) (r : Regs) (m : Mem) (ha : Aligned r.sp) :
    execs (ps.map fun p => .pop p.1 p.2) (r, m) =
      some ({ r with x := popped r.x m r.sp (slots ps), sp := dword r.sp (slots ps).length }, m) := by
  induction ps generalizing r with
  | nil => simp [popped]
  | cons p ps ih =>
      rw [List.map_cons, execs_cons]
      simp only [exec, ha, if_true, Option.bind_some]
      rw [ih _ (by simpa [Regs.set] using ha.add)]
      have h16 : r.sp + 16#64 = r.sp + 8#64 + 8#64 := by bv_omega
      simp only [Regs.set, slots_cons, popped, List.length_cons, dword_succ, h16]

theorem popped_of_notMem (x : Reg → Word) (m : Mem) (a : Word) {qs : List Reg} {q : Reg}
    (h : q ∉ qs) : popped x m a qs q = x q := by
  induction qs generalizing x a with
  | nil => rfl
  | cons p qs ih =>
      rw [List.mem_cons, not_or] at h
      rw [popped, ih _ _ h.2, Function.update_of_ne h.1]

/-- Each of the popped registers gets the doubleword at its address. -/
theorem popped_getElem (x : Reg → Word) (m : Mem) (a : Word) {qs : List Reg}
    (h : qs.Nodup) {i : ℕ} (hi : i < qs.length) : popped x m a qs qs[i] = m (dword a i) := by
  induction qs generalizing x a i with
  | nil => cases hi
  | cons p qs ih =>
      rw [List.nodup_cons] at h
      cases i with
      | zero =>
          rw [List.getElem_cons_zero, popped, popped_of_notMem _ _ _ h.1, Function.update_self,
            dword_zero]
      | succ i =>
          rw [List.getElem_cons_succ, popped, ih _ _ h.2 (by simpa using hi), dword_succ]

end OsLab.Asm
