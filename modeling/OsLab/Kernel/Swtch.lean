import OsLab.Lib.Stack
import Mathlib.Data.List.OfFn

/-!
# Saved contexts

The assembly of the kernel that saves registers and gets them back: `swtch` of
`aarch64/swtch.S`, which goes from one kernel stack to another, and `trap_entry` and
`trap_return` of `aarch64/trap.S`, which go from a program to the kernel and back.  What
they store is what C reads as a `KernelContext` or a `UserContext`.

Neither file mentions `x18` and the registers above it are left to the C code in
`trap_entry`: a trap does not save them.

## Main definitions

* `KernelContext`, `UserContext` — the structures of `kernel/proc.h`.
* `swtch`, `trapEntry`, `trapReturn` — the programs.
* `Swtched`, `TrapEntered`, `TrapReturned` — what each of them does.
-/

namespace OsLab

open Asm

/-- `struct KernelContext` -/
@[ext] structure KernelContext where
  lr : Word
  x0 : Word
  x1 : Word
  x : Fin 11 → Word

/-- `struct UserContext` -/
@[ext] structure UserContext where
  lr : Word
  sp : Word
  spsr : Word
  elr : Word
  x : Fin 18 → Word

/-- The registers that a function has to give back, but the stack pointer -/
def calleeSavedRegs : List Reg :=
  [.x19, .x20, .x21, .x22, .x23, .x24, .x25, .x26, .x27, .x28, .x29]

/-- The registers for arguments and intermediate results -/
def scratchRegs : List Reg :=
  [.x0, .x1, .x2, .x3, .x4, .x5, .x6, .x7, .x8, .x9, .x10, .x11, .x12, .x13, .x14, .x15, .x16,
    .x17]

theorem notMem_of_calleeSaved : ∀ q ∈ calleeSavedRegs, q ∉ scratchRegs ∧ q ≠ .x30 := by decide

theorem mem_regs (q : Reg) (h : q ≠ .x18) : q ∈ scratchRegs ∨ q ∈ calleeSavedRegs ∨ q = .x30 := by
  cases q with
  | x18 => exact absurd rfl h
  | _ => decide

namespace KernelContext

/-- The structure at an address. -/
def load (m : Mem) (a : Word) : KernelContext :=
  ⟨m (dword a 0), m (dword a 1), m (dword a 2), fun i => m (dword a (3 + i))⟩

/-- The doublewords of the structure. -/
def words (k : KernelContext) : List Word := k.lr :: k.x0 :: k.x1 :: List.ofFn k.x

/-- `sizeof(KernelContext) / 8` -/
abbrev size : ℕ := 14

/-- The registers that `swtch` saves. -/
def of (r : Regs) : KernelContext :=
  ⟨r.x .x30, r.x .x0, r.x .x1, fun i => r.x (calleeSavedRegs.get i)⟩

@[simp] theorem length_words (k : KernelContext) : k.words.length = 14 := by simp [words]

theorem load_congr {m m' : Mem} {a : Word} (h : ∀ i < size, m (dword a i) = m' (dword a i)) :
    load m a = load m' a := by
  refine KernelContext.ext ?_ ?_ ?_ (funext fun i => ?_)
  · exact h 0 (by decide)
  · exact h 1 (by decide)
  · exact h 2 (by decide)
  · exact h (3 + i) (by have := i.isLt; simp only [size]; omega)

theorem load_store (m : Mem) (a : Word) (k : KernelContext) : load (store m a k.words) a = k := by
  have hs : ∀ i, (h : i < k.words.length) → store m a k.words (dword a i) = k.words[i] := by
    intro i h
    exact store_dword m a _ h (by simp at h; omega)
  refine KernelContext.ext ?_ ?_ ?_ (funext fun i => ?_)
  · exact hs 0 (by simp)
  · exact hs 1 (by simp)
  · exact hs 2 (by simp)
  · have h := hs (i + 3) (by have := i.isLt; simp; omega)
    change store m a k.words (dword a (3 + i)) = k.x i
    rw [Nat.add_comm, h]
    exact List.getElem_ofFn ..

end KernelContext

namespace UserContext

/-- The structure at an address. -/
def load (m : Mem) (a : Word) : UserContext :=
  ⟨m (dword a 0), m (dword a 1), m (dword a 2), m (dword a 3), fun i => m (dword a (4 + i))⟩

/-- The doublewords of the structure. -/
def words (u : UserContext) : List Word := u.lr :: u.sp :: u.spsr :: u.elr :: List.ofFn u.x

/-- `sizeof(UserContext) / 8` -/
abbrev size : ℕ := 22

/-- The registers that `trap_entry` saves. -/
def of (r : Regs) : UserContext :=
  ⟨r.x .x30, r.sys .spEl0, r.sys .spsrEl1, r.sys .elrEl1, fun i => r.x (scratchRegs.get i)⟩

/-- The structure with `x[0]` set -/
def setX0 (u : UserContext) (v : Word) : UserContext := { u with x := Function.update u.x 0 v }

/-- `x[8]`, the number of a system call -/
def x8 (u : UserContext) : Word := u.x 8

@[simp] theorem setX0_lr (u : UserContext) (v : Word) : (u.setX0 v).lr = u.lr := rfl

@[simp] theorem setX0_sp (u : UserContext) (v : Word) : (u.setX0 v).sp = u.sp := rfl

@[simp] theorem setX0_spsr (u : UserContext) (v : Word) : (u.setX0 v).spsr = u.spsr := rfl

@[simp] theorem setX0_elr (u : UserContext) (v : Word) : (u.setX0 v).elr = u.elr := rfl

@[simp] theorem setX0_x0 (u : UserContext) (v : Word) : (u.setX0 v).x 0 = v := by
  simp [setX0]

theorem setX0_x (u : UserContext) (v : Word) {i : Fin 18} (h : i ≠ 0) : (u.setX0 v).x i = u.x i := by
  simp [setX0, h]

@[simp] theorem length_words (u : UserContext) : u.words.length = 22 := by simp [words]

theorem load_congr {m m' : Mem} {a : Word} (h : ∀ i < size, m (dword a i) = m' (dword a i)) :
    load m a = load m' a := by
  refine UserContext.ext ?_ ?_ ?_ ?_ (funext fun i => ?_)
  · exact h 0 (by decide)
  · exact h 1 (by decide)
  · exact h 2 (by decide)
  · exact h 3 (by decide)
  · exact h (4 + i) (by have := i.isLt; simp only [size]; omega)

theorem load_store (m : Mem) (a : Word) (u : UserContext) : load (store m a u.words) a = u := by
  have hs : ∀ i, (h : i < u.words.length) → store m a u.words (dword a i) = u.words[i] := by
    intro i h
    exact store_dword m a _ h (by simp at h; omega)
  refine UserContext.ext ?_ ?_ ?_ ?_ (funext fun i => ?_)
  · exact hs 0 (by simp)
  · exact hs 1 (by simp)
  · exact hs 2 (by simp)
  · exact hs 3 (by simp)
  · have h := hs (i + 4) (by have := i.isLt; simp; omega)
    change store m a u.words (dword a (4 + i)) = u.x i
    rw [Nat.add_comm, h]
    exact List.getElem_ofFn ..

end UserContext

/-! ## `swtch` -/

/-- `swtch` -/
def swtch : List Instr :=
  -- save the registers
  [.push .x28 .x29, .push .x26 .x27, .push .x24 .x25, .push .x22 .x23, .push .x20 .x21,
    .push .x1 .x19, .push .x30 .x0,
  -- switch stacks
    .getSp .x2, .str .x2 .x1, .setSp .x0,
  -- load the registers
    .pop .x30 .x0, .pop .x1 .x19, .pop .x20 .x21, .pop .x22 .x23, .pop .x24 .x25,
    .pop .x26 .x27, .pop .x28 .x29]

/-- The register pairs of `swtch`, by address. -/
def kernelPairs : List (Reg × Reg) :=
  [(.x30, .x0), (.x1, .x19), (.x20, .x21), (.x22, .x23), (.x24, .x25), (.x26, .x27), (.x28, .x29)]

theorem swtch_eq : swtch = (kernelPairs.reverse.map fun p => Instr.push p.1 p.2) ++
    ([.getSp .x2, .str .x2 .x1, .setSp .x0] ++ kernelPairs.map fun p => .pop p.1 p.2) := rfl

theorem words_of (r : Regs) : (slots kernelPairs).map r.x = (KernelContext.of r).words := by
  simp [kernelPairs, KernelContext.words, KernelContext.of, List.ofFn_succ, calleeSavedRegs]

/-- What `swtch` leaves of the registers `r` and the memory `m`. -/
structure Swtched (r : Regs) (m : Mem) (r' : Regs) (m' : Mem) : Prop where
  mem : m' = store (store m (down r.sp KernelContext.size) (KernelContext.of r).words) (r.x .x1)
    [down r.sp KernelContext.size]
  ctx : KernelContext.of r' = KernelContext.load m' (r.x .x0)
  sp : r'.sp = dword (r.x .x0) KernelContext.size
  sys : r'.sys = r.sys

/-- The pops of `swtch` load a `KernelContext`. -/
theorem KernelContext.of_popped (x : Reg → Word) (m : Mem) (a sp : Word) (sys : SysReg → Word) :
    KernelContext.of ⟨popped x m a (slots kernelPairs), sp, sys⟩ = KernelContext.load m a := by
  have hx : ∀ i q, (slots kernelPairs)[i]? = some q →
      popped x m a (slots kernelPairs) q = m (dword a i) := by
    intro i q hq
    obtain ⟨hi, rfl⟩ := List.getElem?_eq_some_iff.mp hq
    exact popped_getElem x m a (by decide) hi
  refine KernelContext.ext (hx 0 .x30 rfl) (hx 1 .x0 rfl) (hx 2 .x1 rfl) (funext fun i => hx (3 + i) _ ?_)
  revert i
  decide

theorem execs_swtch (r : Regs) (m : Mem) (ha : Aligned r.sp) (h0 : Aligned (r.x .x0))
    (h1 : Aligned (r.x .x1)) :
    ∃ r' m', execs swtch (r, m) = some (r', m') ∧ Swtched r m r' m' := by
  rw [swtch_eq, execs_append, execs_push _ _ _ ha (by decide), words_of]
  have e0 : Function.update r.x .x2 (down r.sp (slots kernelPairs).length) .x0 = r.x .x0 := rfl
  have e1 : Function.update r.x .x2 (down r.sp (slots kernelPairs).length) .x1 = r.x .x1 := rfl
  have e2 : Function.update r.x .x2 (down r.sp (slots kernelPairs).length) .x2 =
      down r.sp (slots kernelPairs).length := Function.update_self ..
  simp only [Option.bind_some, List.cons_append, List.nil_append, execs_cons, exec, Regs.set, e0,
    e1, e2, h1, if_true]
  rw [execs_pop _ _ _ h0]
  exact ⟨_, _, rfl, rfl, KernelContext.of_popped _ _ _ _ _, rfl, rfl⟩

/-! ## Traps -/

/-- The pairs of argument and scratch registers, by address. -/
def userPairs : List (Reg × Reg) :=
  [(.x0, .x1), (.x2, .x3), (.x4, .x5), (.x6, .x7), (.x8, .x9), (.x10, .x11), (.x12, .x13),
    (.x14, .x15), (.x16, .x17)]

/-- `trap_entry`, if `trap_return` is at `ret`. -/
def trapEntry (ret : Word) : List Instr :=
  [.push .x16 .x17, .push .x14 .x15, .push .x12 .x13, .push .x10 .x11, .push .x8 .x9,
    .push .x6 .x7, .push .x4 .x5, .push .x2 .x3, .push .x0 .x1,
    .mrs .x0 .spsrEl1, .mrs .x1 .elrEl1, .push .x0 .x1, .mrs .x0 .spEl0, .push .x30 .x0,
    .getSp .x0, .bl ret]

/-- `trap_return`, up to its `eret` -/
def trapReturn : List Instr :=
  [.pop .x30 .x0, .msr .spEl0 .x0, .pop .x0 .x1, .msr .spsrEl1 .x0, .msr .elrEl1 .x1,
    .pop .x0 .x1, .pop .x2 .x3, .pop .x4 .x5, .pop .x6 .x7, .pop .x8 .x9, .pop .x10 .x11,
    .pop .x12 .x13, .pop .x14 .x15, .pop .x16 .x17]

theorem trapEntry_eq (ret : Word) : trapEntry ret =
    (userPairs.reverse.map fun p => Instr.push p.1 p.2) ++
      [.mrs .x0 .spsrEl1, .mrs .x1 .elrEl1, .push .x0 .x1, .mrs .x0 .spEl0, .push .x30 .x0,
        .getSp .x0, .bl ret] := rfl

theorem trapReturn_eq : trapReturn =
    [.pop .x30 .x0, .msr .spEl0 .x0, .pop .x0 .x1, .msr .spsrEl1 .x0, .msr .elrEl1 .x1] ++
      userPairs.map fun p => Instr.pop p.1 p.2 := rfl

/-- What `trap_entry` leaves. -/
structure TrapEntered (ret : Word) (r : Regs) (m : Mem) (r' : Regs) (m' : Mem) : Prop where
  mem : m' = store m (down r.sp UserContext.size) (UserContext.of r).words
  sp : r'.sp = down r.sp UserContext.size
  context : r'.x .x0 = r'.sp
  lr : r'.x .x30 = ret
  x : ∀ i, i ≠ .x0 → i ≠ .x1 → i ≠ .x30 → r'.x i = r.x i
  sys : r'.sys = r.sys

theorem execs_trapEntry (ret : Word) (r : Regs) (m : Mem) (ha : Aligned r.sp) :
    ∃ r' m', execs (trapEntry ret) (r, m) = some (r', m') ∧ TrapEntered ret r m r' m' := by
  have ha₁ : Aligned (down r.sp 18) := ha.down 18
  have ha₂ : Aligned (down r.sp 18 - 16#64) := ha₁.sub
  have hsub₁ : down r.sp 18 - 16#64 = down r.sp 20 := by unfold down; bv_omega
  have hsub₂ : down r.sp 20 - 16#64 = down r.sp 22 := by unfold down; bv_omega
  have hadd₁ : down r.sp 18 = down r.sp 20 + BitVec.ofNat 64 (8 * 2) := by
    unfold down
    bv_omega
  have hadd₂ : down r.sp 20 = down r.sp 22 + BitVec.ofNat 64 (8 * 2) := by
    unfold down
    bv_omega
  have hw : (slots userPairs).map r.x = List.ofFn (UserContext.of r).x := by
    simp [userPairs, UserContext.of, List.ofFn_succ, scratchRegs]
  have hm : store (store (store m (down r.sp 18) ((slots userPairs).map r.x)) (down r.sp 20)
      [r.sys .spsrEl1, r.sys .elrEl1]) (down r.sp 22) [r.x .x30, r.sys .spEl0] =
      store m (down r.sp 22) (UserContext.of r).words := by
    have hs₁ := store_store m (down r.sp 20) [r.sys .spsrEl1, r.sys .elrEl1]
      ((slots userPairs).map r.x) (by simp [userPairs])
    have hs₂ := store_store m (down r.sp 22) [r.x .x30, r.sys .spEl0]
      ([r.sys .spsrEl1, r.sys .elrEl1] ++ (slots userPairs).map r.x) (by simp [userPairs])
    rw [List.length_cons, List.length_singleton, ← hadd₁] at hs₁
    rw [List.length_cons, List.length_singleton, ← hadd₂] at hs₂
    rw [hs₁, hs₂, hw]
    rfl
  rw [trapEntry_eq, execs_append, execs_push _ _ _ ha (by decide)]
  have hlen : (slots userPairs).length = 18 := rfl
  simp only [Option.bind_some, execs_cons, execs_nil, exec, Regs.set, hlen, ha₁, ha₂, if_true]
  refine ⟨_, _, rfl, ?_, ?_, ?_, ?_, ?_, ?_⟩
  · rw [hsub₁, hsub₂, ← hm]
    rfl
  · rw [hsub₁, hsub₂]
  · simp
  · simp
  · intro i h0 h1 h30
    simp [Function.update_of_ne h0, Function.update_of_ne h1, Function.update_of_ne h30]
  · rfl

/-- What `trap_return` leaves. -/
structure TrapReturned (r : Regs) (m : Mem) (r' : Regs) : Prop where
  ctx : UserContext.of r' = UserContext.load m r.sp
  sp : r'.sp = dword r.sp UserContext.size
  x : ∀ i ∉ scratchRegs, i ≠ .x30 → r'.x i = r.x i

theorem execs_trapReturn (r : Regs) (m : Mem) (ha : Aligned r.sp) :
    ∃ r', execs trapReturn (r, m) = some (r', m) ∧ TrapReturned r m r' := by
  have hnd : (slots userPairs).Nodup := by decide
  have ha₁ : Aligned (r.sp + 16#64) := ha.add
  have ha₂ : Aligned (r.sp + 16#64 + 16#64) := ha₁.add
  rw [trapReturn_eq, execs_append]
  simp only [execs_cons, execs_nil, exec, Regs.set, ha, ha₁, if_true, Option.bind_some]
  rw [execs_pop _ _ _ ha₂]
  have h4 : r.sp + 16#64 + 16#64 = dword r.sp 4 := by unfold dword; bv_omega
  have hs : ∀ i, dword (dword r.sp 4) i = dword r.sp (4 + i) := dword_add r.sp 4
  have h3 : r.sp + 16#64 + 8#64 = dword r.sp 3 := by unfold dword; bv_omega
  refine ⟨_, rfl, ?_, by rw [h4]; exact hs 18, ?_⟩
  · refine UserContext.ext ?_ rfl rfl ?_ (funext fun i => ?_)
    · have h30 : Reg.x30 ∉ slots userPairs := by decide
      simp [UserContext.of, UserContext.load, popped_of_notMem _ _ _ h30]
    · simp [UserContext.of, UserContext.load, h3]
    · have hi : (slots userPairs)[i.val]? = some (scratchRegs.get i) := by
        revert i
        decide
      obtain ⟨hlt, hi⟩ := List.getElem?_eq_some_iff.mp hi
      simp only [UserContext.of, UserContext.load, ← hi, h4]
      rw [popped_getElem _ _ _ hnd hlt, hs]
  · intro i hi h30
    have hsl : i ∉ slots userPairs := hi
    have h0 : i ≠ .x0 := by
      rintro rfl
      exact hi (by decide)
    have h1 : i ≠ .x1 := by
      rintro rfl
      exact hi (by decide)
    simp [popped_of_notMem _ _ _ hsl, Function.update_of_ne h0, Function.update_of_ne h1,
      Function.update_of_ne h30]

end OsLab
