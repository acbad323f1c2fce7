import OsLab.Kernel.Swtch
import OsLab.Kernel.Mmu
import Mathlib.Algebra.Group.Nat.Defs
import OsLab.Lib.Run

/-!
# Processes on cores

The registers of the processes over whole runs.  Each core runs the C code of the
kernel, or a program, on the kernel stack of one process; it traps and returns, and
`simple_sched` takes it to the stack of another process, which any core may have left
there.  Compiled C code is taken as code that leaves alone what the assembly has saved,
stays on its stack below that, and comes back with the registers `x19` to `x29` and the
stack pointer it was entered with, as the procedure call standard says.  The scheduler
holds its lock across `swtch`, so a switch is one step.

The step function keeps, next to the machine, what was saved for each process and not yet
loaded: it is written where the assembly saves registers, dropped where it loads them, and
read only by the theorems and to tell a process that can be switched to.

## Main definitions

* `Saved` — registers that were saved.
* `ContextSys`, `ContextSys.step` — the machine.
* `ContextSys.CodeOk` — what compiled code does and does not do.
-/

namespace OsLab

open Asm

/-- `NR_SYSCALL` -/
def nrSyscall : ℕ := 512

/-- The cases of `trap_global_handler`. -/
inductive TrapCase
  | interrupt
  | syscall
  | pagefault
  | panic
  deriving DecidableEq, Repr

/-- The `switch` of `trap_global_handler`. -/
def trapCase (esr : Word) : TrapCase :=
  let ec := esr >>> 26
  let ir := esr &&& (1#64 <<< 25)
  if ec = 0x00 then (if ir ≠ 0 then .panic else .interrupt)
  else if ec = 0x15 then .syscall
  else if ec = 0x20 ∨ ec = 0x21 ∨ ec = 0x24 ∨ ec = 0x25 then .pagefault
  else .panic

/-- The registers `x19` to `x29`. -/
def calleeSaved (r : Regs) : Fin 11 → Word := (KernelContext.of r).x

/-- Registers that were saved on a kernel stack and not yet loaded. -/
inductive Saved
  /-- by `trap_entry`; `ret` is what `syscall_entry` has put in the place of `x0` -/
  | trap (u : UserContext) (x : Fin 11 → Word) (sp esr : Word) (ret : Option Word)
  /-- by `swtch` -/
  | away (k : KernelContext) (sp : Word)

namespace Saved

/-- The stack pointer before the registers were saved. -/
def sp : Saved → Word
  | .trap _ _ sp _ _ => sp
  | .away _ sp => sp

/-- The number of doublewords. -/
def size : Saved → ℕ
  | .trap .. => UserContext.size
  | .away .. => KernelContext.size

/-- The address of the structure. -/
def base (a : Saved) : Word := down a.sp a.size

def isTrap : Saved → Bool
  | .trap .. => true
  | .away .. => false

/-- A context with the result of a system call in the place of `x0`. -/
def withRet (u : UserContext) : Option Word → UserContext
  | none => u
  | some v => u.setX0 v

/-- The structure is in memory. -/
def Holds (m : Mem) (a : Saved) : Prop :=
  match a with
  | .trap u _ _ _ ret => UserContext.load m a.base = withRet u ret
  | .away k _ => KernelContext.load m a.base = k

/-- The doublewords of the structure. -/
def Covers (a : Saved) (b : Word) : Prop := a.base.toNat ≤ b.toNat ∧ b.toNat < a.sp.toNat

end Saved

/-- The symbols that are used as addresses, and the field `kcontext` of each process. -/
structure Symbols (P : Type) where
  procEntry : Word
  trapReturn : Word
  kcontext : P → Word

/-- The machine: cores `C` and processes `P`. -/
structure ContextSys (C P : Type) where
  core : C → Regs
  mem : Mem
  thisproc : C → P
  /-- the bounds of the kernel stack of a process that exists -/
  kstack : P → Option (ℕ × ℕ)
  saved : P → List Saved

/-- What a core does. -/
inductive ContextOp (C P : Type)
  /-- Compiled code, or a program at EL0: new registers and some stores. -/
  | code (k : C) (r : Regs) (stores : List (Word × Word))
  /-- An exception, taken at `pc`, with `trap_entry`. -/
  | trap (k : C) (pc pstate esr : Word)
  /-- The store of `syscall_entry`. -/
  | syscallRet (k : C) (v : Word)
  /-- `trap_return` -/
  | trapRet (k : C)
  /-- The end of `simple_sched`, with `next` -/
  | sched (k : C) (next : P)
  /-- `init_proc`, with the page that `kalloc_page` gives -/
  | initProc (p : P) (kstack : ℕ)
  /-- `start_proc` -/
  | startProc (p : P) (entry arg : Word)
  /-- A kernel stack is given back.  `wait` frees the `proc` but not its stack, so no run of the
  source has this step. -/
  | freeStack (p : P)

namespace ContextSys

variable {C P : Type} [DecidableEq C] [DecidableEq P]

/-- The registers of a core. -/
def setCore (s : ContextSys C P) (k : C) (r : Regs) : ContextSys C P :=
  { s with core := Function.update s.core k r }

/-- What is saved for a process. -/
def setSaved (s : ContextSys C P) (p : P) (as : List Saved) : ContextSys C P :=
  { s with saved := Function.update s.saved p as }

/-- The offset of the `KernelContext` of a new process, and of its `UserContext`, in its
kernel stack. -/
def kcontextOffset : ℕ := pageSize - 16 - 8 * KernelContext.size - 8 * UserContext.size

def ucontextOffset : ℕ := pageSize - 16 - 8 * UserContext.size

/-- One step. -/
def step (K : Symbols P) (s : ContextSys C P) : ContextOp C P → Option (ContextSys C P)
  | .code k r stores =>
      some { s.setCore k r with mem := stores.foldl (fun m w => store m w.1 [w.2]) s.mem }
  | .trap k pc pstate esr =>
      let p := s.thisproc k
      let r := s.core k
      -- the exception sets both registers before `trap_entry` runs
      let r := { r with
        sys := Function.update (Function.update r.sys .elrEl1 pc) .spsrEl1 pstate }
      (execs (trapEntry K.trapReturn) (r, s.mem)).map fun t =>
        { (s.setCore k t.1).setSaved p
            (.trap (.of r) (calleeSaved r) r.sp esr none :: s.saved p) with mem := t.2 }
  | .syscallRet k v =>
      let p := s.thisproc k
      match s.saved p with
      | .trap u x sp esr none :: rest =>
          let context := down sp UserContext.size
          let id := (UserContext.load s.mem context).x8
          if trapCase esr = .syscall ∧ id.toNat < nrSyscall then
            some { s.setSaved p (.trap u x sp esr (some v) :: rest) with
              mem := store s.mem (dword context 4) [v] }
          else none
      | _ => none
  | .trapRet k =>
      let p := s.thisproc k
      match s.saved p with
      | .trap .. :: rest =>
          (execs trapReturn (s.core k, s.mem)).map fun t =>
            { (s.setCore k t.1).setSaved p rest with mem := t.2 }
      | _ => none
  | .sched k next =>
      let p := s.thisproc k
      let r := s.core k
      -- `swtch(next->kcontext, &this->kcontext)`
      let r := (r.set .x0 (s.mem (K.kcontext next))).set .x1 (K.kcontext p)
      match s.saved next with
      | .away .. :: rest =>
          if next = p then none
          else
            (execs swtch (r, s.mem)).map fun t =>
              { ((s.setCore k t.1).setSaved p (.away (.of r) r.sp :: s.saved p)).setSaved next rest
                  with
                mem := t.2
                thisproc := Function.update s.thisproc k next }
      | _ => none
  | .initProc p kstack =>
      let kcontext := BitVec.ofNat 64 (kstack + kcontextOffset)
      some { s.setSaved p [] with
        mem := store s.mem (K.kcontext p) [kcontext]
        kstack := Function.update s.kstack p (some (kstack, kstack + pageSize - 16)) }
  | .startProc p entry arg =>
      let kcontext := s.mem (K.kcontext p)
      let mem := store s.mem kcontext [K.procEntry, entry, arg]
      let ctx := KernelContext.load mem kcontext
      let sp := dword kcontext KernelContext.size
      -- the `UserContext` of the process lies behind; only a process that is to go to
      -- `trap_return` uses it
      let frame := Saved.trap (.load mem sp) ctx.x (dword sp UserContext.size) 0 none
      some { s.setSaved p (.away ctx sp :: if entry = K.trapReturn then [frame] else []) with
        mem := mem }
  | .freeStack p => some { s.setSaved p [] with kstack := Function.update s.kstack p none }

/-! ## Compiled code -/

/-- The doublewords that only the assembly, `init_proc` and `start_proc` write: what was saved
and not yet loaded, and the fields `kcontext`. -/
def Protected (K : Symbols P) (s : ContextSys C P) (b : Word) : Prop :=
  (∃ p, ∃ a ∈ s.saved p, a.Covers b) ∨ ∃ p, (s.kstack p).isSome ∧ b = K.kcontext p

/-- The end of the free part of a stack. -/
def limit (hi : ℕ) : List Saved → ℕ
  | [] => hi
  | a :: _ => a.base.toNat

/-- The stack pointer is on the stack of the process, below what was saved there, with `n`
doublewords left. -/
def Room (s : ContextSys C P) (p : P) (sp : Word) (n : ℕ) : Prop :=
  ∃ lo hi, s.kstack p = some (lo, hi) ∧ lo + 8 * n ≤ sp.toNat ∧ sp.toNat ≤ limit hi (s.saved p) ∧
    Aligned sp

/-- A process that is on no core. -/
def Off (s : ContextSys C P) (p : P) : Prop := ∀ k, s.thisproc k ≠ p

/-- What compiled code and its callers see to: the procedure call standard, room on the stack,
and what `kalloc_page` promises. -/
def CodeOk (K : Symbols P) (s : ContextSys C P) : ContextOp C P → Prop
  | .code k r stores =>
      s.Room (s.thisproc k) r.sp 0 ∧ ∀ w ∈ stores, Aligned w.1 ∧ ¬ s.Protected K w.1
  | .trap k _ _ _ => s.Room (s.thisproc k) (s.core k).sp UserContext.size
  | .syscallRet _ _ => True
  | .trapRet k =>
      -- `trap_global_handler` returns, or `proc_entry` does
      ∀ u x sp esr ret rest, s.saved (s.thisproc k) = .trap u x sp esr ret :: rest →
        (s.core k).sp = down sp UserContext.size ∧ calleeSaved (s.core k) = x
  | .sched k _ => s.Room (s.thisproc k) (s.core k).sp KernelContext.size
  | .initProc p kstack =>
      s.kstack p = none ∧ Aligned (K.kcontext p) ∧ kstack % pageSize = 0 ∧
        kstack + pageSize ≤ 2 ^ 64 ∧
        (∀ q lo hi, s.kstack q = some (lo, hi) →
          (hi ≤ kstack ∨ kstack + pageSize ≤ lo) ∧ K.kcontext q ≠ K.kcontext p ∧
          ¬(lo ≤ (K.kcontext p).toNat ∧ (K.kcontext p).toNat < hi) ∧
          ¬(kstack ≤ (K.kcontext q).toNat ∧ (K.kcontext q).toNat < kstack + pageSize)) ∧
        ¬(kstack ≤ (K.kcontext p).toNat ∧ (K.kcontext p).toNat < kstack + pageSize)
  | .startProc p _ _ => (s.kstack p).isSome ∧ s.Off p ∧ s.saved p = []
  | .freeStack p => s.Off p

end ContextSys

end OsLab
