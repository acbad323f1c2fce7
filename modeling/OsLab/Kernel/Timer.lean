import OsLab.Kernel.SchedQueue
import OsLab.Lib.Run
import Mathlib.Algebra.Group.Nat.Defs

/-!
# Timers

The timers of `kernel/cpu.c` on the clock of `driver/clock.c`.  Each CPU keeps its timers in
a tree in the order of the time they are due, and sets its clock to the first of them.

A call reads the system counter several times; the readings are arguments of the step, in
the order of the source.  `timer->handler` is other code: the call is recorded, and what the
handler does are steps of their own, as are the later rounds of the loop of
`timer_clock_handler`, which may go on on another CPU if the handler yields.

Next to the state of the kernel there is `armed`, the CPU on which a timer was set and neither
cancelled nor called: the callers of `set_cpu_timer` and `cancel_cpu_timer` have to know it.

## Main definitions

* `TimerSys`, `TimerSys.step` — the timers and the clocks.
* `TimerSys.Ok` — the calls the kernel makes, and when the hardware interrupts.
* `Alarms`, `Alarms.Step` — what timers are for.
-/

namespace OsLab

open RbTree

/-- The timers by their `_node`, and the rate of the system counter. -/
structure TimerLayout where
  timers : Finset ℕ
  isNode : ∀ t ∈ timers, IsNode t
  /-- `clock.one_ms` -/
  oneMs : UInt64
  oneMs_pos : 0 < oneMs.toNat
  /-- `reset_clock(1000)` passes its assertion. -/
  second : 1000 * oneMs.toNat ≤ 0x7fffffff
  /-- The ticks that may pass between the last two readings of the counter in a call -/
  lag : ℕ

/-- `struct timer`, `cpu.timer`, and the clock of each CPU -/
structure TimerSys where
  tree : RbForest
  triggered : ℕ → Bool
  elapse : ℕ → Int32
  key : ℕ → UInt64
  /-- `cntp_cval_el0` -/
  cval : ℕ → UInt64
  /-- the last reading of the counter -/
  now : UInt64
  armed : ℕ → Option ℕ
  /-- the calls of handlers, with the CPU, the last one first -/
  called : List (ℕ × ℕ)

/-- `__timer_cmp(lnode, rnode)` -/
def timerCmp (key : ℕ → UInt64) (lnode rnode : ℕ) : Bool := schedCmp key lnode rnode

inductive TimerOp
  /-- `t->elapse = e` and `set_cpu_timer(t)` on the CPU `k` -/
  | set (k t : ℕ) (e : Int32) (n₀ n₁ n₂ : UInt64)
  /-- `cancel_cpu_timer(t)` -/
  | cancel (k t : ℕ) (n₁ n₂ : UInt64)
  /-- A clock interrupt: `timer_clock_handler` with the first round of its loop -/
  | clock (k : ℕ) (n₀ n n₁ n₂ : UInt64)
  /-- One more round -/
  | round (k : ℕ) (n n₁ n₂ : UInt64)

namespace TimerSys

variable (L : TimerLayout) (s : TimerSys)

/-- The rounds for a loop over a tree -/
def fuel : ℕ := L.timers.card + 1

/-- `get_timestamp_ms()`, if the counter is at `n` -/
def getTimestampMs (n : UInt64) : UInt64 := n / L.oneMs

/-- `reset_clock(countdown_ms)` on the CPU `k`, if the counter is at `n` -/
def resetClock (k : ℕ) (countdownMs n : UInt64) : Option TimerSys :=
  let t := countdownMs * L.oneMs
  if t ≤ 0x7fffffff then some { s with cval := Function.update s.cval k (n + t) } else none

/-- `__timer_set_clock()` -/
def timerSetClock (k : ℕ) (n₁ n₂ : UInt64) : Option TimerSys := do
  let node ← rbFirst (fuel L) (s.tree.mem k)
  if node = 0 then s.resetClock L k 1000 n₂
  else
    let t1 := s.key node
    let t0 := getTimestampMs L n₁
    if t1 ≤ t0 then s.resetClock L k 0 n₂ else s.resetClock L k (t1 - t0) n₂

/-- `set_cpu_timer(timer)` -/
def setCpuTimer (k t : ℕ) (n₀ n₁ n₂ : UInt64) : Option TimerSys := do
  let s := { s with triggered := Function.update s.triggered t false }
  let s := { s with
    key := Function.update s.key t (getTimestampMs L n₀ + (s.elapse t).toInt64.toUInt64) }
  let (ret, m) ← rbInsert (timerCmp s.key) (fuel L) t (s.tree.mem k)
  if ret = 0 then
    let s := { s with tree := s.tree.set k m, armed := Function.update s.armed t (some k) }
    s.timerSetClock L k n₁ n₂
  else none

/-- `cancel_cpu_timer(timer)` -/
def cancelCpuTimer (k t : ℕ) (n₁ n₂ : UInt64) : Option TimerSys := do
  if s.triggered t then none
  else
    let m ← rbErase (fuel L) t (s.tree.mem k)
    let s := { s with tree := s.tree.set k m, armed := Function.update s.armed t none }
    s.timerSetClock L k n₁ n₂

/-- A round of the loop of `timer_clock_handler` -/
def handlerRound (k : ℕ) (n n₁ n₂ : UInt64) : Option TimerSys := do
  let node ← rbFirst (fuel L) (s.tree.mem k)
  if node = 0 then some s
  else if getTimestampMs L n < s.key node then some s
  else do
    let s ← s.cancelCpuTimer L k node n₁ n₂
    some { s with
      triggered := Function.update s.triggered node true
      called := (node, k) :: s.called }

/-- One step. -/
def step : TimerOp → Option TimerSys
  | .set k t e n₀ n₁ n₂ =>
      let s := { s with elapse := Function.update s.elapse t e }
      (s.setCpuTimer L k t n₀ n₁ n₂).map fun s => { s with now := n₂ }
  | .cancel k t n₁ n₂ => (s.cancelCpuTimer L k t n₁ n₂).map fun s => { s with now := n₂ }
  | .clock k n₀ n n₁ n₂ => do
      let s ← s.resetClock L k 1000 n₀
      let s ← s.handlerRound L k n n₁ n₂
      some { s with now := n₂ }
  | .round k n n₁ n₂ => (s.handlerRound L k n n₁ n₂).map fun s => { s with now := n₂ }

/-- Readings of the counter, one after the other. -/
def Later (ns : List UInt64) : Prop :=
  (s.now :: ns).Pairwise (· ≤ ·) ∧ ∀ n ∈ ns, n.toNat < 2 ^ 62

/-- The calls the kernel makes: a timer is set that is not set already, with a time the clock can
count, and cancelled on its own CPU; and an interrupt comes when the counter is at the value that
the clock was set to. -/
def Ok : TimerOp → Prop
  | .set _ t e n₀ n₁ n₂ =>
      t ∈ L.timers ∧ s.armed t = none ∧ 0 ≤ e.toInt ∧ e.toInt.toNat * L.oneMs.toNat ≤ 0x7fffffff ∧
        s.Later [n₀, n₁, n₂] ∧ n₂.toNat ≤ n₁.toNat + L.lag
  | .cancel k t n₁ n₂ =>
      s.armed t = some k ∧ s.Later [n₁, n₂] ∧ n₂.toNat ≤ n₁.toNat + L.lag
  | .clock k n₀ n n₁ n₂ =>
      s.cval k ≤ n₀ ∧ s.Later [n₀, n, n₁, n₂] ∧ n₂.toNat ≤ n₁.toNat + L.lag
  | .round _ n n₁ n₂ => s.Later [n, n₁, n₂] ∧ n₂.toNat ≤ n₁.toNat + L.lag

/-- The state after `init_clock` on all CPUs, which had set nothing before. -/
structure Init : Prop where
  roots : ∀ k, s.tree.root k = 0
  armed : ∀ t, s.armed t = none
  called : s.called = []

end TimerSys

/-! ## What timers are for -/

/-- The CPU of each timer that is set, and the millisecond it is due; and the calls. -/
structure Alarms where
  due : ℕ → Option (ℕ × ℕ)
  called : List (ℕ × ℕ)

namespace Alarms

/-- The timer `t` is set to a time on the CPU `k`, or is set no more. -/
def put (a : Alarms) (t : ℕ) (d : Option (ℕ × ℕ)) : Alarms :=
  { a with due := Function.update a.due t d }

/-- No timer is set. -/
def init : Alarms := ⟨fun _ => none, []⟩

/-- The timer `t` is the first on the CPU `k`, by the time it is due and its address. -/
def First (a : Alarms) (k t d : ℕ) : Prop :=
  a.due t = some (k, d) ∧ ∀ t' d', a.due t' = some (k, d') → d < d' ∨ d = d' ∧ t ≤ t'

/-- A round of the handler at the counter `n` calls the first timer if it is due. -/
inductive Round (L : TimerLayout) (a : Alarms) (k : ℕ) (n : UInt64) : Alarms → Prop
  | call {t d : ℕ} : a.First k t d → d ≤ n.toNat / L.oneMs.toNat →
      Round L a k n { a.put t none with called := (t, k) :: a.called }
  | quiet : (∀ t d, a.due t = some (k, d) → n.toNat / L.oneMs.toNat < d) → Round L a k n a

/-- One step. -/
inductive Step (L : TimerLayout) (a : Alarms) : TimerOp → Alarms → Prop
  | set {k t : ℕ} {e : Int32} {n₀ n₁ n₂ : UInt64} : a.due t = none →
      Step L a (.set k t e n₀ n₁ n₂)
        (a.put t (some (k, n₀.toNat / L.oneMs.toNat + e.toInt.toNat)))
  | cancel {k t d : ℕ} {n₁ n₂ : UInt64} : a.due t = some (k, d) →
      Step L a (.cancel k t n₁ n₂) (a.put t none)
  | clock {k : ℕ} {n₀ n n₁ n₂ : UInt64} {a' : Alarms} : Round L a k n a' →
      Step L a (.clock k n₀ n n₁ n₂) a'
  | round {k : ℕ} {n n₁ n₂ : UInt64} {a' : Alarms} : Round L a k n a' →
      Step L a (.round k n n₁ n₂) a'

/-- A run -/
inductive Run (L : TimerLayout) (a₀ : Alarms) : List TimerOp → Alarms → Prop
  | nil : Run L a₀ [] a₀
  | snoc {ops : List TimerOp} {op : TimerOp} {a a' : Alarms} :
      Run L a₀ ops a → a.Step L op a' → Run L a₀ (ops ++ [op]) a'

end Alarms

end OsLab
