import Mathlib.Data.Nat.Digits.Defs
import Mathlib.Data.List.Infix
import Mathlib.Data.List.Forall2

/-!
# Formatted output

`vformat` of `common/format.c` with its `_print_int`, and the `strncmp` of `common/string.c` as
far as it reads memory.  A string is its bytes with the `'\0'` at the end, and a read past the
`'\0'` fails, as does a store past the end of the 64 bytes of `buf`.  A `va_list` is the list of
the arguments that are left, each of the type that the caller passed.

Over it stands what a format string means: it is cut into characters and directives (`Parses`),
in one way only, and each directive takes the next argument and writes it (`Directive.render`).

## Main definitions

* `CString`, `VArg`, `VFormat` — strings, arguments and the state of a call.
* `printInt`, `vformat` — the code.
* `Directive`, `Parses`, `output` — the meaning of a format string.
* `numeral`, `Shortest` — the numeral of a number, without leading zeros.
-/

namespace OsLab

/-- A character constant. -/
def ch (c : Char) : UInt8 := UInt8.ofNat c.toNat

/-- A string in memory. -/
structure CString where
  chars : List UInt8
  noNul : 0 ∉ chars

/-- Its bytes, up to the `'\0'`. -/
def CString.bytes (s : CString) : List UInt8 := s.chars ++ [0]

/-- An argument: an `int` or `unsigned`, a 64-bit integer or pointer, or a `const char *`. -/
inductive VArg
  | word32 (x : BitVec 32)
  | word64 (x : BitVec 64)
  /-- `none` is `NULL` -/
  | str (s : Option CString)

/-- The type that a directive passes to `va_arg`. -/
inductive CType
  | u32 | i32 | u64 | i64 | usize | isize
  deriving DecidableEq, Repr

/-- One use of `_INT_CASE`. -/
structure IntCase where
  ident : List UInt8
  type : CType
  base : ℕ
  sign : Bool
  deriving DecidableEq

/-- The uses of `_INT_CASE`, in order. -/
def intCases : List IntCase := [
  ⟨[ch 'u'], .u32, 10, false⟩,
  ⟨[ch 'l', ch 'l', ch 'u'], .u64, 10, false⟩,
  ⟨[ch 'd'], .i32, 10, true⟩,
  ⟨[ch 'l', ch 'l', ch 'd'], .i64, 10, true⟩,
  ⟨[ch 'x'], .u32, 16, false⟩,
  ⟨[ch 'l', ch 'l', ch 'x'], .u64, 16, false⟩,
  ⟨[ch 'p'], .u64, 16, false⟩,
  ⟨[ch 'z', ch 'u'], .usize, 10, false⟩,
  ⟨[ch 'z', ch 'd'], .isize, 10, true⟩]

/-- `"(null)"` -/
def nullChars : List UInt8 := [ch '(', ch 'n', ch 'u', ch 'l', ch 'l', ch ')']

/-- `digit`, without its `'\0'`. -/
def digits16 : List UInt8 :=
  [ch '0', ch '1', ch '2', ch '3', ch '4', ch '5', ch '6', ch '7', ch '8', ch '9', ch 'a', ch 'b',
    ch 'c', ch 'd', ch 'e', ch 'f']

/-! ## The code -/

/-- What `put_char` has been called with, the `buf` of `_print_int`, and the arguments left. -/
structure VFormat where
  out : List UInt8
  buf : List UInt8
  arg : List VArg

/-- `put_char(ctx, c)` -/
def VFormat.putChar (f : VFormat) (c : UInt8) : VFormat := { f with out := f.out ++ [c] }

/-- `strncmp(s1 + pos, s2, n)` from index `i` on. -/
def strncmpFrom (s1 : List UInt8) (pos : ℕ) (s2 : List UInt8) : ℕ → ℕ → Option ℤ
  | 0, _ => some 0
  | n + 1, i => do
      let a ← s1[pos + i]?
      let b ← s2[i]?
      if a ≠ b then some (a.toNat - b.toNat)
      else if a = 0 ∨ b = 0 then some 0
      else strncmpFrom s1 pos s2 n (i + 1)

/-- The first loop of `_print_int`: the digits from the last on, stored from `buf[pos]` on, and
the position after them.  A round stores one byte, so that 64 of them fill `buf`. -/
def digitLoop (base : BitVec 64) : ℕ → BitVec 64 → List UInt8 → ℕ → Option (List UInt8 × ℕ)
  | 0, _, _, _ => none
  | fuel + 1, v, buf, pos =>
      if pos < buf.length then do
        let d ← digits16[(v % base).toNat]?
        let buf := buf.set pos d
        let v := v / base
        if v ≠ 0 then digitLoop base fuel v buf (pos + 1) else some (buf, pos + 1)
      else none

/-- Its second loop, from position `pos` down. -/
def putLoop (buf : List UInt8) : ℕ → List UInt8 → Option (List UInt8)
  | 0, _ => none
  | pos + 1, out => do
      let c ← buf[pos]?
      if pos ≠ 0 then putLoop buf pos (out ++ [c]) else some (out ++ [c])

/-- `_print_int` -/
def printInt (f : VFormat) (u : BitVec 64) (base : ℕ) (isSigned : Bool) : Option VFormat := do
  let neg := isSigned && u.slt 0
  let v := if neg then -u else u
  let f := if neg then f.putChar (ch '-') else f
  let (buf, pos) ← digitLoop (BitVec.ofNat 64 base) 65 v f.buf 0
  let out ← putLoop buf pos f.out
  some { f with out := out, buf := buf }

/-- `(i64)va_arg(arg, type)`; the argument is there and has a type of this size. -/
def vaArgInt : CType → List VArg → Option (BitVec 64 × List VArg)
  | .u32, .word32 x :: arg => some (x.setWidth 64, arg)
  | .i32, .word32 x :: arg => some (x.signExtend 64, arg)
  | .u64, .word64 x :: arg => some (x, arg)
  | .i64, .word64 x :: arg => some (x, arg)
  | .usize, .word64 x :: arg => some (x, arg)
  | .isize, .word64 x :: arg => some (x, arg)
  | _, _ => none

/-- The chain of the `_INT_CASE`s: the length of the one whose name `pos` starts with, after its
argument has been printed. -/
def intCase (fmt : List UInt8) (pos : ℕ) (f : VFormat) :
    List IntCase → Option (Option (ℕ × VFormat))
  | [] => some none
  | k :: ks => do
      let r ← strncmpFrom fmt pos (k.ident ++ [0]) k.ident.length 0
      if r = 0 then do
        let (x, arg) ← vaArgInt k.type f.arg
        let f ← printInt { f with arg := arg } x k.base k.sign
        some (some (k.ident.length, f))
      else intCase fmt pos f ks

/-- `while (*s != '\0') put_char(ctx, *s++);` from index `i` on. -/
def putString (s : List UInt8) : ℕ → ℕ → VFormat → Option VFormat
  | 0, _, _ => none
  | fuel + 1, i, f => do
      let c ← s[i]?
      if c = 0 then some f else putString s fuel (i + 1) (f.putChar c)

/-- The loop of `vformat`.  A round reads a character at least. -/
def vformatLoop (fmt : List UInt8) : ℕ → ℕ → VFormat → Option VFormat
  | 0, _, _ => none
  | fuel + 1, pos, f => do
      let c ← fmt[pos]?
      let pos := pos + 1
      if c = 0 then some f
      else if c = ch '%' then do
        let c' ← fmt[pos]?
        if c' = ch '%' then vformatLoop fmt fuel (pos + 1) (f.putChar (ch '%'))
        else if c' = ch 'c' then
          match f.arg with
          | .word32 x :: arg =>
              vformatLoop fmt fuel (pos + 1)
                ({ f with arg := arg }.putChar (UInt8.ofBitVec (x.setWidth 8)))
          | _ => none
        else if c' = ch 's' then
          match f.arg with
          | .str s :: arg => do
              let bytes := match s with
                | some s => s.bytes
                | none => nullChars ++ [0]
              let f ← putString bytes bytes.length 0 { f with arg := arg }
              vformatLoop fmt fuel (pos + 1) f
          | _ => none
        else do
          match ← intCase fmt pos f intCases with
          | some (n, f) => vformatLoop fmt fuel (pos + n) f
          | none => vformatLoop fmt fuel pos (f.putChar c)
      else vformatLoop fmt fuel pos (f.putChar c)

/-- `vformat` -/
def vformat (fmt : CString) (f : VFormat) : Option VFormat :=
  vformatLoop fmt.bytes fmt.bytes.length 0 f

/-! ## The meaning of a format string -/

/-- `c`, `s`, and the directives for integers. -/
inductive Directive
  | char
  | str
  | int (k : IntCase)
  deriving DecidableEq

namespace Directive

def ident : Directive → List UInt8
  | char => [ch 'c']
  | str => [ch 's']
  | int k => k.ident

end Directive

/-- The directives that are recognised. -/
def directives : List Directive := .char :: .str :: intCases.map .int

/-- A part of a format string. -/
inductive Piece
  | lit (c : UInt8)
  | dir (d : Directive)

/-- **The format string is cut into these pieces.**  A `%` that starts neither `%%` nor a directive
stands for itself. -/
inductive Parses : List UInt8 → List Piece → Prop
  | nil : Parses [] []
  | lit {c : UInt8} {l : List UInt8} {ps : List Piece} :
      c ≠ ch '%' → Parses l ps → Parses (c :: l) (.lit c :: ps)
  | percent {l : List UInt8} {ps : List Piece} :
      Parses l ps → Parses (ch '%' :: ch '%' :: l) (.lit (ch '%') :: ps)
  | dir {d : Directive} {l : List UInt8} {ps : List Piece} :
      d ∈ directives → Parses l ps → Parses (ch '%' :: (d.ident ++ l)) (.dir d :: ps)
  | other {l : List UInt8} {ps : List Piece} :
      ¬ [ch '%'] <+: l → (∀ d ∈ directives, ¬ d.ident <+: l) → Parses l ps →
      Parses (ch '%' :: l) (.lit (ch '%') :: ps)

/-- The directives of a format string, in order. -/
def Piece.directive? : Piece → Option Directive
  | lit _ => none
  | dir d => some d

/-- **The numeral** of `n`: its digits from the first on, and `0` for zero. -/
def numeral (b n : ℕ) : List UInt8 :=
  if n = 0 then [ch '0'] else (Nat.digits b n).reverse.map fun d => digits16.getD d 0

/-- These are digits of `n`, the last one first. -/
def Denotes (b n : ℕ) (ds : List ℕ) : Prop :=
  ds ≠ [] ∧ (∀ d ∈ ds, d < b) ∧ Nat.ofDigits b ds = n

/-- `t` is a numeral of `n`, and none is shorter. -/
def Shortest (b n : ℕ) (t : List UInt8) : Prop :=
  ∃ ds, Denotes b n ds ∧ t = (ds.reverse.map fun d => digits16.getD d 0) ∧
    ∀ ds', Denotes b n ds' → ds.length ≤ ds'.length

/-- The number that an argument of this type stands for. -/
def CType.value : CType → VArg → Option ℤ
  | u32, .word32 x => some x.toNat
  | i32, .word32 x => some x.toInt
  | u64, .word64 x => some x.toNat
  | i64, .word64 x => some x.toInt
  | usize, .word64 x => some x.toNat
  | isize, .word64 x => some x.toInt
  | _, _ => none

/-- What a directive writes for an argument. -/
def Directive.render : Directive → VArg → Option (List UInt8)
  | char, .word32 x => some [UInt8.ofBitVec (x.setWidth 8)]
  | str, .str (some s) => some s.chars
  | str, .str none => some nullChars
  | int k, a => (k.type.value a).map fun z =>
      if z < 0 then ch '-' :: numeral k.base z.natAbs else numeral k.base z.natAbs
  | _, _ => none

/-- What the pieces write, each directive with the next argument. -/
def output : List Piece → List VArg → List UInt8
  | [], _ => []
  | .lit c :: ps, args => c :: output ps args
  | .dir d :: ps, a :: args => (d.render a).getD [] ++ output ps args
  | .dir _ :: _, [] => []

/-- **A matching argument list**: one for each directive, of its type. -/
def Matches (ps : List Piece) (args : List VArg) : Prop :=
  List.Forall₂ (fun d a => (d.render a).isSome) (ps.filterMap Piece.directive?) args

end OsLab
