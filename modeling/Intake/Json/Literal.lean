import Intake.Json.Basic
/-!
# Number literals

A literal is cut into its sign, its significant digits and a power of
ten. Of the digits, those are kept that fit 64 bits; the kept integer is
rounded to a double and then scaled once, by a multiplication or a
division with a power of ten, or by several when the power is below
`1e-308`. A literal without fraction and exponent whose digits all fit
stays an integer.
-/

namespace Intake.Json

/-- The digits of a literal as far as they fit 64 bits. -/
structure Significand where
  /-- the digits that fit -/
  value : Nat
  /-- the power of ten by which `value` has to be multiplied -/
  exponent : Int
  /-- whether a digit has been left out -/
  full : Bool
  deriving DecidableEq, Repr

namespace Significand

def start : Significand := ⟨0, 0, false⟩

/-- Whether one more digit fits. -/
def fits (s : Significand) (digit : Nat) : Bool :=
  !s.full && s.value * 10 + digit < UInt64.size

/-- One more digit before the point; one that does not fit counts as a zero. -/
def pushWhole (s : Significand) (digit : Nat) : Significand :=
  if s.fits digit then { s with value := s.value * 10 + digit }
  else { s with exponent := s.exponent + 1, full := true }

end Significand

/-- The digits behind the point: those that fit are appended, and from
the first that does not fit on they are left out. -/
def pushFraction : Significand → List Nat → Significand
  | s, [] => s
  | s, d :: ds =>
    if s.value * 10 + d < UInt64.size then
      pushFraction { s with value := s.value * 10 + d, exponent := s.exponent - 1 } ds
    else s

/-- `10 ^ n` as a double. -/
def powerOfTen (n : Nat) : Float := Float.ofScientific 1 false n

/-- A double times a power of ten, `none` when it leaves the range of
doubles. Powers below `1e-308` are taken in several divisions, at most
`fuel`. -/
def scaled : Nat → Float → Int → Option Float
  | 0, f, _ => some f
  | fuel + 1, f, e =>
    if e.natAbs ≤ 308 then
      if 0 ≤ e then
        let g := f * powerOfTen e.natAbs
        if g.isInf then none else some g
      else some (f / powerOfTen e.natAbs)
    else if f == 0 then some f
    else if 0 ≤ e then none
    else scaled fuel (f / powerOfTen 308) (e + 308)

/-- A literal cut into parts: sign, digits before and behind the point,
and the exponent. -/
structure Literal where
  negative : Bool
  whole : List Nat
  fraction : Option (List Nat)
  /-- the exponent's sign and digits -/
  exponent : Option (Bool × List Nat)

namespace Literal

/-- A natural number from its decimal digits. -/
def ofDigits (ds : List Nat) : Nat := ds.foldl (fun n d => n * 10 + d) 0

/-- The largest exponent that is read as a number. -/
def exponentLimit : Nat := 0x7FFFFFFF

/-- The number a literal stands for. -/
def number (l : Literal) : Number :=
  let sign (f : Float) : Number := .real (Binary64.ofFloat (if l.negative then -f else f))
  let whole := l.whole.foldl Significand.pushWhole Significand.start
  let digits := pushFraction whole (l.fraction.getD [])
  let real (e : Int) : Number :=
    match scaled 8 (UInt64.ofNat digits.value).toFloat e with
    | some f => sign f
    | none => .beyond
  match l.fraction, l.exponent with
  | none, none =>
    -- only an integer that fits 64 bits stays exact; minus zero is a double
    if whole.full then real whole.exponent
    else if !l.negative then .int whole.value
    else if whole.value = 0 ∨ 0x8000000000000000 < whole.value then sign (UInt64.ofNat whole.value).toFloat
    else .int (-(whole.value : Int))
  | _, none => real digits.exponent
  | _, some (negative, ds) =>
    let e := ofDigits ds
    -- so large an exponent is zero or infinity whatever the digits
    if exponentLimit < e then
      if digits.value ≠ 0 ∧ !negative then .beyond else sign 0
    else if negative then real (digits.exponent - e)
    else real (digits.exponent + e)

end Literal

end Intake.Json
