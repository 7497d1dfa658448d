/-!
# Double-precision numbers

A 64-bit binary floating-point number is kept as its bit pattern, so
that every pattern, each NaN included, passes through a run unchanged.
The fields of the pattern, the numeric comparison (in which a NaN equals
nothing and the two zeros are equal) and the passage to and from machine
arithmetic.
-/

namespace Intake

/-- A double-precision number, given by its bit pattern. -/
structure Binary64 where
  /-- sign, 11 bits of exponent, 52 bits of fraction -/
  bits : UInt64
  deriving DecidableEq, Inhabited, Repr

namespace Binary64

/-- The bit above the 52 bits of fraction, which is not stored. -/
def hiddenBit : Nat := 0x10000000000000

/-- Whether the sign bit is set. -/
def negative (x : Binary64) : Bool := 0x8000000000000000 ≤ x.bits.toNat

/-- The 11-bit exponent field. -/
def exponentField (x : Binary64) : Nat := x.bits.toNat / hiddenBit % 0x800

/-- The 52-bit fraction field. -/
def fraction (x : Binary64) : Nat := x.bits.toNat % hiddenBit

def isNaN (x : Binary64) : Bool := x.exponentField == 2047 && x.fraction != 0

def isInfinite (x : Binary64) : Bool := x.exponentField == 2047 && x.fraction == 0

def isFinite (x : Binary64) : Bool := x.exponentField != 2047

/-- Whether the number is one of the two zeros. -/
def isZero (x : Binary64) : Bool := x.exponentField == 0 && x.fraction == 0

/-- The integer `m` in the magnitude `m · 2 ^ (e - 1075)` of a finite
number. -/
def significand (x : Binary64) : Nat :=
  if x.exponentField = 0 then x.fraction else hiddenBit + x.fraction

/-- The `e` in the magnitude `m · 2 ^ (e - 1075)` of a finite number. -/
def scale (x : Binary64) : Nat := max x.exponentField 1

/-- Numeric equality: a NaN equals nothing, and the zeros are equal. -/
def agrees (x y : Binary64) : Bool :=
  !x.isNaN && !y.isNaN && (x.bits == y.bits || (x.isZero && y.isZero))

/-- The number for machine arithmetic. -/
def toFloat (x : Binary64) : Float := Float.ofBits x.bits

/-- The pattern of a machine number. -/
def ofFloat (f : Float) : Binary64 := ⟨f.toBits⟩

/-- The double nearest to a natural number. -/
def ofNat (n : Nat) : Binary64 := ofFloat (Float.ofNat n)

/-- The double nearest to an integer. -/
def ofInt (n : Int) : Binary64 := ofFloat (Float.ofInt n)

end Binary64

end Intake
