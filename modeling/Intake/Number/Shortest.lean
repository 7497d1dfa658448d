import Intake.Number.Binary64
/-!
# The shortest decimal that reads back

A double stands for an interval of reals, those that round to it. Its
shortest decimal is the first of the grids of 1, 2, … significant digits
with a point inside the interval; only the two neighbours of the number
itself on a grid need a look. Of two such neighbours the nearer is
taken; which of two equally near depends on what the decimal is for.
-/

namespace Intake

/-- Which of two neighbours is taken that are equally near. -/
inductive Tie where
  /-- the one whose last digit is even -/
  | even
  /-- the larger one -/
  | above
  deriving DecidableEq, Repr

/-- A positive decimal `0.d₁d₂… · 10 ^ point` with first digit not zero. -/
structure Decimal where
  /-- the digits `d₁d₂…`, as one natural number -/
  digits : Nat
  /-- where the decimal point stands, counted from before the first digit -/
  point : Int
  deriving DecidableEq, Repr

namespace Decimal

/-- The power of ten with `n` zeros. -/
def tenTo (n : Nat) : Nat := Nat.pow 10 n

/-- How many digits a natural number has, at most `fuel` of them counted. -/
def digitCount : Nat → Nat → Nat
  | 0, _ => 0
  | fuel + 1, n => if n < 10 then 1 else digitCount fuel (n / 10) + 1

/-- A natural number without its trailing zeros, at most `fuel` of them. -/
def stripZeros : Nat → Nat → Nat
  | 0, n => n
  | fuel + 1, n => if n ≠ 0 ∧ n % 10 = 0 then stripZeros fuel (n / 10) else n

/-- The least `j` with `den ≤ num · 10 ^ j`, looked for up to `fuel`. -/
def leadingZeros (num den : Nat) : Nat → Nat → Nat
  | 0, j => j
  | fuel + 1, j => if den ≤ num * tenTo j then j else leadingZeros num den fuel (j + 1)

/-- The `k` with `10 ^ (k - 1) ≤ num / den < 10 ^ k`. -/
def pointOf (num den : Nat) : Int :=
  if den ≤ num then (digitCount 400 (num / den) : Nat)
  else 1 - (leadingZeros num den 400 0 : Nat)

/-- The point of the grid of `n` digits that stands for `value`, where the
interval runs from `low` to `high`, all three over `den`; `closed` says
whether the ends belong to the interval. -/
def onGrid (tie : Tie) (low value high den : Nat) (closed : Bool) (n : Nat) : Option Nat :=
  let inside (a : Nat) : Bool :=
    if closed then low ≤ a * den && a * den ≤ high else low < a * den && a * den < high
  let below := value / den
  let above := below + 1
  let nearerBelow :=
    let down := value - below * den
    let up := above * den - value
    down < up || (down == up && tie == .even && below % 2 == 0)
  match 0 < n && inside below, inside above with
  | true, true => some (if nearerBelow then below else above)
  | true, false => some below
  | false, true => some above
  | false, false => none

/-- The first grid of at least `n` digits, looked for over `fuel` grids,
with a point in the interval around `value`. -/
def firstGrid (tie : Tie) (low value high den : Nat) (closed : Bool) (point : Int) :
    Nat → Nat → Decimal
  | 0, n => ⟨value / den, n⟩
  | fuel + 1, n =>
    let up := tenTo (n - point).toNat
    let down := tenTo (point - n).toNat
    match onGrid tie (low * up) (value * up) (high * up) (den * down) closed n with
    | some a =>
      let carried : Int := if a = tenTo n then 1 else 0
      ⟨stripZeros 400 a, point + carried⟩
    | none => firstGrid tie low value high den closed point fuel (n + 1)

end Decimal

/-- The shortest decimal that reads back as the magnitude of a finite
number other than zero. -/
def Binary64.shortest (x : Binary64) (tie : Tie) : Decimal :=
  let m := x.significand
  let narrowBelow := x.fraction = 0 ∧ 1 < x.exponentField
  let up := 1 <<< (x.scale - 1077)
  let den := 1 <<< (1077 - x.scale)
  let low := (4 * m - if narrowBelow then 1 else 2) * up
  let value := 4 * m * up
  let high := (4 * m + 2) * up
  Decimal.firstGrid tie low value high den (m % 2 == 0) (Decimal.pointOf value den) 17 1

end Intake
