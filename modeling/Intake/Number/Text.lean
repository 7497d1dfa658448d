import Intake.Number.Shortest
/-!
# Writing a double

A double is written with its shortest digits, positionally when its
point stands within the bounds of a style and with an exponent
otherwise. There are two styles: that of a value shown in a message and
that of a number in a JSON text. They differ in one bound, in what becomes
of a tie and in the sign of an exponent.
-/

namespace Intake

/-- How a double is written: positionally if the point of its decimal
stands between the bounds. -/
structure RealStyle where
  lowest : Int
  highest : Int
  /-- which of two shortest decimals equally near is written -/
  tie : Tie
  /-- whether a positive exponent has a sign -/
  plus : Bool

namespace RealStyle

/-- A value shown in a message is written positionally from `1e-4` up to
below `1e16`, a tie going away from zero. -/
def shown : RealStyle := ⟨-3, 16, .above, false⟩

/-- A number in a JSON text is written positionally from `1e-5` up to
below `1e16`, a tie going to the even digit; exponents have a sign. -/
def json : RealStyle := ⟨-4, 16, .even, true⟩

end RealStyle

/-- A run of zeros. -/
def zeros (n : Nat) : List Char := List.replicate n '0'

/-- A decimal in positional notation, with at least one digit on either
side of the point. -/
def Decimal.positional (d : Decimal) : List Char :=
  let ds := Nat.toDigits 10 d.digits
  if d.point ≤ 0 then '0' :: '.' :: (zeros (-d.point).toNat ++ ds)
  else
    let k := d.point.toNat
    if ds.length ≤ k then ds ++ zeros (k - ds.length) ++ ['.', '0']
    else ds.take k ++ '.' :: ds.drop k

/-- A decimal with one digit before the point and an exponent. -/
def Decimal.scientific (plus : Bool) (d : Decimal) : List Char :=
  let sign := if plus ∧ 0 < d.point then ['+'] else []
  let exponent := sign ++ (toString (d.point - 1)).toList
  match Nat.toDigits 10 d.digits with
  | [] => []
  | [c] => c :: 'e' :: exponent
  | c :: cs => c :: '.' :: (cs ++ 'e' :: exponent)

/-- A decimal in a style. -/
def Decimal.text (style : RealStyle) (d : Decimal) : List Char :=
  if style.lowest ≤ d.point ∧ d.point ≤ style.highest then d.positional
  else d.scientific style.plus

/-- A double in a style. -/
def Binary64.text (style : RealStyle) (x : Binary64) : String :=
  if x.isNaN then "NaN"
  else
    let sign := if x.negative then "-" else ""
    if x.isInfinite then sign ++ "inf"
    else if x.isZero then sign ++ "0.0"
    else sign ++ String.ofList ((x.shortest style.tie).text style)

end Intake
