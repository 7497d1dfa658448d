import Intake.Json.Access
/-!
# Waiting between retries

The wait before a retry grows by a factor from retry to retry up to a
bound. The factor is taken as at least one, and the arithmetic is that of
doubles, so that a wait may overflow to infinity and be cut by the bound.
-/

namespace Intake

/-- How long to wait before a retry. -/
structure Backoff where
  /-- the wait before the first retry, in milliseconds -/
  initialDelayMs : UInt64 := 100
  /-- the longest wait, in milliseconds -/
  maxDelayMs : UInt64 := 5000
  /-- the factor from one wait to the next -/
  multiplier : Binary64 := ⟨0x4000000000000000⟩
  deriving DecidableEq, Repr, Inhabited

namespace Backoff

/-- No wait at all. -/
def none : Backoff := ⟨0, 0, ⟨0x3FF0000000000000⟩⟩

/-- `r · aⁿ` by repeated squaring; `fuel` bounds the number of binary
digits of `n`. -/
def power : Nat → Float → Float → Nat → Float
  | 0, r, _, _ => r
  | fuel + 1, r, a, n =>
    let r := if n % 2 = 1 then r * a else r
    if n / 2 = 0 then r else power fuel r (a * a) (n / 2)

/-- The wait before retry number `retry`, counted from one, in
milliseconds: a factor that is no number or below one counts as one, and
a product that is no number as the bound. -/
def delayMs (b : Backoff) (retry : UInt32) : UInt64 :=
  let exponent := min (retry.toNat - 1) 0x7FFFFFFF
  let m := b.multiplier.toFloat
  let base := if 1 ≤ m then m else 1
  let wait := b.initialDelayMs.toFloat * power 32 1 base exponent
  let bound := b.maxDelayMs.toFloat
  (if wait < bound then wait else bound).toUInt64

def toJson (b : Backoff) : Json :=
  .record [("initialDelayMs", .nat b.initialDelayMs.toNat),
    ("maxDelayMs", .nat b.maxDelayMs.toNat), ("multiplier", .real b.multiplier)]

def ofJson? (j : Json) : Option Backoff := do
  let d : Backoff := {}
  match ← j.fields? ["initialDelayMs", "maxDelayMs", "multiplier"] with
  | [initial, max, multiplier] =>
    return ⟨← Json.fieldOr d.initialDelayMs Json.uint64? initial,
      ← Json.fieldOr d.maxDelayMs Json.uint64? max,
      ← Json.fieldOr d.multiplier Json.real? multiplier⟩
  | _ => failure

end Backoff

end Intake
