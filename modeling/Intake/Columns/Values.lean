import Intake.Columns.Nulls
/-!
# Columns of values

Columns whose values stand in their own buffers: truth values and words
of a fixed width, stretches of bytes between offsets, and views of bytes.
Each is held against what is told of it: the buffers are long enough,
offsets stay inside the values and never fall, texts are UTF-8, and the
nulls are as many as told.
-/

namespace Intake.Columns

/-! ## Values of a fixed width -/

/-- The first `count` words of `width` bytes, as natural numbers. -/
def words (width : Nat) : Nat → Bytes → List Nat
  | 0, _ => []
  | count + 1, bs => Bytes.toNat (bs.take width) :: words width count (bs.drop width)

/-- How wide the values of a type are, in bytes. -/
def valueWidth? : ColumnType → Option Nat
  | .int bits _ | .float bits | .time bits _ | .decimal bits _ _ => some (bits / 8)
  | .date millis => some (if millis then 8 else 4)
  | .timestamp .. | .duration _ => some 8
  | .interval .yearMonth => some 4
  | .interval .dayTime => some 8
  | .interval .monthDayNano => some 16
  | .fixedBinary width => if 0 ≤ width then some width.toNat else none
  | _ => none

/-- The cell that a word of a column stands for, for the types that have
cells. -/
def wordCell? : ColumnType → Option (Nat → Cell)
  | .int bits true => some fun n => .int64 (Int64.ofInt (Bytes.signed (bits / 8) n))
  | .float 64 => some fun n => .float64 ⟨UInt64.ofNat n⟩
  | .date false => some fun n => .date (Int32.ofNat n)
  | .timestamp .micro _ => some fun n => .timestamp (Int64.ofNat n)
  | _ => none

/-- A column of values of a fixed width. -/
def buildWords (type : ColumnType) (length nulls : Nat) (nullBuffer values : Bytes) :
    Build Column := do
  let valid ← bitmap nullBuffer length nulls
  match valueWidth? type with
  | none => nonsense
  | some width =>
    if values.length < length * width then corrupt
    else
      requireRoom length nulls
      requireNulls valid nulls
      let cells :=
        match wordCell? type with
        | none => []
        | some cell => (words width length values).map cell
      return .plain type length valid (masked valid cells)

/-- A column of truth values, a bit each. -/
def buildBits (length nulls : Nat) (nullBuffer values : Bytes) : Build Column := do
  let valid ← bitmap nullBuffer length nulls
  if 8 * values.length < length then corrupt
  else
    requireRoom length nulls
    requireNulls valid nulls
    return .plain .boolean length valid
      (masked valid (((bitsOf values).take length).map .boolean))

/-! ## Values of varying width -/

/-- The offsets of `length` values: one more than there are values, or
none at all for an empty buffer of an empty column. The whole buffer has
to be a multiple of an offset. -/
def offsets (width length : Nat) (buffer : Bytes) : Build (List Int) :=
  if length = 0 ∧ buffer.isEmpty then return []
  else if buffer.length < (length + 1) * width then corrupt
  else if buffer.length % width ≠ 0 then nonsense
  else return (words width (length + 1) buffer).map (Bytes.signed width)

/-- Whether offsets start at `low` or above, never fall and end at `limit`
or below. -/
def ordered (limit : Int) : Int → List Int → Bool
  | low, [] => low ≤ limit
  | low, o :: os => low ≤ o && ordered limit o os

/-- The stretches between neighbouring offsets. -/
def stretches : List Int → List (Nat × Nat)
  | a :: b :: os => (a.toNat, b.toNat) :: stretches (b :: os)
  | _ => []

/-- Whether a position does not lie inside a character of a text. -/
def isBoundary (values : Array UInt8) (pos : Nat) : Bool :=
  match values[pos]? with
  | none => true
  | some b => pos == 0 || b.toNat / 64 != 2

/-- Whether every stretch of the bytes is a text: all of them when the
bytes as a whole are one and no stretch cuts a character. -/
def areTexts (values : Array UInt8) (spans : List (Nat × Nat)) : Bool :=
  if (Bytes.text? values.toList).isSome then
    spans.all fun s => isBoundary values s.1 && isBoundary values s.2
  else spans.all fun s => (Bytes.text? (values.extract s.1 s.2).toList).isSome

/-- The cell of a stretch of bytes. -/
def stretchCell (isText : Bool) (values : Array UInt8) (span : Nat × Nat) : Cell :=
  let bytes := (values.extract span.1 span.2).toList
  if isText then .string ((Bytes.text? bytes).getD "") else .bytes bytes

/-- A column of texts or byte strings. -/
def buildStretches (isText large : Bool) (length nulls : Nat)
    (nullBuffer offsetBuffer values : Bytes) : Build Column := do
  let valid ← bitmap nullBuffer length nulls
  requireRoom length nulls
  let os ← offsets (if large then 8 else 4) length offsetBuffer
  let values := values.toArray
  let spans := stretches os
  if ordered values.size 0 os && (!isText || areTexts values spans) then
    requireNulls valid nulls
    return .plain (if isText then .utf8 large else .binary large) length valid
      (masked valid (spans.map (stretchCell isText values)))
  else corrupt

/-- Whether a view, a word of 16 bytes, shows bytes of one of the buffers:
up to twelve bytes stand in the view itself, with zeros behind them, and
of more the first four. -/
def isView (isText : Bool) (buffers : List (Array UInt8)) (view : Bytes) : Bool :=
  let length := Bytes.toNat (view.take 4)
  let isShown (bytes : Bytes) : Bool := !isText || (Bytes.text? bytes).isSome
  if length ≤ 12 then
    (view.drop (4 + length)).all (· == 0) && isShown ((view.drop 4).take length)
  else
    let start := Bytes.toNat ((view.drop 12).take 4)
    match buffers[Bytes.toNat ((view.drop 8).take 4)]? with
    | none => false
    | some buffer =>
      let bytes := (buffer.extract start (start + length)).toList
      decide (start + length ≤ buffer.size) && bytes.take 4 == (view.drop 4).take 4 &&
        isShown bytes

/-- The first `count` pieces of `width` bytes. -/
def pieces (width : Nat) : Nat → Bytes → List Bytes
  | 0, _ => []
  | count + 1, bs => bs.take width :: pieces width count (bs.drop width)

/-- A column of views of texts or byte strings. -/
def buildViews (isText : Bool) (length nulls : Nat) (nullBuffer views : Bytes)
    (buffers : List Bytes) : Build Column := do
  let valid ← bitmap nullBuffer length nulls
  if views.length < length * 16 then corrupt
  else
    requireRoom length nulls
    requireNulls valid nulls
    if views.length % 16 ≠ 0 then nonsense
    else if (pieces 16 length views).all (isView isText (buffers.map List.toArray)) then
      return .plain (if isText then .utf8View else .binaryView) length valid []
    else corrupt

end Intake.Columns
