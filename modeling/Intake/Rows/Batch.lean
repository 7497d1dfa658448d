import Intake.Failure
import Intake.Layout
import Intake.Record
import Intake.Rows.Names
import Intake.Rows.Varint
/-!
# Row batches

A row batch holds its rows back to back with nothing between them; how
many there are is told beside it. A row holds its cells in wire order,
and a cell that may be null opens with the branch it takes. The reader
below states what happens where the bytes run out: a boolean, the body of
a string and a branch are then null, and everything else is malformed.
-/

namespace Intake.Rows

/-- The longest string or byte string, in bytes. -/
def longest : Nat := 512 * 1024 * 1024

/-! ## Writing -/

/-- The bytes of a cell that is not null; nothing for null. -/
def writeCell : Cell → Bytes
  | .null => []
  | .boolean b => [if b then 1 else 0]
  | .int64 n => writeInt n.toInt
  | .float64 x => Bytes.ofNat 8 x.bits.toNat
  | .string s =>
    let body := Bytes.ofText s
    writeInt body.length ++ body
  | .bytes b => writeInt b.length ++ b
  | .date d => writeInt d.toInt
  | .timestamp t => writeInt t.toInt

/-- The bytes of a cell in a field. -/
def writeField (f : Field) (c : Cell) : Bytes :=
  if f.nullable then writeInt (if c.isNull then 0 else 1) ++ writeCell c else writeCell c

/-! ## Reading -/

/-- A length that a string or byte string may have. -/
def readLength (bs : Bytes) : Option (Nat × Bytes) :=
  match readInt bs with
  | .ok (n, rest) => if 0 ≤ n ∧ n ≤ longest then some (n.toNat, rest) else none
  | .error _ => none

/-- An integer of 64 bits. -/
def readInt? (bs : Bytes) : Option (Int × Bytes) := (readInt bs).toOption

/-- A value of a type, null where the bytes run out in a boolean or in the
body of a string. -/
def readCell (type : FieldType) (bs : Bytes) : Option (Cell × Bytes) :=
  match type with
  | .boolean =>
    match bs with
    | [] => some (.null, [])
    | b :: rest =>
      if b = 0 then some (.boolean false, rest)
      else if b = 1 then some (.boolean true, rest)
      else none
  | .int64 => (readInt? bs).map fun (n, rest) => (.int64 (Int64.ofInt n), rest)
  | .float64 => (Bytes.word? 8 bs).map fun (n, rest) => (.float64 ⟨UInt64.ofNat n⟩, rest)
  | .string =>
    match readLength bs with
    | none => none
    | some (n, rest) =>
      match Bytes.cut? n rest with
      | none => some (.null, [])
      | some (body, rest) => (Bytes.text? body).map fun s => (.string s, rest)
  | .bytes => do
    let (n, rest) ← readLength bs
    let (body, rest) ← Bytes.cut? n rest
    return (.bytes body, rest)
  | .date =>
    match readInt? bs with
    | none => none
    | some (n, rest) =>
      if Int32.minValue.toInt ≤ n ∧ n ≤ Int32.maxValue.toInt then some (.date (Int32.ofInt n), rest) else none
  | .timestamp => (readInt? bs).map fun (n, rest) => (.timestamp (Int64.ofInt n), rest)

/-- The cell of a field, null where the bytes run out in its branch. -/
def readField (f : Field) (bs : Bytes) : Option (Cell × Bytes) :=
  if f.nullable then
    match readInt bs with
    | .error .ended => some (.null, [])
    | .error .tooLong => none
    | .ok (branch, rest) =>
      if branch = 0 then some (.null, rest)
      else if branch = 1 then readCell f.type rest
      else none
  else readCell f.type bs

/-- The cells of a row, in wire order. -/
def readRow : List Field → Bytes → Option (List Cell × Bytes)
  | [], bs => some ([], bs)
  | f :: fs, bs =>
    match readField f bs with
    | none => none
    | some (c, rest) => (readRow fs rest).map fun (cs, rest) => (c :: cs, rest)

/-! ## From rows to records -/

/-- A value of a row as it is shown in a message. -/
def carried : Cell → String
  | .int64 n => "Long(" ++ toString n.toInt ++ ")"
  | .float64 x => "Double(" ++ x.text .shown ++ ")"
  | .timestamp t => "TimestampMicros(" ++ toString t.toInt ++ ")"
  | c => c.shown

/-- A value of a row as the cell of a field: an integer also stands for a
timestamp, and null only for a field that may be null. -/
def convert (f : Field) (c : Cell) : Except RowFault Cell :=
  match f.type, c with
  | _, .null => if f.nullable then .ok .null else .error (.nullRequired f.name)
  | .timestamp, .int64 n => .ok (.timestamp n)
  | type, c =>
    if c.type? = some type then .ok c else .error (.otherType f.name type (carried c))

/-- The cells of a record, taken from those of a row; `taken` holds the
wire positions used so far, none of which may be used again. -/
def project (row : List Cell) : List Nat → List (Field × Nat) → Except RowFault (List Cell)
  | _, [] => .ok []
  | taken, (f, i) :: columns =>
    match row[i]? with
    | none => .error (.noSuchColumn i)
    | some c =>
      if i ∈ taken then .error (.projectedTwice f.name)
      else
        match convert f c with
        | .error e => .error e
        | .ok c => (project row (i :: taken) columns).map (c :: ·)

/-- The records of `count` rows from row number `index` on. A failure is
told with the number of bytes left from where it was met. -/
def readRows (s : Schema) (l : Layout) (declared : UInt64) :
    Nat → Nat → Bytes → Except (DecodeCause × Nat) (List Record)
  | 0, _, bs =>
    if bs.isEmpty then .ok []
    else .error (.trailingBytes bs.length declared, bs.length)
  | count + 1, index, bs =>
    if bs.isEmpty then .error (.rowsMissing declared index, 0)
    else
      match readRow s.fields bs with
      | none => .error (.row index .malformed, bs.length)
      | some (row, rest) =>
        match project row [] l.columns with
        | .error fault => .error (.row index fault, bs.length)
        | .ok cells => (readRows s l declared count (index + 1) rest).map (⟨cells⟩ :: ·)

/-- The records of a row batch that declares `declared` rows. -/
def decode (s : Schema) (l : Layout) (declared : UInt64) (data : Bytes) :
    Except DecodeError (List Record) :=
  (readRows s l declared declared.toNat 0 data).mapError fun (cause, left) =>
    ⟨cause, some (data.length - left)⟩

end Intake.Rows
