import Intake.Columns.Frame
import Intake.Unwritable
/-!
# Writing column batches

The stream a read service sends for given blocks of rows: a schema, the
blocks and the end mark. The rows of a block are taken apart column by
column, and a block is written only if each of its columns may stand in
it. What the messages are, metadata and bodies, is left to a writer.
-/

namespace Intake.Columns

/-! ## Messages -/

/-- What writes the messages of streams. -/
structure StreamWriter where
  /-- the metadata of the message that opens the stream of a schema -/
  opening : Schema → Bytes
  /-- the metadata and the body of the message of a block of so many rows -/
  block : Nat → List (Field × List Cell) → Bytes × Bytes

/-- A message of a stream. -/
def writeFrame (metadata body : Bytes) : Bytes :=
  Bytes.ofNat 4 marker ++ Bytes.ofNat 4 metadata.length ++ metadata ++ body

/-- The longest metadata of a message. -/
def metadataLimit : Nat := 0x7FFFFFFF

/-- The mark that ends a stream. -/
def endMark : Bytes := Bytes.ofNat 4 marker ++ Bytes.ofNat 4 0

/-- A message, if its metadata is not too long. -/
def encodeFrame (metadata body : Bytes) : Except Unwritable Bytes :=
  if metadata.length ≤ metadataLimit then .ok (writeFrame metadata body) else .error .format

/-! ## Columns -/

/-- The bytes of a cell in a column of a type, or of a slot that is null. -/
def cellBytes (type : FieldType) (c : Cell) : Bytes :=
  match c with
  | .int64 n => Bytes.ofNat 8 n.toUInt64.toNat
  | .float64 x => Bytes.ofNat 8 x.bits.toNat
  | .string s => Bytes.ofText s
  | .bytes b => b
  | .date d => Bytes.ofNat 4 d.toUInt32.toNat
  | .timestamp t => Bytes.ofNat 8 t.toUInt64.toNat
  | _ =>
    match type with
    | .int64 | .float64 | .timestamp => Bytes.ofNat 8 0
    | .date => Bytes.ofNat 4 0
    | _ => []

/-- The cells of rows at the position of a field. -/
def columnOf (rows : List Record) (index : Nat) (f : Field) : Except Unwritable (List Cell) :=
  rows.mapM fun r => r.cellFor index f

/-- The columns of rows from the field at position `index` on. -/
def columnsOf (rows : List Record) : Nat → List Field → Except Unwritable (List (Field × List Cell))
  | _, [] => .ok []
  | index, f :: fs => do
    let cells ← columnOf rows index f
    return (f, cells) :: (← columnsOf rows (index + 1) fs)

/-- The largest number of bytes in a column of texts or byte strings. -/
def columnLimit : Nat := 0x7FFFFFFF

/-- Whether a column may stand in a block: no null where none may be, and
no more bytes than offsets can tell. -/
def isWritable (c : Field × List Cell) : Bool :=
  (c.1.nullable || !c.2.any Cell.isNull) &&
    match c.1.type with
    | .string | .bytes =>
      decide ((c.2.flatMap (cellBytes c.1.type)).length ≤ columnLimit)
    | _ => true

/-! ## Streams -/

/-- The message of a block of rows. -/
def encodeBlock (w : StreamWriter) (s : Schema) (rows : List Record) :
    Except Unwritable Bytes := do
  let columns ← columnsOf rows 0 s.fields
  if columns.isEmpty ∨ !columns.all isWritable then .error .format
  else
    let message := w.block rows.length columns
    encodeFrame message.1 message.2

/-- The stream of blocks of rows. -/
def encode (w : StreamWriter) (s : Schema) (blocks : List (List Record)) :
    Except Unwritable Bytes := do
  let opening ← encodeFrame (w.opening s) []
  let messages ← blocks.mapM (encodeBlock w s)
  return opening ++ messages.flatten ++ endMark

end Intake.Columns
