import Intake.Columns.FlatWriter
import Intake.Columns.Writer
/-!
# A writer of streams

One way to write the messages of a stream: every table with eight bytes
for each slot, a bitmap only for a column that has nulls, and each buffer
of a body padded to a multiple of eight bytes.
-/

namespace Intake.Columns

open Flat

/-! ## Metadata -/

/-- The code of a type and the table of its numbers. -/
def typeSlots : FieldType → Nat × List Slot
  | .boolean => (6, [])
  | .int64 => (2, [.scalar (Bytes.ofNat 4 64), .scalar [1]])
  | .float64 => (3, [.scalar (Bytes.ofNat 2 2)])
  | .string => (5, [])
  | .bytes => (4, [])
  | .date => (8, [.scalar (Bytes.ofNat 2 0)])
  | .timestamp => (10, [.scalar (Bytes.ofNat 2 2)])

/-- A column of the schema. -/
def writeField (f : Field) : Bytes :=
  let (code, slots) := typeSlots f.type
  writeTable [.target (writeText f.name), .scalar [if f.nullable then 1 else 0],
    .scalar (Bytes.ofNat 1 code), .target (writeTable slots)]

/-- The version of the format that is written. -/
def version : Nat := 4

/-- The metadata of a message with a header of a kind and a body of a
length. -/
def writeMessage (code : Nat) (header : Bytes) (bodyLength : Nat) : Bytes :=
  writeRoot (writeTable [.scalar (Bytes.ofNat 2 version), .scalar (Bytes.ofNat 1 code),
    .target header, .scalar (Bytes.ofNat 8 bodyLength)])

/-- The metadata of the message that opens a stream. -/
def schemaMetadata (s : Schema) : Bytes :=
  writeMessage 1 (writeTable [.empty, .target (writeTables (s.fields.map writeField))]) 0

/-! ## Blocks -/

/-- Bits in bytes, the lowest of each byte first. -/
def packBits : List Bool → Bytes
  | [] => []
  | b₀ :: bs =>
    let byte := b₀ :: bs.take 7
    UInt8.ofNat (byte.foldr (fun b n => (if b then 1 else 0) + 2 * n) 0) :: packBits (bs.drop 7)
termination_by bits => bits.length
decreasing_by simp only [List.length_cons, List.length_drop]; omega

/-- The offsets of stretches of given lengths, the first at `start`. -/
def offsetBytes : Nat → List Nat → Bytes
  | start, [] => Bytes.ofNat 4 start
  | start, n :: ns => Bytes.ofNat 4 start ++ offsetBytes (start + n) ns

/-- The buffers of a column. -/
def columnBuffers (type : FieldType) (cells : List Cell) : List Bytes :=
  let nulls := if cells.any Cell.isNull then packBits (cells.map fun c => !c.isNull) else []
  let bytes := cells.map (cellBytes type)
  match type with
  | .boolean => [nulls, packBits (cells.map fun c => c == .boolean true)]
  | .string | .bytes => [nulls, offsetBytes 0 (bytes.map List.length), bytes.flatten]
  | _ => [nulls, bytes.flatten]

/-- The place of each buffer of a body, the first at `start`. -/
def places : Nat → List Bytes → List (Nat × Nat)
  | _, [] => []
  | start, b :: bs => (start, b.length) :: places (start + (padded b).length) bs

/-- The buffers of the columns of a block. -/
def blockBuffers (columns : List (Field × List Cell)) : List Bytes :=
  columns.flatMap fun c => columnBuffers c.1.type c.2

/-- The body of a block. -/
def blockBody (columns : List (Field × List Cell)) : Bytes :=
  ((blockBuffers columns).map padded).flatten

/-- The metadata of the message of a block of `rows` rows. -/
def blockMetadata (rows : Nat) (columns : List (Field × List Cell)) : Bytes :=
  let nodes := columns.map fun c => (c.2.length, (c.2.filter Cell.isNull).length)
  let header := writeTable [.scalar (Bytes.ofNat 8 rows), .target (writePairs nodes),
    .target (writePairs (places 0 (blockBuffers columns)))]
  writeMessage 3 header (blockBody columns).length

/-- The writer of such messages. -/
def flatWriter : StreamWriter where
  opening := schemaMetadata
  block rows columns := (blockMetadata rows columns, blockBody columns)

end Intake.Columns
