import Intake.Columns.Stream
import Intake.Columns.Writer
import Intake.Rows.Writer
/-!
# Batches and their codecs

A batch is what one call of the read service yields: encoded rows with
the encoding and the number of rows told beside them. The encoding of a
session picks one codec for all of its batches. Whatever the bytes, a
codec yields exactly as many records as the batch tells, or an error.
-/

namespace Intake

/-- Encoded rows, as received. -/
structure Batch where
  format : WireFormat
  /-- the number of rows, as told beside the bytes -/
  rowCount : UInt64
  data : Bytes
  deriving DecidableEq, Repr, Inhabited

/-- A batch as it is shown in diagnostics, without its bytes. -/
def Batch.shown (b : Batch) : String :=
  "RawBatch \x7b format: " ++ b.format.title ++ ", row_count: " ++ toString b.rowCount.toNat ++
    ", bytes: " ++ toString b.data.length ++ " \x7d"

/-- The decoder of the batches of a session. -/
structure Codec where
  format : WireFormat
  schema : Schema
  deriving DecidableEq, Repr

namespace Codec

/-- The codec of a format for a wire schema, which has to be one of the
format. -/
def forFormat (format : WireFormat) (s : Schema) : Except Misfit Codec :=
  match format with
  | .arrow => .ok ⟨.arrow, s⟩
  | .avro => (Rows.check s).map fun _ => ⟨.avro, s⟩

/-- The records of a batch, in wire order. -/
def decode (c : Codec) (l : Layout) (b : Batch) : Except DecodeError (List Record) :=
  if b.format ≠ c.format then .error ⟨.otherFormat b.format c.format, none⟩
  else
    match c.format with
    | .arrow =>
      match Columns.decode c.schema l b.data with
      | .error e => .error e
      | .ok records =>
        if records.length = b.rowCount.toNat then .ok records
        else .error ⟨.rowCount b.rowCount records.length, none⟩
    | .avro => Rows.decode c.schema l b.rowCount b.data

end Codec

/-- The batch a read service sends for rows. -/
def Batch.encode (w : Columns.StreamWriter) (format : WireFormat) (s : Schema)
    (rows : List Record) : Except Unwritable Batch := do
  let data ←
    match format with
    | .arrow => Columns.encode w s [rows]
    | .avro => Rows.encode s rows
  return ⟨format, UInt64.ofNat rows.length, data⟩

end Intake
