import Intake.Codec
/-!
# Sample data

Rows that are told apart by a running number, for trying out codecs and
runs: row `i` is `i`, its name and half of it as a double, which is
null in every seventh row. Beside them, ways to compare lists of records.
-/

namespace Intake.Sample

/-- The fields of sample rows: a number that is required, a name, a score. -/
def schema : Schema :=
  ⟨[⟨"id", .int64, false⟩, ⟨"name", .string, true⟩, ⟨"score", .float64, true⟩]⟩

/-- The sample row of a number. -/
def row (id : Int64) : Record :=
  ⟨[.int64 id, .string ("row-" ++ toString id.toInt),
    if id.toInt.tmod 7 = 6 then .null
    else .float64 (Binary64.ofFloat (Float.ofInt id.toInt / 2))]⟩

/-- So many sample rows from a number on. -/
def rows (start : Int64) (count : Nat) : List Record :=
  (List.range count).map fun i => row (start + Int64.ofNat i)

/-- Batches of consecutive sample rows, each of the same number of rows. -/
def batches (w : Columns.StreamWriter) (format : WireFormat) (s : Schema) (first : Int64)
    (count size : Nat) : Except Unwritable (List Batch) :=
  (List.range count).mapM fun b =>
    Batch.encode w format s (rows (first + Int64.ofNat (b * size)) size)

/-- The numbers of records, where they have one. -/
def ids (records : List Record) : List (Option Int64) := records.map Record.id?

/-- Whether two lists of records have the same content in the same order. -/
def areEqual (actual expected : List Record) : Bool :=
  actual.length == expected.length && (actual.zip expected).all fun p => p.1.agrees p.2

/-- Whether the records carry exactly the given numbers, in order. -/
def haveIds (records : List Record) (expected : List Int64) : Bool :=
  ids records == expected.map some

/-- Whether no number, nor the lack of one, occurs twice. -/
def haveUniqueIds (records : List Record) : Bool := decide (ids records).Nodup

end Intake.Sample
