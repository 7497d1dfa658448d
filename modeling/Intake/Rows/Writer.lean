import Intake.Rows.Batch
import Intake.Unwritable
/-!
# Writing row batches

The bytes a read service sends for given rows: each row's cells in wire
order, the rows back to back.
-/

namespace Intake.Rows

/-- The bytes of the fields of a row from position `index` on. -/
def encodeFields (r : Record) : Nat → List Field → Except Unwritable Bytes
  | _, [] => .ok []
  | index, f :: fs => do
    let c ← r.cellFor index f
    if c.isNull ∧ !f.nullable then .error (.nullRequired f.name)
    else
      let rest ← encodeFields r (index + 1) fs
      return writeField f c ++ rest

/-- The bytes of rows, back to back. -/
def encodeRows (s : Schema) : List Record → Except Unwritable Bytes
  | [] => .ok []
  | r :: rs => do
    let row ← encodeFields r 0 s.fields
    return row ++ (← encodeRows s rs)

/-- The bytes of a row batch. -/
def encode (s : Schema) (rows : List Record) : Except Unwritable Bytes :=
  if accepts s then encodeRows s rows else .error .format

end Intake.Rows
