import Intake.Record
/-!
# Rows that cannot be written

Before a row is written, every field of the schema has to find a cell in
it that fits.
-/

namespace Intake

/-- Why rows cannot be written to a batch. -/
inductive Unwritable where
  | missingCell (cells : Nat) (field : String)
  | nullRequired (field : String)
  /-- a cell of another type, which is shown -/
  | misfit (cell : String) (declared : FieldType) (field : String)
  /-- the schema or the rows are none of the format -/
  | format
  deriving DecidableEq, Repr

/-- The reason in words, `none` where it is the format's own. -/
def Unwritable.message? : Unwritable → Option String
  | .missingCell cells field =>
    some ("row has " ++ toString cells ++ " values, missing field `" ++ field ++ "`")
  | .nullRequired field => some ("null in required field `" ++ field ++ "`")
  | .misfit cell declared field =>
    some ("value " ++ cell ++ " does not fit " ++ declared.title ++ " field `" ++ field ++ "`")
  | .format => none

/-- The cell of a row at the position of a field, of the field's type or
null. -/
def Record.cellFor (r : Record) (index : Nat) (f : Field) : Except Unwritable Cell :=
  match r.cells[index]? with
  | none => .error (.missingCell r.cells.length f.name)
  | some .null => .ok .null
  | some c => if c.type? = some f.type then .ok c else .error (.misfit c.shown f.type f.name)

end Intake
