import Intake.Schema
import Intake.Misfit
/-!
# Schemas of row batches

A row batch is written to a record schema made from the wire schema: a
field that may be null is a union of null and its type. Field names have
to be identifiers, letters, digits and underscores with no digit in
front, and distinct.
-/

namespace Intake.Rows

/-- Whether a character may open a field name. -/
def opensName (c : Char) : Bool := c.isAlpha || c == '_'

/-- Whether a text is an ASCII identifier. -/
def isName (s : String) : Bool :=
  match s.toList with
  | [] => false
  | c :: cs => opensName c && cs.all fun c => opensName c || c.isDigit

/-- Whether the fields of a schema can be written as rows. -/
def accepts (s : Schema) : Bool := s.names.all isName && decide s.names.Nodup

/-- A schema whose fields can be written as rows. -/
def check (s : Schema) : Except Misfit Unit := if accepts s then .ok () else .error .notAvro

/-- The name of the record that holds a row. -/
def recordName : String := "__root__"

/-- The canonical form of a type: dates and timestamps are bare integers. -/
def canonicalType : FieldType → Json
  | .boolean => .str "boolean"
  | .int64 => .str "long"
  | .float64 => .str "double"
  | .string => .str "string"
  | .bytes => .str "bytes"
  | .date => .record [("type", .str "int")]
  | .timestamp => .record [("type", .str "long")]

/-- The canonical form of a field. -/
def canonicalField (f : Field) : Json :=
  let type := canonicalType f.type
  .record [("name", .str f.name),
    ("type", if f.nullable then .array [.str "null", type] else type)]

/-- The canonical form of the record schema. -/
def canonical (s : Schema) : Json :=
  .record [("name", .str recordName), ("type", .str "record"),
    ("fields", .array (s.fields.map canonicalField))]

end Intake.Rows
