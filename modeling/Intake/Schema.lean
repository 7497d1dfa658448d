import Intake.Json.Access
import Intake.Text.Blank
/-!
# Wire schemas

A schema lists the fields of every batch of a session in wire order: a
name, a type and whether the field may be null. A schema can be run when
it has a field and its names are distinct and not empty.
-/

namespace Intake

/-- The type of a field. Dates count days and timestamps microseconds
since the start of 1970. -/
inductive FieldType where
  | boolean
  | int64
  | float64
  | string
  | bytes
  | date
  | timestamp
  deriving DecidableEq, Repr

namespace FieldType

/-- The name of a type in a JSON text. -/
def name : FieldType → String
  | .boolean => "boolean"
  | .int64 => "int64"
  | .float64 => "float64"
  | .string => "string"
  | .bytes => "bytes"
  | .date => "date"
  | .timestamp => "timestamp"

/-- The name of a type in a message. -/
def title : FieldType → String
  | .boolean => "Boolean"
  | .int64 => "Int64"
  | .float64 => "Float64"
  | .string => "String"
  | .bytes => "Bytes"
  | .date => "Date"
  | .timestamp => "Timestamp"

/-- Every type, in the order of its declaration. -/
def all : List FieldType := [.boolean, .int64, .float64, .string, .bytes, .date, .timestamp]

/-- The type of a given name. -/
def ofName? (s : String) : Option FieldType := all.find? fun t => t.name == s

def toJson (t : FieldType) : Json := .str t.name

def ofJson? (j : Json) : Option FieldType := j.word?.bind ofName?

end FieldType

/-- A field of a wire schema. -/
structure Field where
  name : String
  type : FieldType
  nullable : Bool := true
  deriving DecidableEq, Repr

namespace Field

def toJson (f : Field) : Json :=
  .record [("name", .str f.name), ("type", f.type.toJson), ("nullable", .bool f.nullable)]

def ofJson? (j : Json) : Option Field := do
  match ← j.fields? ["name", "type", "nullable"] with
  | [name, type, nullable] =>
    return ⟨← Json.required Json.text? name, ← Json.required FieldType.ofJson? type,
      ← Json.fieldOr true Json.bool? nullable⟩
  | _ => none

end Field

/-- The fields of every batch of a session, in wire order. -/
structure Schema where
  fields : List Field
  deriving DecidableEq, Repr

namespace Schema

def size (s : Schema) : Nat := s.fields.length

def names (s : Schema) : List String := s.fields.map Field.name

/-- The position of the field of a given name, when there is exactly one. -/
def indexOf? (s : Schema) (name : String) : Option Nat :=
  match s.fields.zipIdx.filter fun f => f.1.name == name with
  | [f] => some f.2
  | _ => none

def toJson (s : Schema) : Json := .array (s.fields.map Field.toJson)

def ofJson? (j : Json) : Option Schema := (j.list? Field.ofJson?).map Schema.mk

end Schema

/-- The encoding of the batches of a session: columns or rows. -/
inductive WireFormat where
  | arrow
  | avro
  deriving DecidableEq, Repr, Inhabited

namespace WireFormat

def name : WireFormat → String
  | .arrow => "arrow"
  | .avro => "avro"

/-- The name of a format in the text of a batch. -/
def title : WireFormat → String
  | .arrow => "Arrow"
  | .avro => "Avro"

def ofName? (s : String) : Option WireFormat := [.arrow, .avro].find? fun f => f.name == s

def toJson (f : WireFormat) : Json := .str f.name

def ofJson? (j : Json) : Option WireFormat := j.word?.bind ofName?

end WireFormat

end Intake
