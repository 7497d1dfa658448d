import Intake.Json.Access
import Intake.Number.Text
import Intake.Schema
import Intake.Text.Quoted
/-!
# Records

A record is one row: a cell for each field of a layout, in its order.
Both encodings produce the same records. A cell fits a field when it is
of the field's type, or null where the field may be.
-/

namespace Intake

/-- A single value of a row. -/
inductive Cell where
  | null
  | boolean (b : Bool)
  | int64 (n : Int64)
  | float64 (x : Binary64)
  | string (s : String)
  | bytes (b : List UInt8)
  /-- days since the start of 1970 -/
  | date (days : Int32)
  /-- microseconds since the start of 1970 -/
  | timestamp (micros : Int64)
  deriving DecidableEq, Repr, Inhabited

namespace Cell

def isNull : Cell → Bool
  | .null => true
  | _ => false

def int64? : Cell → Option Int64
  | .int64 n => some n
  | _ => none

def string? : Cell → Option String
  | .string s => some s
  | _ => none

/-- The type of a cell that is not null. -/
def type? : Cell → Option FieldType
  | .null => none
  | .boolean _ => some .boolean
  | .int64 _ => some .int64
  | .float64 _ => some .float64
  | .string _ => some .string
  | .bytes _ => some .bytes
  | .date _ => some .date
  | .timestamp _ => some .timestamp

/-- A cell fits a field when it is of the field's type, or null where the
field may be null. -/
def Fits (c : Cell) (f : Field) : Prop :=
  c.type? = some f.type ∨ (c = .null ∧ f.nullable = true)

instance (c : Cell) (f : Field) : Decidable (c.Fits f) := by unfold Fits; infer_instance

/-- Equality of cells with doubles compared as numbers. -/
def agrees : Cell → Cell → Bool
  | .float64 x, .float64 y => x.agrees y
  | a, b => a == b

/-- A cell as it is shown in a message. -/
def shown : Cell → String
  | .null => "Null"
  | .boolean b => "Boolean(" ++ toString b ++ ")"
  | .int64 n => "Int64(" ++ toString n.toInt ++ ")"
  | .float64 x => "Float64(" ++ x.text .shown ++ ")"
  | .string s => "String(" ++ Text.quoted s ++ ")"
  | .bytes b => "Bytes([" ++ ", ".intercalate (b.map fun n => toString n.toNat) ++ "])"
  | .date d => "Date(" ++ toString d.toInt ++ ")"
  | .timestamp t => "Timestamp(" ++ toString t.toInt ++ ")"

def toJson : Cell → Json
  | .null => .str "Null"
  | .boolean b => .record [("Boolean", .bool b)]
  | .int64 n => .record [("Int64", .int n.toInt)]
  | .float64 x => .record [("Float64", .real x)]
  | .string s => .record [("String", .str s)]
  | .bytes b => .record [("Bytes", .array (b.map fun n => .nat n.toNat))]
  | .date d => .record [("Date", .int d.toInt)]
  | .timestamp t => .record [("Timestamp", .int t.toInt)]

/-- A cell from the name of its kind and its content. -/
def ofTagged? (tag : String) (content : Json) : Option Cell :=
  match tag with
  | "Null" => if content matches .null then some .null else none
  | "Boolean" => content.bool?.map .boolean
  | "Int64" => content.int64?.map .int64
  | "Float64" => content.real?.map .float64
  | "String" => content.text?.map .string
  | "Bytes" => (content.list? Json.uint8?).map .bytes
  | "Date" => content.int32?.map .date
  | "Timestamp" => content.int64?.map .timestamp
  | _ => none

def ofJson? : Json → Option Cell
  | .text (some "Null") => some .null
  | .object [(some tag, content)] => ofTagged? tag content
  | _ => none

end Cell

/-- One row. -/
structure Record where
  cells : List Cell
  deriving DecidableEq, Repr, Inhabited

namespace Record

/-- Equality of records with doubles compared as numbers. -/
def agrees (a b : Record) : Bool :=
  a.cells.length == b.cells.length && (a.cells.zip b.cells).all fun p => p.1.agrees p.2

/-- The first cell of a record as an integer, by which samples are told
apart. -/
def id? (r : Record) : Option Int64 := r.cells.head?.bind Cell.int64?

def toJson (r : Record) : Json := .record [("values", .array (r.cells.map Cell.toJson))]

def ofJson? (j : Json) : Option Record := do
  match ← j.fields? ["values"] with
  | [values] => return ⟨← Json.required (Json.list? Cell.ofJson?) values⟩
  | _ => none

end Record

end Intake
