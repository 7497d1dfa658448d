import Intake.Columns.Message
import Intake.Schema
import Intake.Text.Quoted
/-!
# Types of columns

The types that a column of a stream may have, how the schema of a stream
describes them, and their names in messages. A description that names no
type, such as an integer of a width there is none of or a list without an
element, makes the metadata of the stream corrupt.
-/

namespace Intake.Columns

/-- The unit of a time, a duration or a timestamp. -/
inductive TimeUnit where
  | second
  | milli
  | micro
  | nano
  deriving DecidableEq, Repr

def TimeUnit.name : TimeUnit → String
  | .second => "s"
  | .milli => "ms"
  | .micro => "µs"
  | .nano => "ns"

/-- The parts an interval is given in. -/
inductive IntervalUnit where
  | yearMonth
  | dayTime
  | monthDayNano
  deriving DecidableEq, Repr

def IntervalUnit.name : IntervalUnit → String
  | .yearMonth => "YearMonth"
  | .dayTime => "DayTime"
  | .monthDayNano => "MonthDayNano"

mutual

/-- The type of a column. -/
inductive ColumnType where
  | null
  | boolean
  | int (bits : Nat) (isSigned : Bool)
  | float (bits : Nat)
  /-- texts, with offsets of 32 or, if large, 64 bits -/
  | utf8 (large : Bool)
  | utf8View
  /-- byte strings, with offsets of 32 or, if large, 64 bits -/
  | binary (large : Bool)
  | binaryView
  | fixedBinary (width : Int)
  /-- days, or milliseconds, since the start of 1970 -/
  | date (millis : Bool)
  | time (bits : Nat) (unit : TimeUnit)
  | timestamp (unit : TimeUnit) (zone : Option String)
  | duration (unit : TimeUnit)
  | interval (unit : IntervalUnit)
  | decimal (bits : Nat) (precision scale : Int)
  | list (large : Bool) (item : ColumnField)
  | listView (large : Bool) (item : ColumnField)
  | fixedList (size : Int) (item : ColumnField)
  | struct (fields : List ColumnField)
  | union (dense : Bool) (ids : List Int) (fields : List ColumnField)
  | map (entries : ColumnField) (sorted : Bool)
  | runEnd (ends values : ColumnField)
  | dictionary (keyBits : Nat) (keySigned : Bool) (values : ColumnType)

/-- A column of a stream, or a child of one. -/
inductive ColumnField where
  | mk (name : String) (nullable : Bool) (type : ColumnType) (notes : List (String × String))

end

instance : Inhabited ColumnType := ⟨.null⟩

namespace ColumnField

def name : ColumnField → String
  | .mk name _ _ _ => name

def nullable : ColumnField → Bool
  | .mk _ nullable _ _ => nullable

def type : ColumnField → ColumnType
  | .mk _ _ type _ => type

end ColumnField

/-- The type of the column that a field is written to. -/
def columnType : FieldType → ColumnType
  | .boolean => .boolean
  | .int64 => .int 64 true
  | .float64 => .float 64
  | .string => .utf8 false
  | .bytes => .binary false
  | .date => .date false
  | .timestamp => .timestamp .micro none

/-! ## Names of types -/

/-- What is attached to a child, as it is shown behind its type. -/
def shownNotes : List (String × String) → String
  | [] => ""
  | notes =>
    ", metadata: \x7b" ++
      ", ".intercalate (notes.map fun n => Text.quoted n.1 ++ ": " ++ Text.quoted n.2) ++ "\x7d"

mutual

/-- The name of a type in a message. -/
def ColumnType.shown : ColumnType → String
  | .null => "Null"
  | .boolean => "Boolean"
  | .int bits isSigned => (if isSigned then "Int" else "UInt") ++ toString bits
  | .float bits => "Float" ++ toString bits
  | .utf8 large => if large then "LargeUtf8" else "Utf8"
  | .utf8View => "Utf8View"
  | .binary large => if large then "LargeBinary" else "Binary"
  | .binaryView => "BinaryView"
  | .fixedBinary width => "FixedSizeBinary(" ++ toString width ++ ")"
  | .date millis => if millis then "Date64" else "Date32"
  | .time bits unit => "Time" ++ toString bits ++ "(" ++ unit.name ++ ")"
  | .timestamp unit none => "Timestamp(" ++ unit.name ++ ")"
  | .timestamp unit (some zone) => "Timestamp(" ++ unit.name ++ ", " ++ Text.quoted zone ++ ")"
  | .duration unit => "Duration(" ++ unit.name ++ ")"
  | .interval unit => "Interval(" ++ unit.name ++ ")"
  | .decimal bits precision scale =>
    "Decimal" ++ toString bits ++ "(" ++ toString precision ++ ", " ++ toString scale ++ ")"
  | .list large item => (if large then "LargeList(" else "List(") ++ item.shownItem ++ ")"
  | .listView large item =>
    (if large then "LargeListView(" else "ListView(") ++ item.shownItem ++ ")"
  | .fixedList size item => "FixedSizeList(" ++ toString size ++ " x " ++ item.shownItem ++ ")"
  | .struct fields => "Struct(" ++ ", ".intercalate (shownFields fields) ++ ")"
  | .union dense ids fields =>
    "Union(" ++ (if dense then "Dense" else "Sparse") ++
      String.join ((ids.zip (shownFields fields)).map fun m =>
        ", " ++ toString m.1 ++ ": (" ++ m.2 ++ ")") ++ ")"
  | .map entries sorted =>
    "Map(" ++ entries.shown ++ ", " ++ (if sorted then "sorted" else "unsorted") ++ ")"
  | .runEnd ends values => "RunEndEncoded(" ++ ends.shown ++ ", " ++ values.shown ++ ")"
  | .dictionary keyBits keySigned values =>
    "Dictionary(" ++ (if keySigned then "Int" else "UInt") ++ toString keyBits ++ ", " ++
      values.shown ++ ")"

/-- The element of a list: its type, and its name when that is not the
usual one. -/
def ColumnField.shownItem : ColumnField → String
  | .mk name nullable type notes =>
    (if nullable then "" else "non-null ") ++ type.shown ++
      (if name = "item" then "" else ", field: '" ++ name ++ "'") ++ shownNotes notes

/-- A child with its name. -/
def ColumnField.shown : ColumnField → String
  | .mk name nullable type notes =>
    Text.quoted name ++ ": " ++ (if nullable then "" else "non-null ") ++ type.shown ++
      shownNotes notes

/-- Children with their names. -/
def shownFields : List ColumnField → List String
  | [] => []
  | f :: fs => f.shown :: shownFields fs

end

/-! ## Types inside a type -/

mutual

/-- A type and all types inside it. -/
def ColumnType.parts : ColumnType → List ColumnType
  | .list large item => .list large item :: item.parts
  | .listView large item => .listView large item :: item.parts
  | .fixedList size item => .fixedList size item :: item.parts
  | .map entries sorted => .map entries sorted :: entries.parts
  | .struct fields => .struct fields :: partsOf fields
  | .union dense ids fields => .union dense ids fields :: partsOf fields
  | .runEnd ends values => .runEnd ends values :: (ends.parts ++ values.parts)
  | .dictionary keyBits keySigned values => .dictionary keyBits keySigned values :: values.parts
  | type => [type]

/-- The type of a child and all types inside it. -/
def ColumnField.parts : ColumnField → List ColumnType
  | .mk _ _ type _ => type.parts

/-- The types of children and all types inside them. -/
def partsOf : List ColumnField → List ColumnType
  | [] => []
  | f :: fs => f.parts ++ partsOf fs

end

/-- Whether the ends of runs may be of a type: an integer with a sign, of
at least 16 bits. -/
def ColumnType.isRunEnd : ColumnType → Bool
  | .int bits isSigned => isSigned && bits != 8
  | _ => false

/-- Whether there is no column of a type, an empty one included, so that
metadata which asks for one makes no sense. -/
def ColumnType.isBarred : ColumnType → Bool
  | .fixedBinary width => width < 0
  | .union _ _ fields => fields.isEmpty
  | .map (.mk _ _ (.struct [_, _]) _) _ => false
  | .map .. => true
  | .runEnd ends _ => !ends.type.isRunEnd
  | _ => false

/-- Whether every column of a type is corrupt, an empty one included. -/
def ColumnType.isFlawed : ColumnType → Bool
  | .fixedList size _ => size < 0
  | .runEnd ends _ => ends.nullable
  | _ => false

/-! ## Reading descriptions -/

/-- The width of an integer type. -/
def intWidth? (bits : Int) : Option Nat := [8, 16, 32, 64].find? fun w : Nat => (w : Int) == bits

/-- The width of a decimal type. -/
def decimalWidth? (bits : Int) : Option Nat :=
  [32, 64, 128, 256].find? fun w : Nat => (w : Int) == bits

def timeUnit? (code : Int) : Option TimeUnit :=
  if code = 0 then some .second
  else if code = 1 then some .milli
  else if code = 2 then some .micro
  else if code = 3 then some .nano
  else none

/-- The type without children that a table describes. -/
def leafType? : TypeTable → Option ColumnType
  | .plain code =>
    match code with
    | 1 => some .null
    | 4 => some (.binary false)
    | 5 => some (.utf8 false)
    | 6 => some .boolean
    | 19 => some (.binary true)
    | 20 => some (.utf8 true)
    | 23 => some .binaryView
    | 24 => some .utf8View
    | _ => none
  | .int bits isSigned => (intWidth? bits).map fun w => .int w isSigned
  | .float precision =>
    if precision = 0 then some (.float 16)
    else if precision = 1 then some (.float 32)
    else if precision = 2 then some (.float 64)
    else none
  | .decimal precision scale bits =>
    if 0 ≤ precision ∧ precision < 256 ∧ -128 ≤ scale ∧ scale < 128 then
      (decimalWidth? bits).map fun w => .decimal w precision scale
    else none
  | .date unit => if unit = 0 then some (.date false) else if unit = 1 then some (.date true) else none
  | .time unit bits =>
    match timeUnit? unit with
    | some .second => if bits = 32 then some (.time 32 .second) else none
    | some .milli => if bits = 32 then some (.time 32 .milli) else none
    | some unit => if bits = 64 then some (.time 64 unit) else none
    | none => none
  | .timestamp unit zone => (timeUnit? unit).map fun u => .timestamp u zone
  | .interval unit =>
    if unit = 0 then some (.interval .yearMonth)
    else if unit = 1 then some (.interval .dayTime)
    else if unit = 2 then some (.interval .monthDayNano)
    else none
  | .fixedBinary width => some (.fixedBinary width)
  | .duration unit => (timeUnit? unit).map .duration
  | _ => none

/-- The name and value of each note that has both, in the order of the
names, the last of a name winning. -/
def fullNotes (notes : Notes) : List (String × String) :=
  let kept := notes.foldl (fun seen n =>
    match n with
    | (some name, some value) => seen.filter (fun s => s.1 ≠ name) ++ [(name, value)]
    | _ => seen) []
  kept.mergeSort fun a b => a.1 ≤ b.1

/-- The ids of the members of a union, one for each: given, or their
positions. Ids are taken modulo 256 as signed bytes and have to be distinct
and not negative. -/
def unionIds? (ids : Option (List Int)) (members : Nat) : Option (List Int) :=
  match ids with
  | none => if members ≤ 128 then some ((List.range members).map Int.ofNat) else none
  | some ids =>
    let ids := ids.map fun i => i.bmod 256
    if ids.length = members ∧ ids.all (fun i => 0 ≤ i) ∧ ids.Nodup then some ids else none

/-- The type of a column from its description and its children. -/
def typeOf? (table : TypeTable) (children : Option (List ColumnField)) : Option ColumnType :=
  match table, children with
  -- 12, 21, 25 and 26 are lists and views of lists, 13 a structure, 22 runs
  | .plain 12, some [item] => some (.list false item)
  | .plain 21, some [item] => some (.list true item)
  | .plain 25, some [item] => some (.listView false item)
  | .plain 26, some [item] => some (.listView true item)
  | .fixedList size, some [item] => some (.fixedList size item)
  | .plain 13, fields => some (.struct (fields.getD []))
  | .union mode ids, fields =>
    let fields := fields.getD []
    if mode = 0 ∨ mode = 1 then
      (unionIds? ids fields.length).map fun ids => .union (mode == 1) ids fields
    else none
  | .map sorted, some [entries] => some (.map entries sorted)
  | .plain 22, some [ends, values] => some (.runEnd ends values)
  | table, _ => leafType? table

/-- Whether the children of a column are part of its type. -/
def usesChildren : TypeTable → Bool
  | .plain code => [12, 13, 21, 22, 25, 26].contains code
  | .union .. | .fixedList .. | .map .. => true
  | _ => false

/-- The type of a column whose values may be kept in a dictionary. -/
def keyed? (dictionary : Option DictionaryTable) (values : ColumnType) : Option ColumnType :=
  match dictionary with
  | none => some values
  | some d =>
    match d.key with
    | none => none
    | some (bits, isSigned) => (intWidth? bits).map fun w => .dictionary w isSigned values

mutual

/-- The column that a table describes; one that is given no name has the
empty one. -/
def fieldOf? : FieldTable → Option ColumnField
  | .mk name nullable type dictionary children notes => do
    let children ← if usesChildren type then childrenOf? children else some none
    let values ← typeOf? type children
    let type ← keyed? dictionary values
    return .mk (name.getD "") nullable type (fullNotes notes)

/-- The children that a table describes. -/
def childrenOf? : Option (List FieldTable) → Option (Option (List ColumnField))
  | none => some none
  | some fields => (fieldsOf? fields).map some

/-- The columns that tables describe. -/
def fieldsOf? : List FieldTable → Option (List ColumnField)
  | [] => some []
  | f :: fs => do return (← fieldOf? f) :: (← fieldsOf? fs)

end

/-- The columns of a stream: decimals are not read with the highest byte
first. -/
def SchemaTable.columns? (s : SchemaTable) : Option (List ColumnField) := do
  let fields ← s.fields
  if s.bigEndian && fields.any fun f => match f with
    | .mk _ _ (.decimal ..) _ _ _ => true
    | _ => false
  then none
  else fieldsOf? fields

end Intake.Columns
