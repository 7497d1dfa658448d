import Intake.Columns.Nested
/-!
# Columns of a block

The body of a block holds, for every column and child of one, a bitmap of
the slots that are not null and the buffers of its values. The columns are
built in the order of the schema, children after the buffers of their
parent.
-/

namespace Intake.Columns

/-! ## Reading a column -/

/-- The version of the format from which on a union has no bitmap. -/
def versionWithoutUnionBitmap : Int := 4

/-- The next column of views: its buffers come before its length. -/
def buildViewColumn (src : Source) (isText : Bool) : Build Column := do
  let count := (← nextVariadic) + 2
  -- the count is a word of 64 bits
  if Int64.maxValue.toInt < count then nonsense
  else
    let buffers ← nextBuffers src count.toNat
    let (length, nulls) ← nextNode
    match buffers with
    | nullBuffer :: views :: rest => buildViews isText length nulls nullBuffer views rest
    | [nullBuffer] =>
      let _ ← bitmap nullBuffer length nulls
      corrupt
    | [] => nonsense

mutual

/-- The next column, of a given type. -/
def buildColumn (src : Source) : ColumnType → Build Column
  | .null => do
    let (length, nulls) ← nextNode
    if length = nulls then return ⟨.null, length, none, .ok (allNull length), []⟩ else corrupt
  | .boolean => do
    let (length, nulls) ← nextNode
    let nullBuffer ← nextBuffer src
    let values ← nextBuffer src
    buildBits length nulls nullBuffer values
  | .utf8 large => do
    let (length, nulls) ← nextNode
    let nullBuffer ← nextBuffer src
    let offsetBuffer ← nextBuffer src
    let values ← nextBuffer src
    buildStretches true large length nulls nullBuffer offsetBuffer values
  | .binary large => do
    let (length, nulls) ← nextNode
    let nullBuffer ← nextBuffer src
    let offsetBuffer ← nextBuffer src
    let values ← nextBuffer src
    buildStretches false large length nulls nullBuffer offsetBuffer values
  | .utf8View => buildViewColumn src true
  | .binaryView => buildViewColumn src false
  | .list large (.mk name nullable type notes) => do
    let (length, nulls) ← nextNode
    let nullBuffer ← nextBuffer src
    let offsetBuffer ← nextBuffer src
    let child ← buildColumn src type
    buildList (.list large (.mk name nullable type notes)) nullable (if large then 8 else 4)
      length nulls nullBuffer offsetBuffer child
  | .listView large (.mk name nullable type notes) => do
    let (length, nulls) ← nextNode
    let nullBuffer ← nextBuffer src
    let offsetBuffer ← nextBuffer src
    let sizeBuffer ← nextBuffer src
    let child ← buildColumn src type
    buildListView (.listView large (.mk name nullable type notes)) (if large then 8 else 4)
      length nulls nullBuffer offsetBuffer sizeBuffer child
  | .fixedList size (.mk name nullable type notes) => do
    let (length, nulls) ← nextNode
    let nullBuffer ← nextBuffer src
    let child ← buildColumn src type
    buildFixedList (.fixedList size (.mk name nullable type notes)) nullable size length nulls
      nullBuffer child
  | .map (.mk name nullable type notes) sorted => do
    let (length, nulls) ← nextNode
    let nullBuffer ← nextBuffer src
    let offsetBuffer ← nextBuffer src
    let child ← buildColumn src type
    let column ← buildList (.map (.mk name nullable type notes) sorted) nullable 4 length nulls
      nullBuffer offsetBuffer child
    match type with
    | .struct [_, _] => return column
    | _ => nonsense
  | .struct fields => do
    let (length, nulls) ← nextNode
    let nullBuffer ← nextBuffer src
    let children ← buildColumns src fields
    buildStruct (.struct fields) (fields.map ColumnField.nullable) length nulls nullBuffer children
  | .union dense ids fields => do
    let (length, _) ← nextNode
    if src.version < versionWithoutUnionBitmap then
      let _ ← nextBuffer src
    let typeIds ← firstBytes length (← nextBuffer src)
    let count := if dense then length else 0
    let positions ← if dense then nextAligned src 4 count else pure []
    let children ← buildColumns src fields
    buildUnion (.union dense ids fields) dense ids ((words 1 length typeIds).map (Bytes.signed 1))
      ((words 4 count positions).map (Bytes.signed 4)) children
  | .runEnd (.mk endsName endsNullable endsType endsNotes)
      (.mk valuesName valuesNullable valuesType valuesNotes) => do
    let (length, _) ← nextNode
    let ends ← buildColumn src endsType
    let values ← buildColumn src valuesType
    buildRuns (.runEnd (.mk endsName endsNullable endsType endsNotes)
      (.mk valuesName valuesNullable valuesType valuesNotes)) length endsNullable ends values
  | .dictionary keyBits keySigned values => do
    let (length, nulls) ← nextNode
    let nullBuffer ← nextBuffer src
    let keys ← nextBuffer src
    buildKeys keyBits keySigned values length nulls nullBuffer keys
  | type => do
    let (length, nulls) ← nextNode
    let nullBuffer ← nextBuffer src
    let values ← nextBuffer src
    buildWords type length nulls nullBuffer values

/-- The next columns, of given types. -/
def buildColumns (src : Source) : List ColumnField → Build (List Column)
  | [] => return []
  | .mk _ _ type _ :: fields => do
    let column ← buildColumn src type
    return column :: (← buildColumns src fields)

end

/-! ## Reading a block -/

/-- Goes on only if the columns are as long as the block and those that
may not be null have no nulls. -/
def requireBlock (length : Nat) (fields : List ColumnField) (columns : List Column) :
    Build Unit :=
  if (fields.zip columns).any fun p => !p.1.nullable && p.2.valid.nulls != 0 then corrupt
  else if columns.any fun c => c.length != length then corrupt
  else pure ()

/-- The columns of a block. All its counts of further buffers have to be
used; columns and buffers may be left over. -/
def BlockTable.columns (b : BlockTable) (fields : List ColumnField) (src : Source) :
    Except Defect (List Column) :=
  match b.buffers, b.nodes with
  | some buffers, some nodes =>
    let read : Build (List Column) := do
      let columns ← buildColumns src fields
      if !(← get).variadic.isEmpty then nonsense
      else
        requireBlock b.length.toNat fields columns
        return columns
    (read ⟨nodes, buffers, b.variadic⟩).map Prod.fst
  | _, _ => .error .column

end Intake.Columns
