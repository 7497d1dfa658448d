import Intake.Columns.Values
/-!
# Columns with children

Lists, structures, unions, runs and dictionaries, built from children
that have been read. None of these has cells: a column of such a type fits
no field. A structure asks of a child that may not be null which of its
slots hold a value; a column of runs or of one of several types tells that
by its children and not by a bitmap of its own.
-/

namespace Intake.Columns

/-! ## Lists -/

/-- A list column, from the offsets of its elements. -/
def buildList (type : ColumnType) (nullable : Bool) (width length nulls : Nat)
    (nullBuffer offsetBuffer : Bytes) (child : Column) : Build Column := do
  let valid ← bitmap nullBuffer length nulls
  if offsetBuffer.length < length * width then corrupt
  else
    requireRoom length nulls
    let os ← offsets width length offsetBuffer
    if ordered child.length 0 os then
      requireNulls valid nulls
      requireChild none nullable child.valid
      return .plain type length valid []
    else corrupt

/-- A list column whose elements are told by offset and size. -/
def buildListView (type : ColumnType) (width length nulls : Nat)
    (nullBuffer offsetBuffer sizeBuffer : Bytes) (child : Column) : Build Column := do
  let valid ← bitmap nullBuffer length nulls
  if offsetBuffer.length < length * width ∨ sizeBuffer.length < length * width then corrupt
  else
    requireRoom length nulls
    if offsetBuffer.length % width ≠ 0 ∨ sizeBuffer.length % width ≠ 0 then nonsense
    else
      let os := (words width length offsetBuffer).map (Bytes.signed width)
      let sizes := (words width length sizeBuffer).map (Bytes.signed width)
      if (os.zip sizes).all fun p => 0 ≤ p.1 && 0 ≤ p.2 && p.1 + p.2 ≤ child.length then
        requireNulls valid nulls
        return .plain type length valid []
      else corrupt

/-- A list column whose lists are of one size. -/
def buildFixedList (type : ColumnType) (nullable : Bool) (size : Int) (length nulls : Nat)
    (nullBuffer : Bytes) (child : Column) : Build Column := do
  let valid ← bitmap nullBuffer length nulls
  requireRoom length nulls
  if size < 0 ∨ child.length < length * size.toNat then corrupt
  else
    requireNulls valid nulls
    let parent := valid.map fun bits => bits.flatMap (List.replicate size.toNat)
    requireChild parent nullable child.valid
    return .plain type length valid []

/-! ## Structures -/

/-- Goes on only if every child is of the given length and has nulls only
where it may. -/
def requireMembers (length : Nat) (valid : Bits) : List (Bool × Column) → Build Unit
  | [] => return
  | (nullable, child) :: rest => do
    if child.length ≠ length then corrupt
    else
      unless nullable do requireChild valid false (← child.holds)
      requireMembers length valid rest

/-- A column of structures: as long as its children, if it has any. -/
def buildStruct (type : ColumnType) (nullable : List Bool) (length nulls : Nat)
    (nullBuffer : Bytes) (children : List Column) : Build Column := do
  let valid ← bitmap nullBuffer length nulls
  requireNulls valid nulls
  match children with
  | [] => return .plain type length valid []
  | c :: _ =>
    if valid.isSome ∧ length ≠ c.length then corrupt
    else
      requireMembers c.length valid (nullable.zip children)
      return .plain type c.length valid []

/-! ## Unions -/

/-- The bits of each member of a union by its id. -/
def membersHold : List (Int × Column) → Except Defect (List (Int × Bits))
  | [] => .ok []
  | (id, c) :: rest => do
    let bits ← c.holds
    return (id, bits) :: (← membersHold rest)

/-- The slots of a union that hold a value: each as its member does at the
slot's position. A union of one member holds what the member holds. -/
def unionHolds (members : List (Int × Column)) (slots : List (Int × Nat)) : Except Defect Bits :=
  match members with
  | [(_, c)] => c.holds
  | _ => do
    let held := (← membersHold members).map fun m => (m.1, m.2.map List.toArray)
    if held.all fun m => m.2.isNone then return none
    else
      return some (slots.map fun s =>
        match held.lookup s.1 with
        | some (some bits) => bits[s.2]?.getD true
        | _ => true)

/-- A column of one of several types: for each slot the id of its type,
and, if dense, the position in the child of that type. A sparse child is as
long as the union. -/
def buildUnion (type : ColumnType) (dense : Bool) (ids : List Int) (typeIds : List Int)
    (positions : List Int) (children : List Column) : Build Column := do
  let members := ids.zip children
  let length := typeIds.length
  if !dense ∧ children.any (fun c => c.length ≠ length) then corrupt
  else if typeIds.all (fun id => members.any fun m => m.1 == id) then
    let slots := typeIds.zip (if dense then positions else (List.range length).map Int.ofNat)
    let inside := slots.all fun s =>
      members.any fun m => m.1 == s.1 && 0 ≤ s.2 && s.2 < m.2.length
    if inside then
      let slots := slots.map fun s => (s.1, s.2.toNat)
      return ⟨type, length, none, unionHolds members slots, []⟩
    else corrupt
  else corrupt

/-! ## Runs -/

/-- Whether ends of runs grow from above `low` and reach `length`. -/
def reaching (length low : Int) : List Int → Bool
  | [] => length ≤ low
  | e :: es => low < e && reaching length e es

/-- The slots of a column of runs that hold a value, from slot `start` on:
all of a run if its value is none of the nulls. -/
def runHolds (length start : Nat) : List Nat → List Bool → Except Defect (List Bool)
  | [], _ => .ok (List.replicate (length - start) true)
  | _ :: _, [] => .error .metadata
  | e :: es, bit :: bits =>
    let stop := min e length
    if stop = length then .ok (List.replicate (length - start) bit)
    else (runHolds length stop es bits).map (List.replicate (stop - start) bit ++ ·)

/-- A column of runs: the children hold the ends of the runs and their
values. -/
def buildRuns (type : ColumnType) (length : Nat) (endsNullable : Bool) (ends values : Column) :
    Build Column :=
  if endsNullable ∨ !ends.type.isRunEnd ∨ ends.length ≠ values.length ∨ ends.valid.isSome then
    corrupt
  else
    let es := ends.cells.filterMap fun c => c.int64?.map Int64.toInt
    if reaching length 0 es then
      let holds := do
        match ← values.holds with
        | none => return none
        | some bits => return some (← runHolds length 0 (es.map Int.toNat) bits)
      return ⟨type, length, none, holds, []⟩
    else corrupt

/-! ## Dictionaries -/

/-- A dictionary column. No stream of batches carries a dictionary: it
stands for an empty column of its type, and every slot has to be null. -/
def buildKeys (keyBits : Nat) (keySigned : Bool) (values : ColumnType) (length nulls : Nat)
    (nullBuffer keys : Bytes) : Build Column := do
  let width := keyBits / 8
  if values.parts.any ColumnType.isBarred then nonsense
  else
    let valid ← bitmap nullBuffer length nulls
    if keys.length < length * width then corrupt
    else
      requireRoom length nulls
      if values.parts.any ColumnType.isFlawed then corrupt
      else
        requireNulls valid nulls
        if keys.length % width ≠ 0 then nonsense
        else if (valid.getD (List.replicate length true)).contains true then corrupt
        else return .plain (.dictionary keyBits keySigned values) length valid []

end Intake.Columns
