import Intake.Columns.Column
import Intake.Columns.Frame
import Intake.Layout
/-!
# Column batches

A column batch is a stream of its own: a schema and blocks of columns.
Its columns have to be those of the wire schema by name and order. Of a
block, the columns of the layout are taken, each held against the type of
its field, and turned into records row by row. A failure in a block is
told with the place where the search for the block began; metadata that
makes no sense spoils the batch as a whole.
-/

namespace Intake.Columns

/-! ## Rows of a block -/

/-- Whether a column may stand for a field of a type: of its own type, in
one of the widths there are. -/
def fitsType : FieldType → ColumnType → Bool
  | .boolean, .boolean => true
  | .int64, .int 64 true => true
  | .int64, .int 32 true => true
  | .float64, .float 64 => true
  | .string, .utf8 _ => true
  | .bytes, .binary _ => true
  | .date, .date false => true
  | .timestamp, .timestamp .micro _ => true
  | _, _ => false

/-- A field may be read from the column it is written to. -/
theorem fitsType_columnType (t : FieldType) : fitsType t (columnType t) = true := by
  cases t <;> rfl

/-- Why no records come out of the columns of a block. -/
inductive BlockFault where
  /-- the layout refers to a column that the block does not have -/
  | noSuchColumn
  | refused (cause : DecodeCause)

/-- The column that stands for a field. -/
def bindColumn (columns : List Column) (f : Field) (index : Nat) :
    Except BlockFault (Field × List Cell) :=
  match columns[index]? with
  | none => .error .noSuchColumn
  | some c =>
    if fitsType f.type c.type then .ok (f, c.cells)
    else .error (.refused (.otherType f.name f.type c.type.shown))

/-- The columns that stand for the fields of a layout. -/
def bindColumns (columns : List Column) :
    List (Field × Nat) → Except BlockFault (List (Field × List Cell))
  | [] => .ok []
  | (f, i) :: rest =>
    match bindColumn columns f i with
    | .error e => .error e
    | .ok bound => (bindColumns columns rest).map (bound :: ·)

/-- The cells of row number `index`, which is the first that is left of
the columns. -/
def rowOf (index : Nat) : List (Field × List Cell) → Except DecodeCause (List Cell)
  | [] => .ok []
  | (f, cells) :: rest =>
    let c := cells.head?.getD .null
    if c.isNull && !f.nullable then .error (.nullRequired f.name index)
    else (rowOf index rest).map (c :: ·)

/-- The records of `count` rows from row number `index` on. -/
def rowsOf : Nat → Nat → List (Field × List Cell) → Except DecodeCause (List Record)
  | 0, _, _ => .ok []
  | count + 1, index, columns =>
    match rowOf index columns with
    | .error e => .error e
    | .ok cells =>
      (rowsOf count (index + 1) (columns.map fun c => (c.1, c.2.tail))).map (⟨cells⟩ :: ·)

/-- The records of a block of `count` rows. -/
def blockRecords (l : Layout) (count : Nat) (columns : List Column) :
    Except BlockFault (List Record) :=
  match bindColumns columns l.columns with
  | .error e => .error e
  | .ok bound => (rowsOf count 0 bound).mapError .refused

/-! ## Messages in turn -/

/-- The schema of a stream as far as it has been read. -/
inductive Seen where
  | nothing
  /-- a schema whose names have not been looked at -/
  | unchecked (fields : List ColumnField)
  | checked (fields : List ColumnField)

/-- What makes the metadata of a batch useless. -/
def spoilt : DecodeError := ⟨.corruptMetadata, some 0⟩

/-- The columns of a stream are those of the wire schema. -/
def checkNames (names : List String) (fields : List ColumnField) : Except DecodeError Unit :=
  let carried := fields.map ColumnField.name
  if carried = names then .ok () else .error ⟨.otherFields carried names, none⟩

/-- The schema of a stream once its names have been looked at. -/
def Seen.check (names : List String) : Seen → Except DecodeError Seen
  | .nothing => .ok .nothing
  | .unchecked fields => (checkNames names fields).map fun _ => .checked fields
  | .checked fields => .ok (.checked fields)

/-- The columns of a schema that has been read. -/
def Seen.fields? : Seen → Option (List ColumnField)
  | .nothing => none
  | .unchecked fields => some fields
  | .checked fields => some fields

/-- The records of the messages of a stream, from block number `block` on,
whose search began at `began`. A last message without a body that no end
mark follows is left unread, and the stream is then cut short. -/
def readFrames (names : List String) (l : Layout) (total : Nat) (ended : Bool) :
    List Frame → Seen → Nat → Nat → Except DecodeError (List Record)
  | [], seen, _, _ =>
    match seen.check names with
    | .error e => .error e
    | .ok .nothing => .error ⟨.noSchema, some 0⟩
    | .ok _ => .ok []
  | f :: fs, seen, block, began =>
    -- with nothing behind it, a message without a body is never completed
    if fs.isEmpty ∧ f.body.isEmpty ∧ !ended then
      match seen.check names with
      | .error e => .error e
      | .ok _ => .error ⟨.cutStream, some total⟩
    else
      match f.message.header with
      | .schema table =>
        match seen.fields?, table.columns? with
        | some _, _ => .error ⟨.corruptBlock block, some began⟩
        | none, none => .error spoilt
        | none, some fields => readFrames names l total ended fs (.unchecked fields) block began
      | .block table =>
        match seen.fields? with
        | none => .error ⟨.corruptBlock block, some began⟩
        | some fields =>
          match table.columns fields ⟨f.message.version, f.bodyStart, f.body⟩ with
          | .error .column => .error ⟨.corruptBlock block, some began⟩
          | .error .metadata => .error spoilt
          | .ok columns =>
            -- the names are looked at only once a block is there
            match seen.check names with
            | .error e => .error e
            | .ok seen =>
              match blockRecords l table.length.toNat columns with
              | .error .noSuchColumn => .error spoilt
              | .error (.refused cause) => .error ⟨cause, none⟩
              | .ok records =>
                let next := match fs with
                  | [] => total
                  | g :: _ => g.start
                (readFrames names l total ended fs seen (block + 1) next).map (records ++ ·)
      | _ => readFrames names l total ended fs seen block began

/-- The records of a column batch for the wire schema `s`. -/
def decode (s : Schema) (l : Layout) (data : Bytes) : Except DecodeError (List Record) :=
  if data.isEmpty then .error ⟨.emptyStream, some 0⟩
  else
    match frames data with
    | .error e => .error e
    | .ok fs => readFrames s.names l data.length fs.ended fs.frames .nothing 0 0

end Intake.Columns
