import Intake.Columns.Stream
import Intake.Columns.Writer
import Mathlib.Data.List.Forall2
/-!
# What is asked of a writer

The messages of a stream are made by a writer of which nothing is known
but that it keeps to the format. So much is written down here: the message
that opens a stream describes the fields of the schema, and the message of
a block its columns, with buffers in the body that carry the cells
(`Carries`). How tables are laid out, what stands in the place of a null,
where the buffers lie in the body and whether a column without nulls has a
bitmap is up to the writer.

A writer is honest about a stream if whatever is read of its messages is
so (`StreamWriter.IsHonest`). It implements the format for the stream if
the message that opens it can be read at all (`StreamWriter.Implements`).
-/

namespace Intake.Columns

/-! ## Buffers -/

/-- The cells of a column are null or of its type. -/
def OfType (type : FieldType) (cells : List Cell) : Prop :=
  ∀ c ∈ cells, c = .null ∨ c.type? = some type

/-- The slots of a column: its cells, and where a cell is null a cell of the
type or nothing at all. -/
structure Fills (type : FieldType) (cells slots : List Cell) : Prop where
  ofType : OfType type slots
  same : List.Forall₂ (fun c x => c.isNull = false → x = c) cells slots

/-- A buffer holds the bitmap of a column, which is of use only if the
column has nulls. -/
def HoldsNulls (cells : List Cell) (buffer : Bytes) : Prop :=
  cells.any Cell.isNull = true → (cells.map fun c => !c.isNull) <+: bitsOf buffer

/-- The offsets of pieces that are put together, the first at `start`. -/
def offsetsOf : Nat → List Bytes → List Nat
  | start, [] => [start]
  | start, bs :: bss => start :: offsetsOf (start + bs.length) bss

/-- The buffers of the slots of a column of a type. -/
inductive HoldsSlots : FieldType → List Cell → List Bytes → Prop
  /-- a bit for each slot -/
  | bits {slots : List Cell} {values : Bytes} :
    (slots.map fun c => c == .boolean true) <+: bitsOf values → HoldsSlots .boolean slots [values]
  /-- a word for each slot -/
  | words {type : FieldType} {slots : List Cell} :
    (valueWidth? (columnType type)).isSome = true →
      HoldsSlots type slots [(slots.map (cellBytes type)).flatten]
  /-- the bytes of each slot, and where they start and end -/
  | pieces {type : FieldType} {slots : List Cell} {offsets : Bytes} :
    type = .string ∨ type = .bytes →
    (slots.map (cellBytes type)).flatten.length ≤ columnLimit →
    offsets = ((offsetsOf 0 (slots.map (cellBytes type))).map (Bytes.ofNat 4)).flatten ∨
      slots = [] ∧ offsets = [] →
    HoldsSlots type slots [offsets, (slots.map (cellBytes type)).flatten]

/-- Buffers carry a column of a type. -/
def Carries (type : FieldType) (cells : List Cell) (buffers : List Bytes) : Prop :=
  ∃ slots nulls values, buffers = nulls :: values ∧ Fills type cells slots ∧
    HoldsNulls cells nulls ∧ HoldsSlots type slots values

/-- A buffer stands at a place of a body. -/
def Stands (body : Bytes) (place : Int × Int) (buffer : Bytes) : Prop :=
  0 ≤ place.1 ∧ place.2 = buffer.length ∧ place.1 + place.2 ≤ body.length ∧
    (body.drop place.1.toNat).take buffer.length = buffer

instance (body : Bytes) (place : Int × Int) (buffer : Bytes) :
    Decidable (Stands body place buffer) := by
  unfold Stands
  infer_instance

/-! ## Messages -/

/-- The type of a field as its column tells it. -/
def typeTable : FieldType → TypeTable
  | .boolean => .plain 6
  | .int64 => .int 64 true
  | .float64 => .float 2
  | .string => .plain 5
  | .bytes => .plain 4
  | .date => .date 0
  | .timestamp => .timestamp 2 none

/-- What the header of a schema tells of a field. Its type has no
children. -/
def FieldTable.Describes : FieldTable → Field → Prop
  | .mk name nullable type dictionary _ notes, f =>
    name = some f.name ∧ nullable = f.nullable ∧ type = typeTable f.type ∧ dictionary = none ∧
      notes = []

instance (t : FieldTable) (f : Field) : Decidable (t.Describes f) := by
  cases t
  unfold FieldTable.Describes
  infer_instance

/-- A header that tells the fields of a schema. -/
def Header.Describes (s : Schema) : Header → Prop
  | .schema ⟨_, some fields⟩ => List.Forall₂ FieldTable.Describes fields s.fields
  | _ => False

instance (s : Schema) (header : Header) : Decidable (header.Describes s) := by
  unfold Header.Describes
  split <;> infer_instance

/-- The block that a header tells, if it is that of one. -/
def Header.block? : Header → Option BlockTable
  | .block table => some table
  | _ => Option.none

theorem Header.eq_of_block? {header : Header} {t : BlockTable} (h : header.block? = some t) :
    header = .block t := by
  cases header <;> cases h
  rfl

/-- Pairs of numbers as the header of a block tells them. -/
def told (ps : List (Nat × Nat)) : List (Int × Int) := ps.map fun p => ((p.1 : Int), (p.2 : Int))

/-- The columns of a block as its header tells them: how long each is and
how many nulls it has. -/
def nodesOf (columns : List (Field × List Cell)) : List (Nat × Nat) :=
  columns.map fun c => (c.2.length, (c.2.filter Cell.isNull).length)

/-- What the header of a block tells of its columns, the buffers of which
stand in the body. -/
structure BlockTable.Describes (t : BlockTable) (body : Bytes) (rows : Nat)
    (columns : List (Field × List Cell)) : Prop where
  length_eq : t.length = rows
  nodes_eq : t.nodes = some (told (nodesOf columns))
  carried : ∃ places buffers, t.buffers = some places ∧
    List.Forall₂ (fun c bs => Carries c.1.type c.2 bs) columns buffers ∧
    List.Forall₂ (Stands body) places buffers.flatten
  compressed_eq : t.compressed = false
  variadic_eq : t.variadic = []

namespace StreamWriter

/-- The message of a block is read as one of its columns. -/
structure WritesBlock (w : StreamWriter) (rows : Nat) (columns : List (Field × List Cell)) :
    Prop where
  length_le : (w.block rows columns).1.length ≤ metadataLimit
  read : ∃ m t, Message.ofBytes? (w.block rows columns).1 = some m ∧
    m.bodyLength = (w.block rows columns).2.length ∧ m.header.block? = some t ∧
    t.Describes (w.block rows columns).2 rows columns

/-- **A writer is honest about a stream**: the message that opens it is
read, if at all, as one of the fields of the schema, and that of each block
that may be written as one of its columns. -/
structure IsHonest (w : StreamWriter) (s : Schema) (blocks : List (List Record)) : Prop where
  opening_ne_nil : w.opening s ≠ []
  opening : ∀ m, Message.ofBytes? (w.opening s) = some m →
    m.bodyLength = 0 ∧ m.header.Describes s
  block : ∀ rows ∈ blocks, ∀ columns, columnsOf rows 0 s.fields = .ok columns →
    columns.all isWritable = true → w.WritesBlock rows.length columns

/-- **A writer implements the format for a stream**: it is honest, and the
message that opens the stream is one that is read. The latter is asked for
by itself as a reader takes messages of no more than a million tables, so
that the format has none for half a million fields. -/
structure Implements (w : StreamWriter) (s : Schema) (blocks : List (List Record)) : Prop
    extends w.IsHonest s blocks where
  length_opening_le : (w.opening s).length ≤ metadataLimit
  isSome_opening : (Message.ofBytes? (w.opening s)).isSome = true

end StreamWriter

end Intake.Columns
