import Intake.Columns.Type
import Intake.Record
/-!
# Taking columns from a block

A block lists how long each column is, how many nulls it has and where
its buffers lie. Reading takes these lists front to back in the order of
the schema.

A column that disagrees with what is told of it is corrupt. Where the
lists themselves make no sense, a buffer outside the body or a bitmap
shorter than its column, the metadata of the stream is.
-/

namespace Intake.Columns

/-- What is wrong with a block: a column of it, or its metadata. -/
inductive Defect where
  | column
  | metadata
  deriving DecidableEq, Repr

/-- What of a block's lists has not been taken yet. -/
structure Lists where
  nodes : List (Int × Int)
  buffers : List (Int × Int)
  variadic : List Int

/-- A reader of columns. -/
abbrev Build (α : Type) := StateT Lists (Except Defect) α

/-- The slots of a column that are not null; `none` if no slot is null. -/
abbrev Bits := Option (List Bool)

/-- A column that has been read. -/
structure Column where
  type : ColumnType
  length : Nat
  /-- the slots that the column's own bitmap lets pass -/
  valid : Bits
  /-- the slots that hold a value once runs and choices are followed, where
  that can be told -/
  holds : Except Defect Bits
  /-- the cells, of a type that has cells -/
  cells : List Cell

/-- A column that tells its nulls by its bitmap alone. -/
def Column.plain (type : ColumnType) (length : Nat) (valid : Bits) (cells : List Cell) : Column :=
  ⟨type, length, valid, .ok valid, cells⟩

/-- The number of nulls in a bitmap. -/
def Bits.nulls : Bits → Nat
  | none => 0
  | some bits => bits.count false

def corrupt {α : Type} : Build α := throw .column

def nonsense {α : Type} : Build α := throw .metadata

/-- The version of a stream, where the body of a block starts in it, and
the body. -/
structure Source where
  version : Int
  start : Nat
  body : Bytes

/-- The length and the number of nulls of the next column. -/
def nextNode : Build (Nat × Nat) := do
  let s ← get
  match s.nodes with
  | [] => corrupt
  | (length, nulls) :: rest =>
    set { s with nodes := rest }
    return (length.toNat, nulls.toNat)

/-- The next buffer, which lies inside the body, and where it starts in
the stream. -/
def nextPlaced (src : Source) : Build (Nat × Bytes) := do
  let s ← get
  match s.buffers with
  | [] => corrupt
  | (offset, length) :: rest =>
    set { s with buffers := rest }
    if 0 ≤ offset ∧ 0 ≤ length ∧ offset + length ≤ src.body.length then
      return (src.start + offset.toNat, (src.body.drop offset.toNat).take length.toNat)
    else nonsense

/-- The next buffer. -/
def nextBuffer (src : Source) : Build Bytes := do
  let (_, buffer) ← nextPlaced src
  return buffer

/-- So many buffers. -/
def nextBuffers (src : Source) : Nat → Build (List Bytes)
  | 0 => return []
  | n + 1 => do
    let b ← nextBuffer src
    return b :: (← nextBuffers src n)

/-- The first `count` bytes of a buffer that has to be long enough. -/
def firstBytes (count : Nat) (buffer : Bytes) : Build Bytes :=
  if buffer.length < count then nonsense else return buffer.take count

/-- The next buffer, for `count` words of `width` bytes that stand in the
stream at a multiple of their width. -/
def nextAligned (src : Source) (width count : Nat) : Build Bytes := do
  let (place, buffer) ← nextPlaced src
  if place % width = 0 then firstBytes (count * width) buffer else nonsense

/-- The number of further buffers of the next column of views. -/
def nextVariadic : Build Int := do
  let s ← get
  match s.variadic with
  | [] => corrupt
  | count :: rest =>
    set { s with variadic := rest }
    return count

end Intake.Columns
