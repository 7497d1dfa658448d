import Intake.Columns.Flat
/-!
# Messages of a column stream

The metadata of each message of a stream is a flat table: the length of
the body behind it, and a header that is a schema, a block of columns or
one of the kinds that no stream of batches has. Of the latter only the
shape is checked. Tables are read as they are written, without judging
what they describe.
-/

namespace Intake.Columns

open Flat

/-! ## What messages hold -/

/-- The type of a column, as the code of its kind and the numbers kept
with it. -/
inductive TypeTable where
  /-- a kind without numbers of its own, or one that is not known -/
  | plain (code : Nat)
  | int (bits : Int) (isSigned : Bool)
  | float (precision : Int)
  | decimal (precision scale bits : Int)
  | date (unit : Int)
  | time (unit bits : Int)
  | timestamp (unit : Int) (zone : Option String)
  | interval (unit : Int)
  | union (mode : Int) (ids : Option (List Int))
  | fixedBinary (width : Int)
  | fixedList (size : Int)
  | map (sorted : Bool)
  | duration (unit : Int)
  deriving DecidableEq, Repr, Inhabited

/-- The integer type of the keys of a dictionary column, if it is given. -/
structure DictionaryTable where
  key : Option (Int × Bool)
  deriving DecidableEq, Repr

/-- Names and values attached to a column. -/
abbrev Notes := List (Option String × Option String)

/-- A column as a schema describes it. -/
inductive FieldTable where
  | mk (name : Option String) (nullable : Bool) (type : TypeTable)
    (dictionary : Option DictionaryTable) (children : Option (List FieldTable)) (notes : Notes)
  deriving Repr, Inhabited

/-- The columns of a stream. -/
structure SchemaTable where
  /-- whether numbers are written highest byte first -/
  bigEndian : Bool
  fields : Option (List FieldTable)
  deriving Repr

/-- A block of columns: its rows, for each column and child of one its
length and number of nulls, and the place of each buffer in the body. -/
structure BlockTable where
  length : Int
  nodes : Option (List (Int × Int))
  buffers : Option (List (Int × Int))
  compressed : Bool
  /-- for each column of views, its number of further buffers -/
  variadic : List Int
  deriving DecidableEq, Repr, Inhabited

/-- What a message is about. -/
inductive Header where
  | none
  | schema (table : SchemaTable)
  | block (table : BlockTable)
  | other (code : Nat)
  deriving Repr

/-- The metadata of a message. -/
structure Message where
  version : Int
  header : Header
  bodyLength : Int
  deriving Repr

/-- How a kind of message that no stream of batches has is called. -/
def Header.otherTitle (code : Nat) : String :=
  if code = 2 then "DictionaryBatch"
  else if code = 4 then "Tensor"
  else if code = 5 then "SparseTensor"
  else "<UNKNOWN " ++ toString code ++ ">"

/-! ## Reading

`levels` is how many tables may still nest. -/

variable (buf : Array UInt8)

/-- A table one level down. -/
def nested {α : Type} (levels : Nat) (read : Table → Reader α) (pos : Nat) : Reader α := do
  let t ← table buf pos
  require (0 < levels)
  read t

def readNote (levels : Nat) : Nat → Reader (Option String × Option String) :=
  nested buf levels fun t => do
    return (← t.get? buf 4 (follow buf (text buf)), ← t.get? buf 6 (follow buf (text buf)))

/-- The names and values in a slot. -/
def readNotes (levels : Nat) (t : Table) (offset : Nat) : Reader Notes :=
  t.getD buf offset [] (follow buf (each buf (readNote buf levels)))

def readInt (levels : Nat) : Nat → Reader (Int × Bool) :=
  nested buf levels fun t => do
    return (← t.getD buf 4 0 (signed buf 4), ← t.getD buf 6 false (bool buf))

def readDictionary (levels : Nat) : Nat → Reader DictionaryTable :=
  nested buf levels fun t => do
    let _ ← t.get? buf 4 (signed buf 8)
    let key ← t.get? buf 6 (follow buf (readInt buf (levels - 1)))
    let _ ← t.get? buf 8 (bool buf)
    let _ ← t.get? buf 10 (signed buf 2)
    return ⟨key⟩

/-- The numbers kept with a kind of type, and how they are laid out. -/
def readTypeBody (code : Nat) (t : Table) : Reader TypeTable := do
  match code with
  -- integer, float, decimal, date, time, timestamp, interval, union, byte
  -- strings and lists of one size, map, duration; the others have no numbers
  | 2 => return .int (← t.getD buf 4 0 (signed buf 4)) (← t.getD buf 6 false (bool buf))
  | 3 => return .float (← t.getD buf 4 0 (signed buf 2))
  | 7 =>
    return .decimal (← t.getD buf 4 0 (signed buf 4)) (← t.getD buf 6 0 (signed buf 4))
      (← t.getD buf 8 128 (signed buf 4))
  | 8 => return .date (← t.getD buf 4 1 (signed buf 2))
  | 9 => return .time (← t.getD buf 4 1 (signed buf 2)) (← t.getD buf 6 32 (signed buf 4))
  | 10 =>
    return .timestamp (← t.getD buf 4 0 (signed buf 2))
      (← t.get? buf 6 (follow buf (text buf)))
  | 11 => return .interval (← t.getD buf 4 0 (signed buf 2))
  | 14 =>
    return .union (← t.getD buf 4 0 (signed buf 2))
      (← t.get? buf 6 (follow buf (integers buf 4)))
  | 15 => return .fixedBinary (← t.getD buf 4 0 (signed buf 4))
  | 16 => return .fixedList (← t.getD buf 4 0 (signed buf 4))
  | 17 => return .map (← t.getD buf 4 false (bool buf))
  | 18 => return .duration (← t.getD buf 4 1 (signed buf 2))
  | code => return .plain code

/-- The number of kinds of types, the kind zero being none. -/
def typeKinds : Nat := 27

/-- The type in two slots of a table; nothing is looked at for a kind that
is not known. -/
def readType (levels : Nat) (t : Table) (offset : Nat) (absent : Reader TypeTable) :
    Reader TypeTable :=
  t.choice buf offset
    (fun code pos =>
      if 0 < code ∧ code < typeKinds then
        follow buf (nested buf levels (readTypeBody buf code)) pos
      else return .plain code)
    absent

/-- A column and, in it, its children. -/
def readField : Nat → Nat → Reader FieldTable
  | 0, _ => fail
  | levels + 1, pos => do
    let t ← table buf pos
    let name ← t.get? buf 4 (follow buf (text buf))
    let nullable ← t.getD buf 6 false (bool buf)
    let type ← readType buf levels t 8 (return .plain 0)
    let dictionary ← t.get? buf 12 (follow buf (readDictionary buf levels))
    let children ← t.get? buf 14 (follow buf (each buf (readField levels)))
    let notes ← readNotes buf levels t 16
    return .mk name nullable type dictionary children notes

def readSchema (levels : Nat) : Nat → Reader SchemaTable :=
  nested buf levels fun t => do
    let endianness ← t.getD buf 4 0 (signed buf 2)
    let fields ← t.get? buf 6 (follow buf (each buf (readField buf (levels - 1))))
    let _ ← readNotes buf (levels - 1) t 8
    let _ ← t.get? buf 10 (follow buf (integers buf 8))
    return ⟨endianness == 1, fields⟩

def readBlock (levels : Nat) : Nat → Reader BlockTable :=
  nested buf levels fun t => do
    let length ← t.getD buf 4 0 (signed buf 8)
    let nodes ← t.get? buf 6 (follow buf (pairs buf))
    let buffers ← t.get? buf 8 (follow buf (pairs buf))
    let compression ← t.get? buf 10 (follow buf (nested buf (levels - 1) fun t => do
      let _ ← t.get? buf 4 (signed buf 1)
      let _ ← t.get? buf 6 (signed buf 1)))
    let variadic ← t.getD buf 12 [] (follow buf (integers buf 8))
    return ⟨length, nodes, buffers, compression.isSome, variadic⟩

/-! ### Kinds that no stream of batches has -/

/-- A pair of 64-bit integers inside a table. -/
def skipPair (pos : Nat) : Reader Unit := span buf pos 16

def skipDictionaryBlock (levels : Nat) : Nat → Reader Unit :=
  nested buf levels fun t => do
    let _ ← t.get? buf 4 (signed buf 8)
    let _ ← t.get? buf 6 (follow buf (readBlock buf (levels - 1)))
    let _ ← t.get? buf 8 (bool buf)

/-- The extent of a tensor in one direction. -/
def skipExtent (levels : Nat) : Nat → Reader Unit :=
  nested buf levels fun t => do
    let _ ← t.get? buf 4 (signed buf 8)
    let _ ← t.get? buf 6 (follow buf (text buf))

def skipTensor (levels : Nat) : Nat → Reader Unit :=
  nested buf levels fun t => do
    let _ ← readType buf (levels - 1) t 4 fail
    let _ ← t.get buf 8 (follow buf (each buf (skipExtent buf (levels - 1))))
    let _ ← t.get? buf 10 (follow buf (integers buf 8))
    t.get buf 12 (skipPair buf)

/-- The index of a sparse tensor, by the code of its kind. -/
def skipIndex (levels code : Nat) (pos : Nat) : Reader Unit :=
  match code with
  -- coordinates, compressed rows or columns, compressed fibres
  | 1 => follow buf (nested buf levels fun t => do
      let _ ← t.get buf 4 (follow buf (readInt buf (levels - 1)))
      let _ ← t.get? buf 6 (follow buf (integers buf 8))
      t.get buf 8 (skipPair buf)
      let _ ← t.get? buf 10 (bool buf)) pos
  | 2 => follow buf (nested buf levels fun t => do
      let _ ← t.get? buf 4 (signed buf 2)
      let _ ← t.get buf 6 (follow buf (readInt buf (levels - 1)))
      t.get buf 8 (skipPair buf)
      let _ ← t.get buf 10 (follow buf (readInt buf (levels - 1)))
      t.get buf 12 (skipPair buf)) pos
  | 3 => follow buf (nested buf levels fun t => do
      let _ ← t.get buf 4 (follow buf (readInt buf (levels - 1)))
      let _ ← t.get buf 6 (follow buf (pairs buf))
      let _ ← t.get buf 8 (follow buf (readInt buf (levels - 1)))
      let _ ← t.get buf 10 (follow buf (pairs buf))
      let _ ← t.get buf 12 (follow buf (integers buf 4))) pos
  | _ => return

def skipSparseTensor (levels : Nat) : Nat → Reader Unit :=
  nested buf levels fun t => do
    let _ ← readType buf (levels - 1) t 4 fail
    let _ ← t.get buf 8 (follow buf (each buf (skipExtent buf (levels - 1))))
    let _ ← t.get? buf 10 (signed buf 8)
    t.choice buf 12 (fun code => skipIndex buf (levels - 1) code) fail
    t.get buf 16 (skipPair buf)

/-! ### Messages -/

/-- The header in two slots of a message. -/
def readHeader (levels : Nat) (t : Table) (offset : Nat) : Reader Header :=
  t.choice buf offset
    (fun code pos => do
      match code with
      | 0 => return .none
      | 1 => return .schema (← follow buf (readSchema buf levels) pos)
      | 2 =>
        follow buf (skipDictionaryBlock buf levels) pos
        return .other code
      | 3 => return .block (← follow buf (readBlock buf levels) pos)
      | 4 =>
        follow buf (skipTensor buf levels) pos
        return .other code
      | 5 =>
        follow buf (skipSparseTensor buf levels) pos
        return .other code
      | code => return .other code)
    (return .none)

/-- How deep tables may nest. -/
def deepest : Nat := 64

def readMessage : Nat → Reader Message :=
  nested buf deepest fun t => do
    let version ← t.getD buf 4 0 (signed buf 2)
    let header ← readHeader buf (deepest - 1) t 6
    let bodyLength ← t.getD buf 10 0 (signed buf 8)
    let _ ← readNotes buf (deepest - 1) t 12
    return ⟨version, header, bodyLength⟩

/-- The message whose metadata the bytes are: they open with the distance
to its table. -/
def Message.ofBytes? (metadata : Bytes) : Option Message :=
  let buf := metadata.toArray
  (follow buf (readMessage buf) 0 Budget.start).map Prod.fst

end Intake.Columns
