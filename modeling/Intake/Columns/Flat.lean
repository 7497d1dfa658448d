import Intake.Bytes
/-!
# Flat tables

The metadata of a column stream is a buffer of tables that refer to each
other by offset. A table opens with the signed distance to its directory,
which gives for each slot where the value lies, counted from the table,
or zero for a slot left out. A slot holds a scalar, or the unsigned
distance to a vector, a text or another table further on.

Reading checks as it goes: every value lies inside the buffer and at a
multiple of its size, texts are UTF-8 and closed by a zero byte, tables
nest at most 64 deep, and a budget bounds the number of tables and of
bytes looked at, since nothing stops two slots from sharing a target.
-/

namespace Intake.Columns.Flat

/-- What reading a buffer may still look at. -/
structure Budget where
  tables : Nat
  bytes : Nat
  deriving DecidableEq, Repr

/-- What reading a buffer may look at in all. -/
def Budget.start : Budget := ⟨1000000, 0x80000000⟩

/-- A reader of part of a buffer: it fails, or yields a value and what is
left of the budget. -/
abbrev Reader (α : Type) := StateT Budget Option α

variable {α : Type}

def fail : Reader α := fun _ => none

/-- Goes on only under a condition. -/
def require (p : Bool) : Reader Unit := if p then pure () else fail

/-- Looks at so many bytes. -/
def spend (n : Nat) : Reader Unit := fun b =>
  if n ≤ b.bytes then some ((), { b with bytes := b.bytes - n }) else none

/-- Opens one more table. -/
def spendTable : Reader Unit := fun b =>
  if 0 < b.tables then some ((), { b with tables := b.tables - 1 }) else none

/-! ## Values -/

/-- The bytes from `pos` on, `size` of them, all inside the buffer. -/
def span (buf : Array UInt8) (pos size : Nat) : Reader Unit := do
  require (pos + size ≤ buf.size)
  spend size

/-- The little-endian integer of `width` bytes at `pos`. -/
def peek (buf : Array UInt8) (pos : Nat) : Nat → Nat
  | 0 => 0
  | width + 1 => (buf[pos]?.getD 0).toNat + 256 * peek buf (pos + 1) width

/-- An unsigned integer of `width` bytes at a multiple of its width. -/
def unsigned (buf : Array UInt8) (width pos : Nat) : Reader Nat := do
  require (pos % width == 0)
  span buf pos width
  return peek buf pos width

/-- A signed integer of `width` bytes at a multiple of its width. -/
def signed (buf : Array UInt8) (width pos : Nat) : Reader Int := do
  return Bytes.signed width (← unsigned buf width pos)

def bool (buf : Array UInt8) (pos : Nat) : Reader Bool := do
  return (← unsigned buf 1 pos) != 0

/-- What lies where the unsigned distance at `pos` points. -/
def follow (buf : Array UInt8) (read : Nat → Reader α) (pos : Nat) : Reader α := do
  let distance ← unsigned buf 4 pos
  read (pos + distance)

/-! ## Vectors and texts -/

/-- The number of elements of a vector, its elements being of `size` bytes
and lying at multiples of `align`. They start four bytes behind `pos`. -/
def vectorLength (buf : Array UInt8) (size align pos : Nat) : Reader Nat := do
  let count ← unsigned buf 4 pos
  require ((pos + 4) % align == 0)
  span buf (pos + 4) (count * size)
  return count

/-- A vector of signed integers of `width` bytes. -/
def integers (buf : Array UInt8) (width pos : Nat) : Reader (List Int) := do
  let count ← vectorLength buf width width pos
  return (List.range count).map fun i => Bytes.signed width (peek buf (pos + 4 + width * i) width)

/-- A vector of pairs of 64-bit integers, which need no alignment. -/
def pairs (buf : Array UInt8) (pos : Nat) : Reader (List (Int × Int)) := do
  let count ← vectorLength buf 16 1 pos
  return (List.range count).map fun i =>
    let at' := pos + 4 + 16 * i
    (Bytes.signed 8 (peek buf at' 8), Bytes.signed 8 (peek buf (at' + 8) 8))

/-- A vector of distances, each followed. -/
def each (buf : Array UInt8) (read : Nat → Reader α) (pos : Nat) : Reader (List α) := do
  let count ← vectorLength buf 4 4 pos
  (List.range count).mapM fun i => follow buf read (pos + 4 + 4 * i)

/-- A text, closed by a zero byte. -/
def text (buf : Array UInt8) (pos : Nat) : Reader String := do
  let count ← vectorLength buf 1 1 pos
  match Bytes.text? (buf.extract (pos + 4) (pos + 4 + count)).toList with
  | none => fail
  | some s =>
    require (buf[pos + 4 + count]? == some 0)
    return s

/-! ## Tables -/

/-- A table found in a buffer. -/
structure Table where
  pos : Nat
  /-- where its directory lies -/
  directory : Nat
  /-- the size of the directory in bytes -/
  size : Nat
  deriving DecidableEq, Repr

/-- The table at `pos`. -/
def table (buf : Array UInt8) (pos : Nat) : Reader Table := do
  let back ← signed buf 4 pos
  let directory := (pos : Int) - back
  require (0 ≤ directory && directory < buf.size)
  let directory := directory.toNat
  let size ← unsigned buf 2 directory
  require (size % 2 == 0)
  span buf directory size
  spendTable
  return ⟨pos, directory, size⟩

/-- Where the value of the slot at `offset` of the directory lies, if the
slot is filled. -/
def Table.slot (t : Table) (buf : Array UInt8) (offset : Nat) : Reader (Option Nat) := do
  if offset < t.size then
    let entry ← unsigned buf 2 (t.directory + offset)
    return if entry = 0 then none else some (t.pos + entry)
  else return none

/-- The value of a slot, if it is filled. -/
def Table.get? (t : Table) (buf : Array UInt8) (offset : Nat) (read : Nat → Reader α) :
    Reader (Option α) := do
  match ← t.slot buf offset with
  | none => return none
  | some pos => return some (← read pos)

/-- The value of a slot, with what stands for one left out. -/
def Table.getD (t : Table) (buf : Array UInt8) (offset : Nat) (default : α)
    (read : Nat → Reader α) : Reader α := do
  return (← t.get? buf offset read).getD default

/-- The value of a slot that has to be filled. -/
def Table.get (t : Table) (buf : Array UInt8) (offset : Nat) (read : Nat → Reader α) :
    Reader α := do
  match ← t.get? buf offset read with
  | none => fail
  | some a => return a

/-- A choice of tables: one slot holds the code of the kind, the next the
table. Both are filled or neither is, and then the code is zero. -/
def Table.choice (t : Table) (buf : Array UInt8) (offset : Nat)
    (read : Nat → Nat → Reader α) (absent : Reader α) : Reader α := do
  match ← t.slot buf (offset + 2), ← t.slot buf offset with
  | some value, some code => read (← unsigned buf 1 code) value
  | none, none => absent
  | _, _ => fail

end Intake.Columns.Flat
