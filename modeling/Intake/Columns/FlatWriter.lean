import Intake.Columns.Flat
/-!
# Writing flat tables

Tables, vectors and texts written so that each is a run of bytes of its
own, a multiple of eight long, that means the same wherever it stands at
a multiple of eight: what a table refers to follows it. A table opens
with the distance to its directory and has eight bytes for each slot; the
directory stands behind the slots and the targets behind the directory.
-/

namespace Intake.Columns.Flat

/-- Bytes, with zeros behind them up to a multiple of eight. -/
def padded (bs : Bytes) : Bytes := bs ++ List.replicate ((8 - bs.length % 8) % 8) 0

/-- What a slot of a table holds. -/
inductive Slot where
  | empty
  /-- a scalar of up to eight bytes -/
  | scalar (bytes : Bytes)
  /-- something written on its own -/
  | target (bytes : Bytes)

/-- What the slots refer to. -/
def Slot.targets : List Slot → Bytes
  | [] => []
  | .target bs :: slots => bs ++ targets slots
  | _ :: slots => targets slots

/-- The slots of a table from slot number `k` on, whose targets start at
`next`. -/
def Slot.inline : Nat → Nat → List Slot → Bytes
  | _, _, [] => []
  | k, next, .empty :: slots => List.replicate 8 0 ++ inline (k + 1) next slots
  | k, next, .scalar bs :: slots =>
    (bs ++ List.replicate (8 - bs.length) 0) ++ inline (k + 1) next slots
  | k, next, .target bs :: slots =>
    Bytes.ofNat 8 (next - (8 + 8 * k)) ++ inline (k + 1) (next + bs.length) slots

/-- The entries of a directory from slot number `k` on. -/
def Slot.entries : Nat → List Slot → Bytes
  | _, [] => []
  | k, .empty :: slots => Bytes.ofNat 2 0 ++ entries (k + 1) slots
  | k, _ :: slots => Bytes.ofNat 2 (8 + 8 * k) ++ entries (k + 1) slots

/-- A table. -/
def writeTable (slots : List Slot) : Bytes :=
  let width := 8 + 8 * slots.length
  let directory := padded (Bytes.ofNat 2 (4 + 2 * slots.length) ++ Bytes.ofNat 2 width ++
    Slot.entries 0 slots)
  Bytes.ofNat 8 (UInt32.size - width) ++ Slot.inline 0 (width + directory.length) slots ++
    directory ++ Slot.targets slots

/-- A text. -/
def writeText (s : String) : Bytes :=
  let bs := Bytes.ofText s
  padded (Bytes.ofNat 4 bs.length ++ bs ++ [0])

/-- A vector of pairs of 64-bit integers. -/
def writePairs (pairs : List (Nat × Nat)) : Bytes :=
  padded (Bytes.ofNat 4 pairs.length ++
    pairs.flatMap fun p => Bytes.ofNat 8 p.1 ++ Bytes.ofNat 8 p.2)

/-- The distances of a vector from element number `k` on, whose targets
start at `next`. -/
def distances : Nat → Nat → List Bytes → Bytes
  | _, _, [] => []
  | k, next, bs :: rest =>
    Bytes.ofNat 4 (next - (4 + 4 * k)) ++ distances (k + 1) (next + bs.length) rest

/-- A vector of tables. -/
def writeTables (tables : List Bytes) : Bytes :=
  let first := (padded (List.replicate (4 + 4 * tables.length) 0)).length
  padded (Bytes.ofNat 4 tables.length ++ distances 0 first tables) ++ tables.flatten

/-- A buffer that holds one table: it opens with the distance to it. -/
def writeRoot (table : Bytes) : Bytes := Bytes.ofNat 8 8 ++ table

end Intake.Columns.Flat
