import Intake.Columns.Build
/-!
# Nulls of a column

The slots of a column that are not null are the set bits of a bitmap.
Parents and children are held against each other by their bitmaps: a
child that may not be null has nulls only where its parent has.
-/

namespace Intake.Columns

/-- The bits of bytes, the lowest of each byte first. -/
def bitsOf (bs : Bytes) : List Bool :=
  bs.flatMap fun b => (List.range 8).map b.toNat.testBit

/-- The bitmap of a column, which is looked at only if the column has
nulls. It has a bit for each slot. -/
def bitmap (buffer : Bytes) (length nulls : Nat) : Build Bits :=
  if nulls = 0 then return none
  else if 8 * buffer.length < length then nonsense
  else return some ((bitsOf buffer).take length)

/-- Goes on only if a column with nulls has no more of them than slots. -/
def requireRoom (length nulls : Nat) : Build Unit := if length < nulls then corrupt else pure ()

/-- Goes on only if a bitmap has as many nulls as told. -/
def requireNulls (valid : Bits) (nulls : Nat) : Build Unit :=
  if valid.isSome ∧ valid.nulls ≠ nulls then corrupt else pure ()

/-- Cells with null where the bitmap says so. -/
def masked (valid : Bits) (cells : List Cell) : List Cell :=
  match valid with
  | none => cells
  | some bits => List.zipWith (fun b c => if b then c else .null) bits cells

/-- The first `n` bits; those that are missing are not set. -/
def filled (n : Nat) (bits : List Bool) : List Bool :=
  bits.take n ++ List.replicate (n - bits.length) false

/-- Whether a child has nulls only where its parent has. Bitmaps of
different lengths are compared in words of 64 bits, up to the word in which
the shorter one ends. -/
def covers (parent child : List Bool) : Bool :=
  let n := 64 * (min parent.length child.length / 64 + 1)
  ((filled n parent).zip (filled n child)).all fun p => !p.1 || p.2

/-- Goes on only if a child that may not be null has no nulls but where
its parent has. -/
def requireChild (parent : Bits) (nullable : Bool) (child : Bits) : Build Unit :=
  if nullable ∨ child.nulls = 0 then pure ()
  else
    match parent, child with
    | some mask, some bits => if covers mask bits then pure () else corrupt
    | _, _ => corrupt

/-- The bitmap of `length` slots that are all null. -/
def allNull (length : Nat) : Bits :=
  if length = 0 then none else some (List.replicate length false)

end Intake.Columns
