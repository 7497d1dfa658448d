import Intake.Bytes
/-!
# Variable-length integers

An integer is folded onto the naturals, `0, -1, 1, -2, …`, and written
seven bits to a byte, the lowest first, with the top bit of every byte
but the last set. A reader takes at most ten bytes and keeps 64 bits.
The main statement: an integer of 64 bits reads back (`readInt_writeInt`).
-/

namespace Intake.Rows

/-- Why no integer can be read: the bytes end inside it, or it runs on
past its longest form. -/
inductive VarintFault where
  | ended
  | tooLong
  deriving DecidableEq, Repr

/-- An integer folded onto the naturals. -/
def zigzag (n : Int) : Nat := if 0 ≤ n then 2 * n.toNat else 2 * (-n - 1).toNat + 1

/-- The integer that was folded onto a natural. -/
def unzigzag (n : Nat) : Int := if n % 2 = 0 then (n / 2 : Nat) else -((n / 2 : Nat) : Int) - 1

theorem unzigzag_zigzag (n : Int) : unzigzag (zigzag n) = n := by
  unfold zigzag unzigzag
  split <;> split <;> omega

/-- A natural in groups of seven bits. -/
def writeGroups (n : Nat) : Bytes :=
  if n < 128 then [UInt8.ofNat n] else UInt8.ofNat (n % 128 + 128) :: writeGroups (n / 128)

/-- A natural from groups of seven bits, at most `groups` of them. -/
def readGroups : Nat → Bytes → Except VarintFault (Nat × Bytes)
  | 0, _ => .error .tooLong
  | _ + 1, [] => .error .ended
  | groups + 1, b :: bs =>
    if b.toNat < 128 then .ok (b.toNat, bs)
    else (readGroups groups bs).map fun (n, rest) => (b.toNat - 128 + 128 * n, rest)

/-- The bytes of an integer. -/
def writeInt (n : Int) : Bytes := writeGroups (zigzag n)

/-- An integer of 64 bits, and the bytes behind it. -/
def readInt (bs : Bytes) : Except VarintFault (Int × Bytes) :=
  (readGroups 10 bs).map fun (n, rest) => (unzigzag (n % UInt64.size), rest)

/-! ## What is written reads back -/

theorem readGroups_writeGroups (groups n : Nat) (rest : Bytes) (h : n < Nat.pow 128 (groups + 1)) :
    readGroups (groups + 1) (writeGroups n ++ rest) = .ok (n, rest) := by
  induction groups generalizing n with
  | zero =>
    have hn : n < 128 := h
    have hb : (UInt8.ofNat n).toNat = n := by simp; omega
    rw [writeGroups, if_pos hn, List.cons_append, readGroups, hb, if_pos hn, List.nil_append]
  | succ groups ih =>
    rw [writeGroups]
    split
    · -- the last group, without a mark
      rename_i hn
      have hb : (UInt8.ofNat n).toNat = n := by simp; omega
      rw [List.cons_append, readGroups, hb, if_pos hn, List.nil_append]
    · -- a group with a mark, and the rest by induction
      rename_i hn
      have hb : (UInt8.ofNat (n % 128 + 128)).toNat = n % 128 + 128 := by simp; omega
      have hr : n / 128 < Nat.pow 128 (groups + 1) :=
        Nat.div_lt_of_lt_mul (by rwa [Nat.mul_comm])
      rw [List.cons_append, readGroups, hb, if_neg (by omega), ih _ hr]
      simp only [Except.map]
      congr 2
      omega

theorem zigzag_toInt_lt (n : Int64) : zigzag n.toInt < UInt64.size := by
  have hl := n.le_toInt
  have hu := n.toInt_lt
  have hs : UInt64.size = 18446744073709551616 := rfl
  unfold zigzag
  split <;> omega

/-- **An integer of 64 bits reads back**, and what stands behind it is
left alone. -/
theorem readInt_writeInt (n : Int64) (rest : Bytes) :
    readInt (writeInt n.toInt ++ rest) = .ok (n.toInt, rest) := by
  have hz := zigzag_toInt_lt n
  -- ten groups hold 70 bits
  rw [readInt, writeInt, readGroups_writeGroups 9 _ rest (Nat.lt_trans hz (by decide))]
  simp only [Except.map]
  rw [Nat.mod_eq_of_lt hz, unzigzag_zigzag]

end Intake.Rows
