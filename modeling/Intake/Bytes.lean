/-!
# Bytes of a batch

Little-endian integers of a fixed width, read from and written to lists
of bytes, and the cutting of a list of bytes. Main statement: a written
integer is read back modulo its range (`toNat_ofNat`).
-/

namespace Intake

/-- The bytes of a batch. -/
abbrev Bytes := List UInt8

namespace Bytes

/-- The natural number whose little-endian bytes are given. -/
def toNat : Bytes → Nat
  | [] => 0
  | b :: bs => b.toNat + 256 * toNat bs

/-- The little-endian bytes of a natural number, `width` of them. -/
def ofNat : Nat → Nat → Bytes
  | 0, _ => []
  | width + 1, n => UInt8.ofNat n :: ofNat width (n / 256)

@[simp] theorem length_ofNat (width n : Nat) : (ofNat width n).length = width := by
  induction width generalizing n with
  | zero => rfl
  | succ width ih => simp [ofNat, ih]

/-- **A written integer reads back**, up to the range of its width. -/
theorem toNat_ofNat (width n : Nat) : toNat (ofNat width n) = n % Nat.pow 256 width := by
  induction width generalizing n with
  | zero => simp [ofNat, toNat, Nat.mod_one]
  | succ width ih =>
    rw [ofNat, toNat, ih, show Nat.pow 256 (width + 1) = 256 * Nat.pow 256 width from
      Nat.mul_comm _ _, Nat.mod_mul]
    simp

/-- A written integer that its width can tell reads back. -/
theorem toNat_ofNat_of_lt (width : Nat) {n : Nat} (h : n < Nat.pow 256 width) :
    toNat (ofNat width n) = n := by
  rw [toNat_ofNat, Nat.mod_eq_of_lt h]

theorem toNat_lt (w : Bytes) : toNat w < Nat.pow 256 w.length := by
  induction w with
  | nil => exact Nat.one_pos
  | cons b w ih =>
    have hb : b.toNat < 256 := b.toNat_lt
    have hpow : Nat.pow 256 (w.length + 1) = 256 * Nat.pow 256 w.length := Nat.mul_comm _ _
    rw [toNat, List.length_cons, hpow]
    omega

/-- **Bytes are those of the number they stand for.** -/
theorem ofNat_toNat (w : Bytes) : ofNat w.length (toNat w) = w := by
  induction w with
  | nil => rfl
  | cons b w ih =>
    have hb : b.toNat < 256 := b.toNat_lt
    have hdiv : (b.toNat + 256 * toNat w) / 256 = toNat w := by omega
    have hhead : UInt8.ofNat (b.toNat + 256 * toNat w) = b := by
      apply UInt8.toNat_inj.1
      rw [UInt8.toNat_ofNat']
      omega
    rw [List.length_cons, toNat, ofNat, hdiv, ih, hhead]

/-- The first `n` bytes and the rest, when there are as many. -/
def cut? (n : Nat) (bs : Bytes) : Option (Bytes × Bytes) :=
  if n ≤ bs.length then some (bs.take n, bs.drop n) else none

/-- A little-endian integer at the front, and the rest. -/
def word? (width : Nat) (bs : Bytes) : Option (Nat × Bytes) :=
  (cut? width bs).map fun (w, rest) => (toNat w, rest)

/-- The integer that a word of `width` bytes stands for in two's complement. -/
def signed (width n : Nat) : Int :=
  (BitVec.ofNat (8 * width) n).toInt

/-- So does one that two's complement can tell. -/
theorem signed_toNat_ofNat (width : Nat) {n : Nat} (h : 2 * n < Nat.pow 256 width) :
    signed width (toNat (ofNat width n)) = n := by
  have hpow : Nat.pow 256 width = Nat.pow 2 (8 * width) := (Nat.pow_mul 2 8 width).symm
  have hlt : n < Nat.pow 2 (8 * width) := by omega
  have hword : (BitVec.ofNat (8 * width) n).toNat = n :=
    (BitVec.toNat_ofNat n (8 * width)).trans (Nat.mod_eq_of_lt hlt)
  have htwice : 2 * (BitVec.ofNat (8 * width) n).toNat < Nat.pow 2 (8 * width) := by
    rw [hword, ← hpow]
    exact h
  rw [toNat_ofNat_of_lt width (by omega), signed, BitVec.toInt_eq_toNat_of_lt htwice, hword]

/-- The text whose UTF-8 form the bytes are. -/
def text? (bs : Bytes) : Option String := String.fromUTF8? ⟨bs.toArray⟩

/-- The UTF-8 form of a text. -/
def ofText (s : String) : Bytes := s.toUTF8.data.toList

end Bytes

end Intake
