import Mathlib
import Intake.Json.Literal
/-!
# Literals are finite doubles

A number of a JSON text is either an integer of 64 bits or a finite double,
or it is said to be beyond all doubles: no literal is read as an infinity
or as no number. Machine arithmetic is followed here as it is defined, on
the sign, the significant bits and the exponent of a number. Rounding adds
at most one to an exponent (`Binary64.within_roundWithAccuracy`), so that
the integers of 64 bits stay far below the largest exponent and a division
by a power of ten never reaches it. Main statement: a literal is sound
(`Json.Literal.sound_number`).
-/

namespace Intake

open Float.Model Float.Model.UnpackedFloat

namespace Binary64

variable {u v : UnpackedFloat} {s : Sign} {acc : Accuracy} {f g : Float}
variable {m n : Nat} {e k l : Int}

/-! ## Exponents under rounding -/

/-- An unpacked number that is neither an infinity nor no number, has at most
53 significant bits and an exponent of at most `k`. -/
def Within (k : Int) : UnpackedFloat → Prop
  | .zero _ => True
  | .finite _ m e _ => m.log2 ≤ 52 ∧ e ≤ k
  | .infinity _ => False
  | .notANumber => False

instance (k : Int) : (u : UnpackedFloat) → Decidable (Within k u)
  | .zero _ => isTrue trivial
  | .finite _ m e _ => inferInstanceAs (Decidable (m.log2 ≤ 52 ∧ e ≤ k))
  | .infinity _ => isFalse id
  | .notANumber => isFalse id

theorem Within.mono (h : Within k u) (hkl : k ≤ l) : Within l u := by
  cases u with
  | zero | infinity | notANumber => exact h
  | finite => exact ⟨h.1, h.2.trans hkl⟩

theorem Within.isFinite (h : Within k u) : u.isFinite = true := by
  cases u with
  | zero | finite => rfl
  | infinity | notANumber => exact h.elim

theorem mantissa_shiftRight (x : ExtendedMantissa) (n : Nat) :
    (x >>> n).mantissa = x.mantissa / 2 ^ n := by
  induction n with
  | zero => simp [HShiftRight.hShiftRight, Nat.repeat]
  | succ n ih =>
    change (x >>> n).mantissa / 2 = _
    rw [ih, Nat.div_div_eq_div_mul, Nat.pow_succ]

theorem log2_mono {m n : Nat} (h : m ≤ n) : m.log2 ≤ n.log2 := by
  rw [Nat.log2_eq_log_two, Nat.log2_eq_log_two]
  exact Nat.log_mono_right h

theorem log2_le_of_lt (h : m < 2 ^ (n + 1)) : m.log2 ≤ n := by
  rcases eq_or_ne m 0 with rfl | hm
  · exact Nat.zero_le n
  · exact Nat.le_of_lt_succ ((Nat.log2_lt hm).2 h)

/-- Rounding up may add one bit. -/
theorem log2_roundedMantissa_le (x : ExtendedMantissa) :
    x.roundedMantissa.log2 ≤ x.mantissa.log2 + 1 := by
  have hup : x.roundedMantissa ≤ x.mantissa + 1 := by
    rw [ExtendedMantissa.roundedMantissa]
    rcases x.accuracy with _ | _ | _ | _ <;>
      simp only [Accuracy.roundToNearestEven] <;> omega
  calc x.roundedMantissa.log2 ≤ (2 ^ (x.mantissa.log2 + 1)).log2 :=
        log2_mono (hup.trans (Nat.lt_log2_self))
    _ = x.mantissa.log2 + 1 := Nat.log2_two_pow

/-- A shift to the exponent that 53 bits ask for takes bits from the mantissa
and adds as many to the exponent. -/
theorem log2_shiftToTargetExponent (m : Nat) (e : Int) (acc : Accuracy) :
    let shifted := shiftToTargetExponent Format.binary64 m e acc
    let target := max (m.log2 + 1 + e - 53) (-1074)
    shifted.1.mantissa.log2 = m.log2 - (target - e).toNat ∧ shifted.2 = max e target := by
  intro shifted target
  have htarget : Format.binary64.targetExponent (totalExponent m e) = target := rfl
  constructor
  · have hstart : (ExtendedMantissa.ofMantissaAndAccuracy m acc).mantissa = m := by
      rcases acc with _ | _ | _ | _ <;> rfl
    simp only [shifted, shiftToTargetExponent, shiftToExponent, mantissa_shiftRight, htarget,
      hstart]
    rw [Nat.log2_eq_log_two, Nat.log2_eq_log_two, Nat.log_div_base_pow]
  · simp only [shifted, shiftToTargetExponent, shiftToExponent, htarget]
    omega

/-- **Rounding adds at most one to an exponent** over that of 53 significant
bits. -/
theorem within_roundWithAccuracy (he : e ≤ k) (hm : m.log2 + 1 + e ≤ k + 53) (hk : -1074 ≤ k) :
    Within (k + 1) (roundWithAccuracy Format.binary64 s m e acc) := by
  obtain ⟨hlog, hexp⟩ := log2_shiftToTargetExponent m e acc
  set x := shiftToTargetExponent Format.binary64 m e acc
  have hround := log2_roundedMantissa_le x.1
  obtain ⟨hlog', hexp'⟩ := log2_shiftToTargetExponent x.1.roundedMantissa x.2 .exact
  set y := shiftToTargetExponent Format.binary64 x.1.roundedMantissa x.2 .exact
  have hresult : roundWithAccuracy Format.binary64 s m e acc =
      if h : y.1.mantissa = 0 then .zero s else .finite s y.1.mantissa y.2 (Nat.pos_of_ne_zero h) :=
    rfl
  rw [hresult]
  split
  · trivial
  · exact ⟨by omega, by omega⟩

/-! ## The operations -/

/-- A product has the sum of the exponents, and at most 106 bits to round. -/
theorem within_mul (hu : Within k u) (hv : Within l v) (h : -1074 ≤ k + l + 53) :
    Within (k + l + 54) (UnpackedFloat.mul Format.binary64 u v) := by
  cases u with
  | infinity | notANumber => exact hu.elim
  | zero => cases v <;> first | exact hv.elim | trivial
  | finite s m e hpos =>
    cases v with
    | infinity | notANumber => exact hv.elim
    | zero => trivial
    | finite s' m' e' hpos' =>
      have hbits : (m * m').log2 < m.log2 + 1 + (m'.log2 + 1) := by
        rw [Nat.log2_lt (by positivity), Nat.pow_add]
        exact Nat.mul_lt_mul'' Nat.lt_log2_self Nat.lt_log2_self
      obtain ⟨hm, he⟩ := hu
      obtain ⟨hm', he'⟩ := hv
      have : Within (k + l + 53 + 1)
          (roundWithAccuracy Format.binary64 (s * s') (m * m') (e + e') .exact) :=
        within_roundWithAccuracy (by omega) (by omega) h
      exact this.mono (by omega)

/-- A quotient by a number of four bits and more before the point does not
reach the largest exponent. -/
theorem within_div (hu : Within 971 u) {e' : Int} {m' : Nat} (hpos' : 0 < m') {s' : Sign}
    (hv : 4 ≤ totalExponent m' e') :
    Within 971 (UnpackedFloat.div Format.binary64 u (.finite s' m' e' hpos')) := by
  cases u with
  | infinity | notANumber => exact hu.elim
  | zero => trivial
  | finite s m e hpos =>
    obtain ⟨hm, he⟩ := hu
    set target := min (e - e') (max (totalExponent m e - totalExponent m' e' - 53) (-1074))
      with htarget
    set shift := (e - e' - target).toNat with hshift
    set q := (m <<< shift) / m' with hq
    have hdiv : UnpackedFloat.div Format.binary64 (.finite s m e hpos) (.finite s' m' e' hpos') =
        roundWithAccuracy Format.binary64 (s / s') q target
          (accuracyOfFraction ((m <<< shift) % m') m') := rfl
    have hbits : q.log2 + m'.log2 < m.log2 + 1 + shift ∨ q.log2 = 0 := by
      rcases Nat.eq_zero_or_pos q with h0 | hqpos
      · exact .inr (by rw [h0]; rfl)
      · refine .inl ((Nat.pow_lt_pow_iff_right (a := 2) (by omega)).1 ?_)
        calc 2 ^ (q.log2 + m'.log2) = 2 ^ q.log2 * 2 ^ m'.log2 := Nat.pow_add ..
          _ ≤ q * m' := Nat.mul_le_mul (Nat.log2_self_le hqpos.ne') (Nat.log2_self_le hpos'.ne')
          _ ≤ m * 2 ^ shift := by rw [← Nat.shiftLeft_eq]; exact Nat.div_mul_le_self ..
          _ < 2 ^ (m.log2 + 1) * 2 ^ shift :=
            Nat.mul_lt_mul_of_pos_right Nat.lt_log2_self (by positivity)
          _ = 2 ^ (m.log2 + 1 + shift) := (Nat.pow_add ..).symm
    rw [hdiv]
    simp only [totalExponent] at hv htarget
    exact within_roundWithAccuracy (k := 970) (by omega) (by omega) (by omega)

/-- A natural number of 64 bits. -/
theorem within_ofNat (hn : n < 2 ^ 64) : Within 12 (UnpackedFloat.ofNat Format.binary64 n) := by
  rcases Nat.eq_zero_or_pos n with rfl | hpos
  · trivial
  · have hbits : n.log2 < 64 := (Nat.log2_lt hpos.ne').2 hn
    set target := max (totalExponent n 0 - 53) (-1074) with htarget
    set shift := (0 - target).toNat with hshift
    have hround : UnpackedFloat.ofNat Format.binary64 n =
        roundWithAccuracy Format.binary64 .positive (n <<< shift) (0 - shift) .exact := by
      have hcmp : compare (n : Int) 0 = .gt := by simpa [Int.compare_eq_gt] using hpos
      simp only [UnpackedFloat.ofNat, UnpackedFloat.ofInt, UnpackedFloat.normalize, hcmp]
      rfl
    have hlog : (n <<< shift).log2 < n.log2 + 1 + shift := by
      rw [Nat.shiftLeft_eq, Nat.log2_lt (by positivity), Nat.pow_add]
      exact Nat.mul_lt_mul_of_pos_right Nat.lt_log2_self (by positivity)
    rw [hround]
    exact within_roundWithAccuracy (k := 11) (by omega) (by omega) (by omega)

/-! ## Bit patterns -/

theorem exponentField_eq (x : Binary64) :
    x.exponentField =
      (@unpackExponent Format.binary64 x.bits.toBitVec).toNat := by
  simp [exponentField, unpackExponent, hiddenBit, Nat.shiftRight_eq_div_pow]

/-- A double is finite just when its exponent is not the largest there is. -/
theorem isFinite_iff (x : Binary64) :
    x.isFinite = true ↔ @unpackExponent Format.binary64 x.bits.toBitVec ≠ -1#_ := by
  rw [isFinite, exponentField_eq, bne_iff_ne]
  exact not_congr (BitVec.toNat_inj (y := -1#11))

/-- A pattern that is finite is unpacked to its exponent. -/
theorem within_unpack {b : BitVec 64} (hb : @unpackExponent Format.binary64 b ≠ -1#_)
    (hk : (@unpackExponent Format.binary64 b).toNat ≤ k + 1075) (hmin : -1074 ≤ k) :
    Within k (UnpackedFloat.unpack Format.binary64 b) := by
  have hbias : (Format.binary64.exponentBias : Int) + Format.binary64.mantissaBitsWithoutImplicit =
    1075 := by decide
  simp only [UnpackedFloat.unpack, if_neg hb, hbias]
  split
  · rename_i h0
    rw [h0] at hk ⊢
    split
    · trivial
    · rename_i hne
      have hlog : (@unpackMantissa Format.binary64 b).toNat.log2 ≤ 51 :=
        log2_le_of_lt (@unpackMantissa Format.binary64 b).isLt
      exact ⟨by omega, by simp; omega⟩
  · exact ⟨log2_le_of_lt (1#1 ++ @unpackMantissa Format.binary64 b).isLt, by omega⟩

theorem isFinite_of_unpack (h : f.toModel.unpack.isFinite = true) :
    (ofFloat f).isFinite = true := by
  rw [isFinite_iff]
  intro hb
  have hunpack : f.toModel.unpack =
    UnpackedFloat.unpack Format.binary64 (ofFloat f).bits.toBitVec := rfl
  rw [hunpack, UnpackedFloat.unpack, if_pos hb] at h
  split at h <;> cases h

/-- What a finite double is unpacked to. -/
theorem isFinite_iff_within : (ofFloat f).isFinite = true ↔ Within 971 f.toModel.unpack := by
  constructor
  · intro h
    rw [isFinite_iff] at h
    set b := @unpackExponent Format.binary64 (ofFloat f).bits.toBitVec with hb
    have hlt : b.toNat < 2048 := b.isLt
    have hne : b.toNat ≠ 2047 := fun h' => h (BitVec.eq_of_toNat_eq h')
    exact within_unpack h (show (b.toNat : Int) ≤ 971 + 1075 by omega) (by omega)
  · exact fun h => isFinite_of_unpack h.isFinite

/-- A number of a small exponent is packed as it is. -/
theorem within_unpack_pack (hu : Within k u) (hk : -1074 ≤ k) (hk' : k ≤ 971) :
    Within k (Float.Model.pack u).unpack := by
  have hfield : @unpackExponent Format.binary64
      (UnpackedFloat.pack Format.binary64 u) ≠ -1#_ ∧
      (@unpackExponent Format.binary64 (UnpackedFloat.pack Format.binary64 u)).toNat ≤
        k + 1075 := by
    cases u with
    | infinity | notANumber => exact hu.elim
    | zero s =>
      have h : @unpackExponent Format.binary64
        (UnpackedFloat.pack Format.binary64 (.zero s)) = 0#_ := unpackExponent_packComponents
      rw [h]
      exact ⟨by decide, by simp; omega⟩
    | finite s m e hpos =>
      have hbias : (e + Format.binary64.exponentBias +
          Format.binary64.mantissaBitsWithoutImplicit).toNat = (e + 1075).toNat := by
        have : (Format.binary64.exponentBias : Int) = 1023 := by decide
        rw [this, Int.add_assoc]
        rfl
      have hfits : ¬ 2 ^ Format.binary64.exponentBits ≤ (e + 1075).toNat + 1 := by
        have : 2 ^ Format.binary64.exponentBits = 2048 := rfl
        have := hu.2
        omega
      simp only [UnpackedFloat.pack, hbias, if_neg hfits]
      have he := hu.2
      split
      · rw [unpackExponent_packComponents]
        have hfield : (BitVec.ofNat 11 (e + 1075).toNat).toNat = (e + 1075).toNat := by
          rw [BitVec.toNat_ofNat, Nat.mod_eq_of_lt (by omega)]
        refine ⟨fun h => ?_, by omega⟩
        have hmax : (e + 1075).toNat = 2047 := hfield.symm.trans (congrArg BitVec.toNat h)
        omega
      · rw [unpackExponent_packComponents]
        exact ⟨by decide, by simp; omega⟩
  exact within_unpack hfield.1 hfield.2 hk

/-- A number is packed as a finite one, or as an infinity if it is too large. -/
theorem isFinite_or_isInf_pack (hu : Within k u) :
    (ofFloat (.ofModel (.pack u))).isFinite = true ∨
      (Float.ofModel (.pack u)).isInf = true := by
  by_cases hfits : Within 971 u
  · exact .inl (isFinite_iff_within.2 (within_unpack_pack hfits (by omega) le_rfl))
  · cases u with
    | zero => exact absurd trivial hfits
    | infinity | notANumber => exact hu.elim
    | finite s m e hpos =>
      have hlarge : ¬ e ≤ 971 := fun he => hfits ⟨hu.1, he⟩
      have hpack : UnpackedFloat.pack Format.binary64 (.finite s m e hpos) =
          packedInfinity Format.binary64 s := by
        have hbias : (Format.binary64.exponentBias : Int) = 1023 := by decide
        refine if_pos ?_
        change 2048 ≤ (e + Format.binary64.exponentBias + 52).toNat + 1
        omega
      right
      change (UnpackedFloat.unpack Format.binary64
        (UnpackedFloat.pack Format.binary64 (.finite s m e hpos))).isInf = true
      rw [hpack]
      cases s <;> decide

/-! ## Machine numbers -/

theorem isFinite_neg (hf : (ofFloat f).isFinite = true) : (ofFloat (-f)).isFinite = true := by
  rw [isFinite_iff_within] at hf ⊢
  refine within_unpack_pack (u := f.toModel.unpack.neg) ?_ (by omega) le_rfl
  cases h : f.toModel.unpack <;> rw [h] at hf <;> exact hf

theorem isFinite_mul (hf : (ofFloat f).isFinite = true) (hg : (ofFloat g).isFinite = true)
    (h : (f * g).isInf = false) : (ofFloat (f * g)).isFinite = true := by
  rw [isFinite_iff_within] at hf hg
  rcases isFinite_or_isInf_pack (within_mul hf hg (by omega)) with hfinite | hinf
  · exact hfinite
  · exact absurd (h.symm.trans hinf) Bool.false_ne_true

theorem within_toFloat (n : UInt64) : Within 12 n.toFloat.toModel.unpack :=
  within_unpack_pack (within_ofNat n.toNat_lt) (by omega) (by omega)

/-- A number of 64 bits, by either of the two ways it is converted. -/
theorem within_floatOfNat (hn : n < 2 ^ 64) : Within 14 (Float.ofNat n).toModel.unpack := by
  change Within 14 (Float.ofScientific n false 0).toModel.unpack
  rw [Float.ofScientific]
  split
  · -- up to 53 bits the number is exact, and multiplied by one
    have hone : Within (-52) (Float.exactlyRepresentablePowersOfTen[0]).toModel.unpack := by
      decide +kernel
    exact within_unpack_pack (within_mul (within_toFloat _) hone (by omega)) (by omega) (by omega)
  · rcases Nat.eq_zero_or_pos n with rfl | hpos
    · decide +kernel
    · have hround : UnpackedFloat.ofScientific Format.binary64 n 0 =
          roundWithAccuracy Format.binary64 .positive (n <<< 53 * 1) (-53 + 0) .exact := by
        have hsmall : ¬ (0 : Int) < -(2 ^ Format.binary64.exponentBits + n.log2) := by
          have : (0 : Int) ≤ 2 ^ Format.binary64.exponentBits := by positivity
          omega
        rw [UnpackedFloat.ofScientific, dif_neg hpos.ne', if_neg (by decide), if_neg hsmall,
          if_pos le_rfl]
        rfl
      have hbits : (n <<< 53 * 1).log2 ≤ 116 := by
        refine log2_le_of_lt ?_
        rw [Nat.mul_one, Nat.shiftLeft_eq]
        calc n * 2 ^ 53 < 2 ^ 64 * 2 ^ 53 := Nat.mul_lt_mul_of_pos_right hn (by positivity)
          _ = 2 ^ (116 + 1) := (Nat.pow_add ..).symm
      refine within_unpack_pack (u := UnpackedFloat.ofScientific Format.binary64 n 0) ?_
        (by omega) (by omega)
      rw [hround]
      generalize n <<< 53 * 1 = m at hbits ⊢
      exact within_roundWithAccuracy (k := 13) (by omega) (by omega) (by omega)

/-- An integer of 64 bits, with or without sign, is near a finite double. -/
theorem isFinite_ofInt {n : Int} (hlow : -0x8000000000000000 ≤ n) (hhigh : n < 0x10000000000000000) :
    (ofInt n).isFinite = true := by
  have hfinite (m : Nat) (hm : m < 2 ^ 64) : (ofFloat (Float.ofNat m)).isFinite = true :=
    isFinite_iff_within.2 ((within_floatOfNat hm).mono (by omega))
  cases n with
  | ofNat m => exact hfinite m (by rw [Int.ofNat_eq_natCast] at hhigh; omega)
  | negSucc m => exact isFinite_neg (hfinite (m + 1) (by omega))

/-! ## Powers of ten -/

/-- Whether a number is finite and has four bits before the point. -/
def isTenOrMore : UnpackedFloat → Bool
  | .finite _ m e _ => 4 ≤ totalExponent m e
  | _ => false

theorem isTenOrMore_powerOfTen :
    ∀ n < 308, isTenOrMore (Json.powerOfTen (n + 1)).toModel.unpack = true := by
  decide +kernel

/-- The powers of ten that are used are finite. -/
theorem isFinite_powerOfTen (hn : n ≤ 308) : (ofFloat (Json.powerOfTen n)).isFinite = true := by
  rcases Nat.eq_zero_or_pos n with rfl | hpos
  · decide +kernel
  · have hten := isTenOrMore_powerOfTen (n - 1) (by omega)
    rw [Nat.sub_add_cancel hpos] at hten
    refine isFinite_of_unpack ?_
    revert hten
    cases (Json.powerOfTen n).toModel.unpack <;> simp [isTenOrMore, UnpackedFloat.isFinite]

/-- A finite number divided by a power of ten is finite. -/
theorem isFinite_div_powerOfTen (hf : (ofFloat f).isFinite = true) (hn : 0 < n) (hn' : n ≤ 308) :
    (ofFloat (f / Json.powerOfTen n)).isFinite = true := by
  have hten := isTenOrMore_powerOfTen (n - 1) (by omega)
  rw [Nat.sub_add_cancel hn] at hten
  rw [isFinite_iff_within] at hf ⊢
  have hquotient : Within 971 (UnpackedFloat.div Format.binary64 f.toModel.unpack
      (Json.powerOfTen n).toModel.unpack) := by
    cases h : (Json.powerOfTen n).toModel.unpack with
    | finite s m e hpos =>
      rw [h] at hten
      exact within_div hf hpos (by simpa [isTenOrMore] using hten)
    | zero | infinity | notANumber => rw [h] at hten; cases hten
  exact within_unpack_pack hquotient (by omega) le_rfl

end Binary64

namespace Json

variable {f g : Float} {e : Int} {fuel : Nat} {l : Literal}

open Binary64 in
/-- Scaling a finite number gives a finite one, or none. -/
theorem isFinite_of_scaled (h : scaled fuel f e = some g) (hf : (ofFloat f).isFinite = true) :
    (ofFloat g).isFinite = true := by
  induction fuel generalizing f e with
  | zero =>
    obtain rfl : f = g := by simpa [scaled] using h
    exact hf
  | succ fuel ih =>
    rw [scaled] at h
    split at h
    · rename_i hsmall
      split at h
      · simp only at h
        split at h
        · cases h
        · rename_i hinf
          obtain rfl := Option.some.inj h
          exact isFinite_mul hf (isFinite_powerOfTen hsmall) (by simpa using hinf)
      · obtain rfl := Option.some.inj h
        exact isFinite_div_powerOfTen hf (by omega) hsmall
    · split at h
      · obtain rfl := Option.some.inj h
        exact hf
      · split at h
        · cases h
        · exact ih h (isFinite_div_powerOfTen hf (by omega) le_rfl)

/-- A number that a literal can stand for: an integer of 64 bits, with or
without sign, a finite double, or one beyond all doubles. -/
def Number.Sound : Number → Prop
  | .int n => -0x8000000000000000 ≤ n ∧ n < 0x10000000000000000
  | .real x => x.isFinite = true
  | .beyond => True

namespace Significand

/-- The digits that are kept fit 64 bits. -/
theorem value_pushWhole_lt {s : Significand} (hs : s.value < UInt64.size) (d : Nat) :
    (s.pushWhole d).value < UInt64.size := by
  rw [pushWhole]
  split
  · rename_i hfits
    simp only [fits, Bool.and_eq_true, decide_eq_true_eq] at hfits
    exact hfits.2
  · exact hs

theorem value_whole_lt (ds : List Nat) {s : Significand} (hs : s.value < UInt64.size) :
    (ds.foldl pushWhole s).value < UInt64.size := by
  induction ds generalizing s with
  | nil => exact hs
  | cons d ds ih => exact ih (value_pushWhole_lt hs d)

end Significand

namespace Literal

variable (l : Literal)

/-- A finite double stays sound with the sign of a literal. -/
theorem sound_sign {f : Float} (hf : (Binary64.ofFloat f).isFinite = true) :
    (Number.real (Binary64.ofFloat (if l.negative then -f else f))).Sound := by
  split
  · exact Binary64.isFinite_neg hf
  · exact hf

theorem isFinite_toFloat (n : UInt64) : (Binary64.ofFloat n.toFloat).isFinite = true :=
  Binary64.isFinite_iff_within.2 ((Binary64.within_toFloat n).mono (by omega))

/-- So is an integer that is scaled by a power of ten. -/
theorem sound_scaled (n : UInt64) (e : Int) :
    (match scaled 8 n.toFloat e with
      | some f => Number.real (Binary64.ofFloat (if l.negative then -f else f))
      | none => .beyond).Sound := by
  split
  · rename_i f hf
    exact l.sound_sign (isFinite_of_scaled hf (isFinite_toFloat n))
  · trivial

/-- **Literals are sound.** No literal is read as an infinity, as no number or
as an integer of more than 64 bits. -/
theorem sound_number : l.number.Sound := by
  have hwhole : (l.whole.foldl Significand.pushWhole Significand.start).value < UInt64.size :=
    Significand.value_whole_lt l.whole (by decide)
  rw [number]
  split
  · split
    · exact l.sound_scaled _ _
    · split
      · exact ⟨by omega, by simpa [UInt64.size] using hwhole⟩
      · split
        · exact l.sound_sign (isFinite_toFloat _)
        · rename_i hrange
          rw [not_or] at hrange
          exact ⟨by omega, by omega⟩
  · exact l.sound_scaled _ _
  · have hzero : (Binary64.ofFloat 0).isFinite = true := by decide +kernel
    simp only
    split
    · split
      · trivial
      · exact l.sound_sign hzero
    · split <;> exact l.sound_scaled _ _

end Literal

end Json

end Intake
