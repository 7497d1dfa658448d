import Intake.Codec
/-!
# When a codec yields records

A codec yields records only of a batch of its own format, and then those
that the reader of the format makes of the bytes
(`Codec.decode_avro_eq_ok`, `Codec.decode_arrow_eq_ok`). Of rows the number
that is told drives the reader, of columns it is compared with what came
out, so that either way there are as many records as the batch tells
(`Codec.length_of_decode`).
-/

namespace Intake

/-! ## Results of a part -/

section

variable {ε α β : Type} {x : Except ε α} {f : α → β}

theorem exists_of_map_eq_ok {b : β} (h : x.map f = .ok b) : ∃ a, x = .ok a ∧ f a = b := by
  cases x with
  | error e => cases h
  | ok a => exact ⟨a, rfl, Except.ok.inj h⟩

theorem eq_error_of_map {e : ε} (h : x.map f = .error e) : x = .error e := by
  cases x with
  | error e' => exact congrArg Except.error (Except.error.inj h)
  | ok a => cases h

end

/-! ## What codecs yield -/

variable {s : Schema} {l : Layout} {b : Batch} {xs : List Record}

namespace Rows

theorem length_of_readRows {declared : UInt64} {count index : Nat} {bs : Bytes}
    (h : readRows s l declared count index bs = .ok xs) : xs.length = count := by
  induction count generalizing index bs xs with
  | zero =>
    rw [readRows] at h
    split at h <;> cases h
    rfl
  | succ count ih =>
    rw [readRows] at h
    split at h
    · cases h
    split at h
    · cases h
    split at h
    · cases h
    obtain ⟨ys, hr, rfl⟩ := exists_of_map_eq_ok h
    rw [List.length_cons, ih hr]

/-- Telling where a fault was met does not make one. -/
theorem decode_eq_ok_iff {declared : UInt64} {data : Bytes} :
    decode s l declared data = .ok xs ↔
      readRows s l declared declared.toNat 0 data = .ok xs := by
  rw [decode]
  cases readRows s l declared declared.toNat 0 data with
  | error fault => exact iff_of_false nofun nofun
  | ok ys =>
    constructor
    · exact fun h => congrArg Except.ok (Except.ok.inj h)
    · exact fun h => congrArg Except.ok (Except.ok.inj h)

end Rows

namespace Codec

variable {format : WireFormat} {c : Codec} {e : DecodeError}

/-- The codec of a format for a schema. -/
theorem eq_of_forFormat (h : forFormat format s = .ok c) : c = ⟨format, s⟩ := by
  cases format with
  | arrow => exact (Except.ok.inj h).symm
  | avro =>
    obtain ⟨u, -, rfl⟩ := exists_of_map_eq_ok h
    rfl

/-- There is one of the row format for the schemas that it accepts. -/
theorem forFormat_avro_eq_ok :
    forFormat .avro s = .ok c ↔ Rows.accepts s = true ∧ c = ⟨.avro, s⟩ := by
  rw [forFormat, Rows.check]
  split
  · rename_i h
    simp [Except.map, h, eq_comm]
  · rename_i h
    simp [Except.map, h]

/-- What the codec of the row format yields is what the reader of rows
does. -/
theorem decode_avro_eq_ok :
    decode ⟨.avro, s⟩ l b = .ok xs ↔
      b.format = .avro ∧ Rows.readRows s l b.rowCount b.rowCount.toNat 0 b.data = .ok xs := by
  rw [decode]
  by_cases hf : b.format = .avro
  · rw [if_neg (by simpa using hf), and_iff_right hf]
    exact Rows.decode_eq_ok_iff
  · rw [if_pos (by simpa using hf)]
    simp [hf]

/-- What the codec of the column format yields is what the reader of
columns does, if there is as much of it as told. -/
theorem decode_arrow_eq_ok :
    decode ⟨.arrow, s⟩ l b = .ok xs ↔
      b.format = .arrow ∧ Columns.decode s l b.data = .ok xs ∧ xs.length = b.rowCount.toNat := by
  rw [decode]
  by_cases hf : b.format = .arrow
  · rw [if_neg (by simpa using hf)]
    dsimp only
    cases Columns.decode s l b.data with
    | error e => simp
    | ok ys =>
      by_cases hl : ys.length = b.rowCount.toNat
      · simp only [hl, if_true, hf, Except.ok.injEq, true_and]
        constructor
        · rintro rfl
          exact ⟨rfl, hl⟩
        · exact And.left
      · simp only [hl, if_false, hf, Except.ok.injEq, true_and]
        refine iff_of_false (by simp) ?_
        rintro ⟨rfl, h⟩
        exact hl h
  · rw [if_pos (by simpa using hf)]
    simp [hf]

/-- **A codec yields as many records as a batch declares**, or an error. -/
theorem length_of_decode (h : c.decode l b = .ok xs) : xs.length = b.rowCount.toNat := by
  obtain ⟨format, s⟩ := c
  cases format with
  | arrow => exact (decode_arrow_eq_ok.1 h).2.2
  | avro => exact Rows.length_of_readRows (decode_avro_eq_ok.1 h).2

end Codec

end Intake
