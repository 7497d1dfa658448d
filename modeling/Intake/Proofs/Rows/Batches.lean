import Intake.Proofs.Rows.RoundTrip
/-!
# Row batches read back

The rows that a service sends in the row format are what the codec makes of
the bytes: all of them, in order, each with the cells that a layout asks
for. Every cell comes back as it was, whatever the number or the bits of
the double, as long as no string or byte string is longer than the reader
takes (`Codec.decode_encode_rows`).
-/

namespace Intake

namespace Rows

variable {f : Field} {fs : List Field} {c : Cell} {cs : List Cell} {s : Schema} {l : Layout}
variable {rows : List Record} {selected : List String} {declared : UInt64}

/-! ## How long cells are -/

theorem length_writeGroups_le {groups n : Nat} (h : n < Nat.pow 128 (groups + 1)) :
    (writeGroups n).length ≤ groups + 1 := by
  induction groups generalizing n with
  | zero =>
    have hn : n < 128 := h
    simp [writeGroups, hn]
  | succ groups ih =>
    rw [writeGroups]
    split
    · simp
    · have hr : n / 128 < Nat.pow 128 (groups + 1) :=
        Nat.div_lt_of_lt_mul (by rwa [Nat.mul_comm])
      have := ih hr
      rw [List.length_cons]
      omega

/-- An integer of 64 bits takes ten bytes at most. -/
theorem length_writeInt_le (n : Int64) : (writeInt n.toInt).length ≤ 10 :=
  length_writeGroups_le (Nat.lt_trans (zigzag_toInt_lt n) (by decide))

/-- And so does a length. -/
theorem length_writeInt_natCast_le {m : Nat} (h : m ≤ vectorLimit) :
    (writeInt m).length ≤ 10 := by
  obtain ⟨n, hn⟩ := exists_toInt_eq h
  rw [← hn]
  exact length_writeInt_le n

theorem longest_eq : longest = 536870912 := rfl

/-- A cell that can be read back is not much longer than the longest
string. -/
theorem length_writeCell_le (h : isReadable c = true) :
    (writeCell c).length ≤ 10 + longest := by
  have hle : longest ≤ vectorLimit := by rw [longest_eq, vectorLimit_eq]; omega
  cases c with
  | null => simp [writeCell]
  | boolean b =>
    rw [writeCell, List.length_singleton]
    omega
  | int64 n =>
    have := length_writeInt_le n
    rw [writeCell]
    omega
  | float64 x =>
    rw [writeCell, Bytes.length_ofNat]
    omega
  | string s =>
    have hs : (Bytes.ofText s).length ≤ longest := by simpa [isReadable] using h
    have := length_writeInt_natCast_le (Nat.le_trans hs hle)
    simp only [writeCell, List.length_append]
    omega
  | bytes b =>
    have hb : b.length ≤ longest := by simpa [isReadable] using h
    have := length_writeInt_natCast_le (Nat.le_trans hb hle)
    simp only [writeCell, List.length_append]
    omega
  | date d =>
    have := length_writeInt_le d.toInt64
    rw [Int32.toInt_toInt64] at this
    rw [writeCell]
    omega
  | timestamp n =>
    have := length_writeInt_le n
    rw [writeCell]
    omega

/-- A row whose cells can be read back has none that is longer than a
vector. -/
theorem RowHolds.of_isReadable (h : ∀ c ∈ cs, isReadable c = true) : RowHolds fs cs := by
  rintro ⟨f, c⟩ hq
  have hc := length_writeCell_le (h c (List.of_mem_zip hq).2)
  have hbranch : (writeInt (if c.isNull then 0 else 1)).length = 1 := by
    cases c.isNull <;> decide +kernel
  rw [longest_eq] at hc
  rw [vectorLimit_eq]
  dsimp only
  unfold writeField
  split
  · rw [List.length_append, hbranch]
    omega
  · omega

/-! ## Batches -/

/-- A row with one cell for each field, each of which fits, is one that is
written. -/
theorem RowFits.of_forall₂ (h : List.Forall₂ Cell.Fits cs fs) : RowFits fs cs := by
  induction h with
  | nil => trivial
  | cons hc _ ih => exact ⟨hc, ih⟩

/-- What a layout makes of a row that is written: the cells at its wire
positions, in its order. -/
theorem pick_eq_of_rowFits (hl : Layout.resolve selected s = .ok l) (hr : RowFits s.fields cs) :
    l.pick cs = ⟨l.wireIndices.map fun i => cs.getD i .null⟩ := by
  have hget : ∀ q ∈ l.columns, cs[q.2]? = some (cs.getD q.2 .null) := by
    intro q hq
    obtain ⟨c, hc, -⟩ := hr.getElem? ((Layout.columns_of_resolve hl).2 q hq)
    rw [List.getD_eq_getElem?_getD, hc, Option.getD_some]
  rw [Layout.pick, ← Layout.snd_columns_of_resolve hl, List.map_map]
  congr 1
  rw [← List.filterMap_eq_map]
  exact List.filterMap_congr hget

theorem pick_eq (hl : Layout.resolve selected s = .ok l) (hr : List.Forall₂ Cell.Fits cs s.fields) :
    l.pick cs = ⟨l.wireIndices.map fun i => cs.getD i .null⟩ :=
  pick_eq_of_rowFits hl (.of_forall₂ hr)

/-- The cells of a row that are written are no longer than a vector, if
they can be read back. -/
theorem RowHolds.of_isReadableRow (h : isReadableRow fs cs = true) : RowHolds fs cs := by
  have hwritten : RowHolds fs (cs.take fs.length) := .of_isReadable (List.all_eq_true.1 h)
  intro q hq
  obtain ⟨i, hi⟩ := List.mem_iff_getElem?.1 hq
  obtain ⟨hf, hc⟩ := List.getElem?_zip_eq_some.1 hi
  refine hwritten q (List.mem_of_getElem? (i := i) (List.getElem?_zip_eq_some.2 ⟨hf, ?_⟩))
  rw [List.getElem?_take_of_lt (List.getElem?_eq_some_iff.1 hf).1, hc]

end Rows

namespace Codec

open Rows in
/-- **Rows read back.** For rows with one cell for each field of the
schema, each of which fits and none of which is a longer string than the
reader takes, there is a row batch; and when it is told with the number of
rows, the codec yields a record for each row, in order, with the cells at
the wire positions of the layout. Every position is one of the row. -/
theorem decode_encode_rows {s : Schema} {selected : List String} {l : Layout} {codec : Codec}
    {rows : List Record} {declared : UInt64}
    (hl : Layout.resolve selected s = .ok l) (hc : forFormat .avro s = .ok codec)
    (hfit : ∀ r ∈ rows, List.Forall₂ Cell.Fits r.cells s.fields)
    (hread : ∀ r ∈ rows, ∀ c ∈ r.cells, isReadable c = true)
    (hn : declared.toNat = rows.length) :
    (∀ i ∈ l.wireIndices, i < s.size) ∧
      ∃ data, encode s rows = .ok data ∧
        codec.decode l ⟨.avro, declared, data⟩ =
          .ok (rows.map fun r => ⟨l.wireIndices.map fun i => r.cells.getD i .null⟩) := by
  obtain ⟨haccepts, rfl⟩ := forFormat_avro_eq_ok.1 hc
  refine ⟨Layout.lt_size_of_resolve hl, writeRows s rows, ?_, ?_⟩
  · rw [encode, if_pos haccepts]
    exact encodeRows_eq_ok.2 ⟨fun r hr => .of_forall₂ (hfit r hr), rfl⟩
  · have hrows : readRows s l declared rows.length 0 (writeRows s rows) =
        .ok (rows.map fun r => l.pick r.cells) := by
      have happ : readRows s l declared (rows.length + 0) 0 (writeRows s rows ++ []) =
          .ok (rows.map fun r => l.pick r.cells) := by
        refine (readRows_writeRows_append hl (fun r hr => .of_forall₂ (hfit r hr)) fun r hr =>
          .of_isReadable (hread r hr)).2 ⟨fun r hr => ?_, [], rfl, by simp⟩
        exact List.all_eq_true.2 fun c hc => hread r hr c (List.mem_of_mem_take hc)
      rwa [List.append_nil, Nat.add_zero] at happ
    rw [decode_avro_eq_ok]
    refine ⟨rfl, ?_⟩
    rw [hn, hrows]
    exact congrArg Except.ok (List.map_congr_left fun r hr => pick_eq hl (hfit r hr))

end Codec

namespace Sample

/-- A number, a double and a name, of which the number is required. -/
def measured : Schema :=
  ⟨[⟨"id", .int64, false⟩, ⟨"value", .float64, true⟩, ⟨"name", .string, true⟩]⟩

/-- The lowest number with the bits of a double that is no number, and the
highest with nulls. -/
def measuredRows : List Record :=
  [⟨[.int64 Int64.minValue, .float64 ⟨0x7FF8000000000001⟩, .string "ab"]⟩,
    ⟨[.int64 Int64.maxValue, .null, .null]⟩]

end Sample

/-- Extreme numbers and the bits of a double come back behind the name, in
the order asked for. -/
theorem Codec.decode_encode_measured :
    ∃ data, Rows.encode Sample.measured Sample.measuredRows = .ok data ∧
      Codec.decode ⟨.avro, Sample.measured⟩
          ⟨[⟨"name", .string, true⟩, ⟨"value", .float64, true⟩, ⟨"id", .int64, false⟩],
            [2, 1, 0], 3⟩ ⟨.avro, 2, data⟩ =
        .ok [⟨[.string "ab", .float64 ⟨0x7FF8000000000001⟩, .int64 Int64.minValue]⟩,
          ⟨[.null, .null, .int64 Int64.maxValue]⟩] := by
  have hl : Layout.resolve ["name", "value", "id"] Sample.measured =
      .ok ⟨[⟨"name", .string, true⟩, ⟨"value", .float64, true⟩, ⟨"id", .int64, false⟩],
        [2, 1, 0], 3⟩ := by decide +kernel
  have hfit : ∀ r ∈ Sample.measuredRows,
      List.Forall₂ Cell.Fits r.cells Sample.measured.fields := by
    simp [Sample.measuredRows, Sample.measured, Cell.Fits, Cell.type?]
  exact (decode_encode_rows hl rfl hfit (by decide +kernel) rfl).2

end Intake
