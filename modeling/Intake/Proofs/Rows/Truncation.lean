import Intake.Columns.FlatStream
import Intake.Proofs.Rows.RoundTrip
/-!
# Row batches that are cut short

The reader of rows takes the end of the bytes for null in a boolean, in the
body of a string and in a branch. So a row batch of which bytes are
missing at the end is refused, except when the cut falls into the last
row, in a field that reads as null from what is left of it, and every
field behind it is null without any bytes (`Rows.FadesTo`). What is read
then is told by `Codec.decode_take_eq_ok`.
-/

namespace Intake

namespace Rows

variable {m k : Nat} {t : FieldType} {f : Field} {fs : List Field} {c : Cell}
variable {cs row : List Cell} {bs rest : Bytes} {s : Schema} {l : Layout} {rows : List Record}
variable {xs : List Record} {declared : UInt64} {index count : Nat} {selected : List String}

/-! ## Integers -/

theorem readGroups_take {groups n : Nat} (h : n < Nat.pow 128 (groups + 1))
    (hm : m < (writeGroups n).length) :
    readGroups (groups + 1) ((writeGroups n).take m) = .error .ended := by
  induction groups generalizing n m with
  | zero =>
    have hn : n < 128 := h
    rw [writeGroups, if_pos hn, List.length_singleton] at hm
    obtain rfl : m = 0 := by omega
    rfl
  | succ groups ih =>
    cases m with
    | zero => rfl
    | succ m =>
      rw [writeGroups] at hm ⊢
      by_cases hn : n < 128
      · rw [if_pos hn, List.length_singleton] at hm
        omega
      · -- a group with a mark is left, and the cut is in the others
        have hb : (UInt8.ofNat (n % 128 + 128)).toNat = n % 128 + 128 := by simp; omega
        have hr : n / 128 < Nat.pow 128 (groups + 1) :=
          Nat.div_lt_of_lt_mul (by rwa [Nat.mul_comm])
        rw [if_neg hn, List.length_cons] at hm
        rw [if_neg hn, List.take_succ_cons, readGroups, hb, if_neg (by omega),
          ih hr (by omega)]
        rfl

/-- **An integer that is cut is noticed.** -/
theorem readInt_take {n : Int64} (hm : m < (writeInt n.toInt).length) :
    readInt ((writeInt n.toInt).take m) = .error .ended := by
  have hz := zigzag_toInt_lt n
  unfold writeInt at hm ⊢
  rw [readInt, readGroups_take (Nat.lt_trans hz (by decide)) hm]
  rfl

/-! ## Cells and fields -/

/-- The length in front of bytes is read when all of it is left. -/
theorem readLength_take {body : Bytes} (hl : body.length ≤ vectorLimit) :
    readLength ((writeInt body.length ++ body).take m) =
      if body.length ≤ longest ∧ (writeInt body.length).length ≤ m then
        some (body.length, body.take (m - (writeInt body.length).length))
      else none := by
  by_cases hm : (writeInt body.length).length ≤ m
  · rw [List.take_append, List.take_of_length_le hm, readLength_writeInt hl]
    simp [hm]
  · obtain ⟨n, hn⟩ := exists_toInt_eq hl
    rw [if_neg fun h => hm h.2, List.take_append_of_le_length (by omega), readLength, ← hn,
      readInt_take (by rw [hn]; omega)]

theorem cut?_take {body : Bytes} (h : k < body.length) :
    Bytes.cut? body.length (body.take k) = none := by
  rw [Bytes.cut?, if_neg]
  rw [List.length_take]
  omega

/-- Whether a cell of which `m` bytes are left, but not all, reads as null:
a boolean does, and a string that can be read does once its length is
there. -/
def cellFades (c : Cell) (m : Nat) : Bool :=
  match c with
  | .boolean _ => true
  | .string s => isReadable c && decide ((writeInt (Bytes.ofText s).length).length ≤ m)
  | _ => false

/-- Whether a field of which `m` bytes are left, but not all, reads as null:
one that may be null does when no byte is left, and else its cell decides,
behind the branch. -/
def fades (f : Field) (c : Cell) (m : Nat) : Bool :=
  if f.nullable then m == 0 || cellFades c (m - 1) else cellFades c m

/-- Whether a field of which nothing is left reads as null. -/
def vanishes (f : Field) : Bool := f.nullable || f.type == .boolean

/-- **A cell that is cut** is noticed, or reads as null to the end of the
bytes. -/
theorem readCell_take (ht : c.type? = some t) (hl : (writeCell c).length ≤ vectorLimit)
    (hm : m < (writeCell c).length) :
    readCell t ((writeCell c).take m) = if cellFades c m then some (.null, []) else none := by
  cases c with
  | null => cases ht
  | boolean b =>
    cases ht
    obtain rfl : m = 0 := by simpa [writeCell] using hm
    rfl
  | int64 n =>
    cases ht
    simp [readCell, writeCell, readInt?, cellFades, readInt_take hm, Except.toOption]
  | timestamp n =>
    cases ht
    simp [readCell, writeCell, readInt?, cellFades, readInt_take hm, Except.toOption]
  | date d =>
    cases ht
    simp only [writeCell] at hm
    rw [← Int32.toInt_toInt64] at hm
    simp only [readCell, writeCell, readInt?, cellFades]
    rw [← Int32.toInt_toInt64, readInt_take hm]
    rfl
  | float64 x =>
    cases ht
    simp only [writeCell, Bytes.length_ofNat] at hm
    have hcut : Bytes.cut? 8 ((Bytes.ofNat 8 x.bits.toNat).take m) = none := by
      rw [Bytes.cut?, if_neg]
      simp only [List.length_take, Bytes.length_ofNat]
      omega
    simp [readCell, writeCell, Bytes.word?, hcut, cellFades]
  | string s =>
    cases ht
    simp only [writeCell, List.length_append] at hl hm
    simp only [readCell, writeCell, readLength_take (Nat.le_trans (Nat.le_add_left _ _) hl),
      cellFades, isReadable, Bool.and_eq_true, decide_eq_true_eq]
    by_cases h : (Bytes.ofText s).length ≤ longest ∧
        (writeInt (Bytes.ofText s).length).length ≤ m
    · -- the length is there, and not all of the body
      rw [if_pos h, if_pos h]
      dsimp only
      rw [cut?_take (by omega)]
    · rw [if_neg h, if_neg h]
  | bytes b =>
    cases ht
    simp only [writeCell, List.length_append] at hl hm
    simp only [readCell, writeCell, readLength_take (Nat.le_trans (Nat.le_add_left _ _) hl),
      cellFades]
    by_cases h : b.length ≤ longest ∧ (writeInt b.length).length ≤ m
    · have hcut : Bytes.cut? b.length (b.take (m - (writeInt b.length).length)) = none :=
        cut?_take (by omega)
      rw [if_pos h]
      simp [hcut]
    · rw [if_neg h]
      rfl

/-- **A field that is cut** is noticed, or reads as null to the end of the
bytes. -/
theorem readField_take (hc : c.Fits f) (hl : (writeField f c).length ≤ vectorLimit)
    (hm : m < (writeField f c).length) :
    readField f ((writeField f c).take m) = if fades f c m then some (.null, []) else none := by
  unfold readField writeField fades at *
  by_cases hn : f.nullable = true
  · simp only [hn, if_true, List.length_append] at hl hm ⊢
    cases m with
    | zero => rfl
    | succ m =>
      rcases hc with hc | ⟨rfl, -⟩
      · -- the branch of the type is left, and it is one byte long
        have hnull : c.isNull = false := by cases c <;> first | rfl | cases hc
        have hone : writeInt 1 = [2] := by simp [writeInt, zigzag, writeGroups]
        have hread := readInt_writeInt 1 ((writeCell c).take m)
        simp only [Int64.toInt_one, hone, List.singleton_append] at hread
        simp only [hnull, Bool.false_eq_true, if_false, hone, List.length_singleton] at hl hm
        simp only [hnull, Bool.false_eq_true, if_false, hone, List.singleton_append,
          List.take_succ_cons, hread]
        simpa using readCell_take hc (by omega) (by omega)
      · have hzero : writeInt 0 = [0] := by simp [writeInt, zigzag, writeGroups]
        simp [Cell.isNull, writeCell, hzero] at hm
  · simp only [hn, Bool.false_eq_true, if_false] at hl hm ⊢
    rcases hc with hc | ⟨-, h⟩
    · exact readCell_take hc hl hm
    · exact absurd h hn

/-- Of a field of which nothing is left. -/
theorem readField_nil (f : Field) :
    readField f [] = if vanishes f then some (.null, []) else none := by
  cases f with
  | mk name type nullable => cases nullable <;> cases type <;> rfl

/-! ## Rows -/

/-- Of a row of which nothing is left. -/
theorem readRow_nil (fs : List Field) :
    readRow fs [] = if fs.all vanishes then some (fs.map fun _ => .null, []) else none := by
  induction fs with
  | nil => rfl
  | cons f fs ih =>
    rw [readRow, readField_nil, List.all_cons]
    by_cases hf : vanishes f = true
    · by_cases hfs : fs.all vanishes = true
      · simp [hf, hfs, ih]
      · simp [hf, hfs, ih]
    · simp [hf]

/-- A row of which `m` bytes are left, but not all, reads as the cells
`row`: the cut is in a field that reads as null, those in front of it can
be read, and those behind it are null without any bytes. -/
inductive FadesTo : List Field → List Cell → Nat → List Cell → Prop where
  | here {f : Field} {fs : List Field} {c : Cell} {cs : List Cell} {m : Nat}
      (hm : m < (writeField f c).length) (hf : fades f c m = true)
      (hfs : fs.all vanishes = true) :
      FadesTo (f :: fs) (c :: cs) m (.null :: fs.map fun _ => .null)
  | behind {f : Field} {fs : List Field} {c : Cell} {cs row : List Cell} {m : Nat}
      (hc : isReadable c = true) (h : FadesTo fs cs m row) :
      FadesTo (f :: fs) (c :: cs) ((writeField f c).length + m) (c :: row)

theorem FadesTo.lt_length (h : FadesTo fs cs m row) : m < (writeRow fs cs).length := by
  induction h with
  | here hm hf hfs =>
    rw [writeRow, List.length_append]
    omega
  | behind hc h ih =>
    rw [writeRow, List.length_append]
    omega

/-- **A row that is cut** is noticed, or fades. -/
theorem readRow_take (hr : RowFits fs cs) (hl : (writeRow fs cs).length ≤ vectorLimit)
    (hm : m < (writeRow fs cs).length) :
    readRow fs ((writeRow fs cs).take m) = some (row, rest) ↔ FadesTo fs cs m row ∧ rest = [] := by
  induction fs generalizing cs m row with
  | nil => simp [writeRow] at hm
  | cons f fs ih =>
    cases cs with
    | nil => exact absurd hr id
    | cons c cs =>
      obtain ⟨hc, hr⟩ := hr
      simp only [writeRow, List.length_append] at hl hm
      rw [readRow, writeRow]
      rcases Nat.lt_or_ge m (writeField f c).length with hlt | hge
      · -- the cut is in this field
        rw [List.take_append_of_le_length (Nat.le_of_lt hlt), readField_take hc (by omega) hlt]
        constructor
        · intro h
          by_cases hf : fades f c m = true
          · by_cases hfs : fs.all vanishes = true
            · simp only [hf, if_true, readRow_nil, hfs, Option.map_some, Option.some.injEq,
                Prod.mk.injEq] at h
              obtain ⟨rfl, rfl⟩ := h
              exact ⟨.here hlt hf hfs, rfl⟩
            · simp [hf, readRow_nil, hfs] at h
          · simp [hf] at h
        · rintro ⟨h, rfl⟩
          cases h with
          | here hm hf hfs => simp [hf, readRow_nil, hfs]
          | behind hc h => omega
      · -- this field is left as a whole
        obtain ⟨k, rfl⟩ := Nat.exists_eq_add_of_le hge
        rw [List.take_append, List.take_of_length_le (Nat.le_add_right _ _),
          Nat.add_sub_cancel_left, readField_writeField hc (by omega)]
        constructor
        · intro h
          by_cases hread : isReadable c = true
          · simp only [hread, if_true, Option.map_eq_some_iff, Prod.mk.injEq, Prod.exists] at h
            obtain ⟨row, rest, h, rfl, rfl⟩ := h
            obtain ⟨hfade, rfl⟩ := (ih hr (by omega) (by omega)).1 h
            exact ⟨.behind hread hfade, rfl⟩
          · simp [hread] at h
        · rintro ⟨h, rfl⟩
          generalize hj : (writeField f c).length + k = j at h
          cases h with
          | here hm hf hfs => omega
          | behind hread hfade =>
            obtain rfl := Nat.add_left_cancel hj
            simp only [hread, if_true, (ih hr (by omega) (by omega)).2 ⟨hfade, rfl⟩,
              Option.map_some]

/-- The cells that a row fades to are null or of the types of their
fields. -/
theorem FadesTo.getElem? {i : Nat} (h : FadesTo fs cs m row) (hr : RowFits fs cs)
    (hf : fs[i]? = some f) : ∃ c, row[i]? = some c ∧ (c = .null ∨ c.type? = some f.type) := by
  induction h generalizing i with
  | here hm hfade hfs =>
    refine ⟨.null, ?_, .inl rfl⟩
    cases i with
    | zero => rfl
    | succ i =>
      rw [List.getElem?_cons_succ] at hf ⊢
      rw [List.getElem?_map, hf]
      rfl
  | behind hc h ih =>
    cases i with
    | zero =>
      obtain rfl := Option.some.inj hf
      exact ⟨_, rfl, hr.1.symm.imp And.left id⟩
    | succ i => exact ih hr.2 hf

/-! ## Batches -/

/-- **A row that is cut makes a record only as the last one**, when it fades
and no field that is asked for and must not be null comes out as null. -/
theorem readRows_take {r : Record} (hl : Layout.resolve selected s = .ok l)
    (hr : RowFits s.fields r.cells) (hlen : (writeRow s.fields r.cells).length ≤ vectorLimit)
    (hm : m < (writeRow s.fields r.cells).length) :
    readRows s l declared (count + 1) index ((writeRow s.fields r.cells).take m) = .ok xs ↔
      count = 0 ∧ 0 < m ∧ ∃ row, FadesTo s.fields r.cells m row ∧
        (∀ q ∈ l.columns, row[q.2]? = some .null → q.1.nullable = true) ∧ xs = [l.pick row] := by
  obtain ⟨hn, hget⟩ := Layout.columns_of_resolve hl
  rw [readRows]
  cases m with
  | zero => simp
  | succ m =>
    have hempty : ((writeRow s.fields r.cells).take (m + 1)).isEmpty = false := by
      rw [List.isEmpty_eq_false_iff, ← List.length_pos_iff, List.length_take]
      omega
    rw [hempty]
    have hproj : ∀ row, FadesTo s.fields r.cells (m + 1) row → ∀ cells,
        project row [] l.columns = .ok cells ↔
          (∀ q ∈ l.columns, row[q.2]? = some .null → q.1.nullable = true) ∧
            cells = (l.pick row).cells :=
      fun row hfade cells => project_eq_ok hn (by simp) fun q hq => hfade.getElem? hr (hget q hq)
    constructor
    · intro h
      simp only [Bool.false_eq_true, if_false] at h
      split at h
      · cases h
      rename_i row rest hrow
      obtain ⟨hfade, rfl⟩ := (readRow_take hr hlen hm).1 hrow
      split at h
      · cases h
      rename_i cells hcells
      obtain ⟨hnull, rfl⟩ := (hproj row hfade cells).1 hcells
      cases count with
      | zero =>
        cases h
        exact ⟨rfl, Nat.succ_pos m, row, hfade, hnull, rfl⟩
      | succ count => cases h
    · rintro ⟨rfl, -, row, hfade, hnull, rfl⟩
      simp only [Bool.false_eq_true, if_false, (readRow_take hr hlen hm).2 ⟨hfade, rfl⟩,
        (hproj row hfade _).2 ⟨hnull, rfl⟩]
      rfl

/-- A cut falls into one of the rows. -/
theorem exists_cut (h : k < (writeRows s rows).length) :
    ∃ front r back m, rows = front ++ r :: back ∧ k = (writeRows s front).length + m ∧
      m < (writeRow s.fields r.cells).length := by
  induction rows generalizing k with
  | nil => simp [writeRows] at h
  | cons r rows ih =>
    have hcons : writeRows s (r :: rows) = writeRow s.fields r.cells ++ writeRows s rows := by
      simp [writeRows]
    rw [hcons, List.length_append] at h
    rcases Nat.lt_or_ge k (writeRow s.fields r.cells).length with hlt | hge
    · exact ⟨[], r, rows, k, rfl, by simp [writeRows], hlt⟩
    · obtain ⟨j, rfl⟩ := Nat.exists_eq_add_of_le hge
      obtain ⟨front, r', back, m, rfl, rfl, hm⟩ := ih (k := j) (by omega)
      refine ⟨r :: front, r', back, m, rfl, ?_, hm⟩
      simp only [writeRows, List.flatMap_cons, List.length_append]
      omega

/-- What is left of the rows by a cut. -/
theorem take_writeRows {front back : List Record} {r : Record}
    (hm : m ≤ (writeRow s.fields r.cells).length) :
    (writeRows s (front ++ r :: back)).take ((writeRows s front).length + m) =
      writeRows s front ++ (writeRow s.fields r.cells).take m := by
  have hsplit : writeRows s (front ++ r :: back) =
      writeRows s front ++ (writeRow s.fields r.cells ++ writeRows s back) := by
    simp [writeRows]
  rw [hsplit, List.take_length_add_append, List.take_append_of_le_length hm]

/-- There are no more rows than bytes. -/
theorem length_le_writeRows (hf : s.fields ≠ [])
    (hr : ∀ r ∈ rows, RowFits s.fields r.cells) : rows.length ≤ (writeRows s rows).length := by
  induction rows with
  | nil => exact Nat.zero_le _
  | cons r rows ih =>
    have hpos := length_writeRow_pos (hr r List.mem_cons_self) hf
    have := ih fun r h => hr r (List.mem_cons_of_mem _ h)
    simp only [writeRows, List.flatMap_cons, List.length_append, List.length_cons] at this ⊢
    omega

/-- **What is read of rows that are cut in one of them.** -/
theorem readRows_cut {front back : List Record} {r : Record}
    (hl : Layout.resolve selected s = .ok l)
    (hr : ∀ r' ∈ front ++ r :: back, RowFits s.fields r'.cells)
    (hlen : (writeRows s (front ++ r :: back)).length ≤ vectorLimit)
    (hm : m < (writeRow s.fields r.cells).length) :
    readRows s l declared (front ++ r :: back).length index
        ((writeRows s (front ++ r :: back)).take ((writeRows s front).length + m)) = .ok xs ↔
      back = [] ∧ 0 < m ∧ (∀ r' ∈ front, isReadableRow s.fields r'.cells = true) ∧
        ∃ row, FadesTo s.fields r.cells m row ∧
          (∀ q ∈ l.columns, row[q.2]? = some .null → q.1.nullable = true) ∧
          xs = front.map (fun r' => l.pick r'.cells) ++ [l.pick row] := by
  have hsplit : (writeRows s (front ++ r :: back)).length =
      (writeRows s front).length + ((writeRow s.fields r.cells).length +
        (writeRows s back).length) := by
    simp [writeRows]
  rw [take_writeRows (Nat.le_of_lt hm), List.length_append, List.length_cons,
    readRows_writeRows_append hl (fun r' h => hr r' (List.mem_append_left _ h))
      (rowHolds_of_length (by omega))]
  constructor
  · rintro ⟨hread, ys, hys, rfl⟩
    obtain ⟨hback, hpos, row, hfade, hnull, rfl⟩ :=
      (readRows_take hl (hr r (by simp)) (by omega) hm).1 hys
    exact ⟨List.eq_nil_of_length_eq_zero hback, hpos, hread, row, hfade, hnull, rfl⟩
  · rintro ⟨rfl, hpos, hread, row, hfade, hnull, rfl⟩
    exact ⟨hread, _, (readRows_take hl (hr r (by simp)) (by omega) hm).2
      ⟨rfl, hpos, row, hfade, hnull, rfl⟩, rfl⟩

end Rows

/-- What a service sends for rows in the row format. -/
theorem Batch.encode_avro_eq_ok {w : Columns.StreamWriter} {s : Schema} {rows : List Record}
    {b : Batch} (h : Batch.encode w .avro s rows = .ok b) :
    (∀ r ∈ rows, Rows.RowFits s.fields r.cells) ∧
      b = ⟨.avro, UInt64.ofNat rows.length, Rows.writeRows s rows⟩ := by
  simp only [Batch.encode, bind, Except.bind, Rows.encode] at h
  split at h
  · cases h
  · rename_i data hdata
    split at hdata
    · obtain ⟨hr, rfl⟩ := Rows.encodeRows_eq_ok.1 hdata
      cases h
      exact ⟨hr, rfl⟩
    · cases hdata

open Rows in
/-- **What is read of a row batch that was cut short.** From `k` bytes of
the batch for `rows`, fewer than there are, the codec makes records, and
no error, just when they hold all rows but the last and a part of that one
which fades to a row that has no null in a field that is asked for and
must not be null. The records are those of the rows, with that row in
place of the last. -/
theorem Codec.decode_take_eq_ok {w : Columns.StreamWriter} {s : Schema} {selected : List String}
    {l : Layout} {codec : Codec} {rows xs : List Record} {b : Batch} {k : Nat}
    (hl : Layout.resolve selected s = .ok l) (hc : Codec.forFormat .avro s = .ok codec)
    (hb : Batch.encode w .avro s rows = .ok b) (hlen : b.data.length ≤ vectorLimit)
    (hk : k < b.data.length) :
    codec.decode l { b with data := b.data.take k } = .ok xs ↔
      ∃ front last m row, rows = front ++ [last] ∧ k = (writeRows s front).length + m ∧ 0 < m ∧
        (∀ r ∈ front, isReadableRow s.fields r.cells = true) ∧
        FadesTo s.fields last.cells m row ∧
        (∀ q ∈ l.columns, row[q.2]? = some .null → q.1.nullable = true) ∧
        xs = front.map (fun r => l.pick r.cells) ++ [l.pick row] := by
  obtain rfl := eq_of_forFormat hc
  obtain ⟨hr, rfl⟩ := Batch.encode_avro_eq_ok hb
  dsimp only at hlen hk
  have hcount : (UInt64.ofNat rows.length).toNat = rows.length := by
    have hle := length_le_writeRows (Layout.fields_ne_nil_of_resolve hl) hr
    rw [vectorLimit_eq] at hlen
    rw [UInt64.toNat_ofNat', Nat.mod_eq_of_lt (by omega)]
  have hdecode : ∀ data : Bytes, Codec.decode ⟨.avro, s⟩ l
        ⟨.avro, UInt64.ofNat rows.length, data⟩ = .ok xs ↔
      readRows s l (UInt64.ofNat rows.length) rows.length 0 data = .ok xs := by
    intro data
    simp only [Codec.decode, Rows.decode, hcount, ne_eq, not_true_eq_false, if_false]
    cases readRows s l (UInt64.ofNat rows.length) rows.length 0 data <;> simp [Except.mapError]
  rw [hdecode]
  constructor
  · intro h
    obtain ⟨front, r, back, m, rfl, rfl, hm⟩ := exists_cut hk
    obtain ⟨rfl, hpos, hread, row, hfade, hnull, rfl⟩ := (readRows_cut hl hr hlen hm).1 h
    exact ⟨front, r, m, row, rfl, rfl, hpos, hread, hfade, hnull, rfl⟩
  · rintro ⟨front, last, m, row, rfl, rfl, hpos, hread, hfade, hnull, rfl⟩
    exact (readRows_cut hl hr hlen hfade.lt_length).2
      ⟨rfl, hpos, hread, row, hfade, hnull, rfl⟩

namespace Sample

/-- The layout of both its fields. -/
def namedLayout : Layout := ⟨named.fields, [0, 1], 2⟩

end Sample

/-- The last byte of a name is missing, and instead of an error there is a
record without the name. -/
theorem Codec.decode_take_of_short_name :
    Batch.encode Columns.flatWriter .avro Sample.named [⟨[.int64 5, .string "ab"]⟩] =
        .ok ⟨.avro, 1, [10, 2, 4, 97, 98]⟩ ∧
      Codec.decode ⟨.avro, Sample.named⟩ Sample.namedLayout ⟨.avro, 1, [10, 2, 4, 97]⟩ =
        .ok [⟨[.int64 5, .null]⟩] := by
  have hb : Batch.encode Columns.flatWriter .avro Sample.named [⟨[.int64 5, .string "ab"]⟩] =
      .ok ⟨.avro, 1, [10, 2, 4, 97, 98]⟩ := by decide +kernel
  have hid : (Rows.writeField ⟨"id", .int64, false⟩ (.int64 5)).length = 1 := by decide +kernel
  have hfade : Rows.FadesTo Sample.named.fields [.int64 5, .string "ab"] 4
      [.int64 5, .null] := by
    have hname : Rows.FadesTo [⟨"name", .string, true⟩] [.string "ab"] 3 [.null] :=
      .here (by decide +kernel) (by decide +kernel) rfl
    have := Rows.FadesTo.behind (f := ⟨"id", .int64, false⟩) (c := .int64 5) rfl hname
    rwa [hid] at this
  have hnull : ∀ q ∈ Sample.namedLayout.columns,
      [Cell.int64 5, .null][q.2]? = some .null → q.1.nullable = true := by decide
  have hl : Layout.resolve [] Sample.named = .ok Sample.namedLayout := rfl
  exact ⟨hb, (decode_take_eq_ok (k := 4) hl rfl hb (by decide) (by decide)).2
    ⟨[], _, 4, _, rfl, rfl, by decide, by simp, hfade, hnull, rfl⟩⟩

end Intake
