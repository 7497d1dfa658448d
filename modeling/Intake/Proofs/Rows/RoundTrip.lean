import Intake.Proofs.Codecs
import Intake.Proofs.Layouts
/-!
# What is written as a row reads back

Integers, cells, fields and rows, one after the other: the reader takes
from the front of the bytes what was written there and leaves what stands
behind it (`readRow_writeRow`, `readRows_append`). Only a string or byte
string that is too long cannot be read. What is written of a cell is bounded throughout by the
length of the longest vector, so that every length told in it is one of
64 bits.
-/

namespace Intake.Rows

variable {n : Int} {m k : Nat} {t : FieldType} {f : Field} {fs : List Field} {c : Cell}
variable {cs row : List Cell} {bs rest : Bytes} {s : Schema} {l : Layout} {rows : List Record}
variable {xs : List Record} {declared : UInt64} {index count : Nat} {selected : List String}

/-! ## Integers -/

/-- The length of the longest vector of bytes. -/
def vectorLimit : Nat := Int64.maxValue.toInt.toNat

theorem vectorLimit_eq : vectorLimit = 9223372036854775807 := rfl

/-- A length of bytes that fit into a vector is an integer of 64 bits. -/
theorem exists_toInt_eq (h : m ≤ vectorLimit) : ∃ n : Int64, n.toInt = (m : Int) := by
  rw [vectorLimit_eq] at h
  exact ⟨Int64.ofNat m, Int64.toInt_ofNat_of_lt (by omega)⟩

theorem writeGroups_ne_nil (n : Nat) : writeGroups n ≠ [] := by
  rw [writeGroups]
  split <;> simp

theorem length_writeInt_pos (n : Int) : 0 < (writeInt n).length :=
  List.length_pos_iff.2 (writeGroups_ne_nil _)

/-! ## Cells -/

/-- Whether a cell can be read back: no string is longer than the reader
takes. -/
def isReadable : Cell → Bool
  | .string s => (Bytes.ofText s).length ≤ longest
  | .bytes b => b.length ≤ longest
  | _ => true

theorem text?_ofText (s : String) : Bytes.text? (Bytes.ofText s) = some s := by
  rw [Bytes.text?, Bytes.ofText, Array.toArray_toList, String.toUTF8_eq_toByteArray,
    String.fromUTF8?, dif_pos s.isValidUTF8]
  rfl

theorem cut?_append (bs rest : Bytes) : Bytes.cut? bs.length (bs ++ rest) = some (bs, rest) := by
  simp [Bytes.cut?]

/-- A length is read unless it is too long. -/
theorem readLength_writeInt (h : m ≤ vectorLimit) (rest : Bytes) :
    readLength (writeInt m ++ rest) = if m ≤ longest then some (m, rest) else none := by
  obtain ⟨n, hn⟩ := exists_toInt_eq h
  rw [readLength, ← hn, readInt_writeInt]
  dsimp only
  rw [hn]
  by_cases hm : m ≤ longest
  · rw [if_pos hm, if_pos (by omega), Int.toNat_natCast]
  · rw [if_neg hm, if_neg (by omega)]

/-- **A cell reads back** as a value of its type. -/
theorem readCell_writeCell (ht : c.type? = some t) (hl : (writeCell c).length ≤ vectorLimit)
    (rest : Bytes) :
    readCell t (writeCell c ++ rest) = if isReadable c then some (c, rest) else none := by
  cases c with
  | null => cases ht
  | boolean b =>
    cases ht
    cases b <;> rfl
  | int64 n =>
    cases ht
    simp [readCell, writeCell, isReadable, readInt?, readInt_writeInt, Except.toOption]
  | timestamp n =>
    cases ht
    simp [readCell, writeCell, isReadable, readInt?, readInt_writeInt, Except.toOption]
  | date d =>
    cases ht
    have hmin := d.minValue_le_toInt
    have hmax := d.toInt_le
    simp only [readCell, writeCell, isReadable, readInt?, if_true]
    rw [← Int32.toInt_toInt64, readInt_writeInt]
    simp only [Except.toOption, Int32.toInt_toInt64]
    rw [if_pos ⟨hmin, hmax⟩, Int32.ofInt_toInt]
  | float64 x =>
    cases ht
    have hlen : (Bytes.ofNat 8 x.bits.toNat).length = 8 := Bytes.length_ofNat _ _
    have hcut := cut?_append (Bytes.ofNat 8 x.bits.toNat) rest
    have hbits : x.bits.toNat % Nat.pow 256 8 = x.bits.toNat := Nat.mod_eq_of_lt x.bits.toNat_lt
    rw [hlen] at hcut
    simp only [readCell, writeCell, isReadable, Bytes.word?, hcut, Option.map_some,
      Bytes.toNat_ofNat, hbits, UInt64.ofNat_toNat, if_true]
  | string s =>
    cases ht
    simp only [writeCell, List.length_append] at hl
    simp only [readCell, writeCell, List.append_assoc, isReadable]
    rw [readLength_writeInt (by omega)]
    by_cases hs : (Bytes.ofText s).length ≤ longest
    · simp [hs, cut?_append, text?_ofText]
    · simp [hs]
  | bytes b =>
    cases ht
    simp only [writeCell, List.length_append] at hl
    simp only [readCell, writeCell, List.append_assoc, isReadable]
    rw [readLength_writeInt (by omega)]
    by_cases hb : b.length ≤ longest
    · simp [hb, cut?_append]
    · simp [hb]

/-! ## Fields and rows -/

/-- **A field reads back.** -/
theorem readField_writeField (hc : c.Fits f) (hl : (writeField f c).length ≤ vectorLimit)
    (rest : Bytes) :
    readField f (writeField f c ++ rest) = if isReadable c then some (c, rest) else none := by
  unfold readField writeField at *
  by_cases hn : f.nullable = true
  · simp only [hn, if_true, List.append_assoc, List.length_append] at hl ⊢
    rcases hc with hc | ⟨rfl, -⟩
    · -- the branch of the type, and the cell behind it
      have hnull : c.isNull = false := by cases c <;> first | rfl | cases hc
      have hone := readInt_writeInt 1 (writeCell c ++ rest)
      simp only [Int64.toInt_one] at hone
      simp only [hnull, Bool.false_eq_true, if_false, hone]
      simpa using readCell_writeCell hc (by omega) rest
    · have hzero := readInt_writeInt 0 rest
      simp only [Int64.toInt_zero] at hzero
      simp [Cell.isNull, writeCell, hzero, isReadable]
  · simp only [hn, Bool.false_eq_true, if_false] at hl ⊢
    rcases hc with hc | ⟨-, h⟩
    · exact readCell_writeCell hc hl rest
    · exact absurd h hn

/-- Every field takes a byte at least. -/
theorem length_writeField_pos (hc : c.Fits f) : 0 < (writeField f c).length := by
  unfold writeField
  split
  · have := length_writeInt_pos (if c.isNull then 0 else 1)
    rw [List.length_append]
    omega
  · rename_i hn
    rcases hc with hc | ⟨-, h⟩
    · cases c with
      | null => cases hc
      | boolean b => simp [writeCell]
      | int64 n => exact length_writeInt_pos _
      | float64 x => simp [writeCell]
      | string s =>
        have := length_writeInt_pos (Bytes.ofText s).length
        simp only [writeCell, List.length_append]
        omega
      | bytes b =>
        have := length_writeInt_pos b.length
        simp only [writeCell, List.length_append]
        omega
      | date d => exact length_writeInt_pos _
      | timestamp n => exact length_writeInt_pos _
    · exact absurd h hn

/-- The bytes of the fields of a row, from its cells. -/
def writeRow : List Field → List Cell → Bytes
  | f :: fs, c :: cs => writeField f c ++ writeRow fs cs
  | _, _ => []

/-- A row has a cell for every field, which fits. -/
def RowFits : List Field → List Cell → Prop
  | [], _ => True
  | _ :: _, [] => False
  | f :: fs, c :: cs => c.Fits f ∧ RowFits fs cs

/-- What is written of each cell of a row is no longer than a vector. -/
def RowHolds (fs : List Field) (cs : List Cell) : Prop :=
  ∀ q ∈ fs.zip cs, (writeField q.1 q.2).length ≤ vectorLimit

/-- A row that is no longer than a vector has no cell that is. -/
theorem RowHolds.of_length (h : (writeRow fs cs).length ≤ vectorLimit) : RowHolds fs cs := by
  induction fs generalizing cs with
  | nil => simp [RowHolds]
  | cons f fs ih =>
    cases cs with
    | nil => simp [RowHolds]
    | cons c cs =>
      rw [writeRow, List.length_append] at h
      exact List.forall_mem_cons.2 ⟨by dsimp only; omega, ih (by omega)⟩

/-- The cells of a row that are written: one for each field. -/
def isReadableRow (fs : List Field) (cs : List Cell) : Bool := (cs.take fs.length).all isReadable

/-- **A row reads back.** -/
theorem readRow_writeRow (hr : RowFits fs cs) (hl : RowHolds fs cs) (rest : Bytes) :
    readRow fs (writeRow fs cs ++ rest) =
      if isReadableRow fs cs then some (cs.take fs.length, rest) else none := by
  induction fs generalizing cs with
  | nil => simp [readRow, writeRow, isReadableRow]
  | cons f fs ih =>
    cases cs with
    | nil => exact absurd hr id
    | cons c cs =>
      obtain ⟨hc, hr⟩ := hr
      obtain ⟨hlc, hl⟩ := List.forall_mem_cons.1 hl
      rw [readRow, writeRow, List.append_assoc, readField_writeField hc hlc]
      by_cases hread : isReadable c = true
      · rw [if_pos hread]
        dsimp only
        rw [ih hr hl]
        by_cases hrow : isReadableRow fs cs = true
        · have : isReadableRow (f :: fs) (c :: cs) = true := by
            simpa [isReadableRow, hread] using hrow
          rw [if_pos hrow, if_pos this]
          rfl
        · have : ¬ isReadableRow (f :: fs) (c :: cs) = true := by
            simpa [isReadableRow, hread] using hrow
          rw [if_neg hrow, if_neg this]
          rfl
      · have : ¬ isReadableRow (f :: fs) (c :: cs) = true := by
          simp [isReadableRow, hread]
        rw [if_neg hread, if_neg this]

/-- A row of a schema with fields takes a byte at least. -/
theorem length_writeRow_pos (hr : RowFits fs cs) (hf : fs ≠ []) :
    0 < (writeRow fs cs).length := by
  cases fs with
  | nil => exact absurd rfl hf
  | cons f fs =>
    cases cs with
    | nil => exact absurd hr id
    | cons c cs =>
      have := length_writeField_pos hr.1
      rw [writeRow, List.length_append]
      omega

/-- So there are bytes where such a row stands in front. -/
theorem isEmpty_writeRow_append (hr : RowFits fs cs) (hf : fs ≠ []) (rest : Bytes) :
    (writeRow fs cs ++ rest).isEmpty = false := by
  have := length_writeRow_pos hr hf
  rw [List.isEmpty_eq_false_iff, ← List.length_pos_iff, List.length_append]
  omega

/-! ## What is encoded -/

/-- The bytes of rows, back to back. -/
def writeRows (s : Schema) (rows : List Record) : Bytes :=
  rows.flatMap fun r => writeRow s.fields r.cells

/-- What is found in a row for a field is its cell there, when it is null or
of the type of the field. -/
theorem cellFor_eq_ok {r : Record} :
    r.cellFor index f = .ok c ↔
      r.cells[index]? = some c ∧ (c = .null ∨ c.type? = some f.type) := by
  unfold Record.cellFor
  cases hc : r.cells[index]? with
  | none => simp
  | some c' =>
    by_cases hnull : c' = .null
    · subst hnull
      simp only [Except.ok.injEq, Option.some.injEq]
      constructor
      · rintro rfl
        exact ⟨rfl, .inl rfl⟩
      · exact And.left
    · by_cases ht : c'.type? = some f.type
      · simp only [ht, if_true, Option.some.injEq]
        constructor
        · intro h
          cases c' <;> first | exact absurd rfl hnull | (cases h; exact ⟨rfl, .inr ht⟩)
        · rintro ⟨rfl, -⟩
          cases c' <;> first | exact absurd rfl hnull | rfl
      · simp only [ht, if_false, Option.some.injEq]
        constructor
        · intro h
          cases c' <;> first | exact absurd rfl hnull | cases h
        · rintro ⟨rfl, rfl | h⟩
          · exact absurd rfl hnull
          · exact absurd h ht

/-- The fields of a row are encoded when a cell fits each of them. -/
theorem encodeFields_eq_ok {r : Record} :
    encodeFields r index fs = .ok bs ↔
      RowFits fs (r.cells.drop index) ∧ bs = writeRow fs (r.cells.drop index) := by
  induction fs generalizing index bs with
  | nil => simp [encodeFields, RowFits, writeRow, eq_comm]
  | cons f fs ih =>
    simp only [encodeFields, bind, Except.bind]
    cases hcell : r.cellFor index f with
    | error e =>
      -- no cell, or one of another type
      refine iff_of_false (by simp) ?_
      rintro ⟨hr, -⟩
      cases hd : r.cells.drop index with
      | nil =>
        rw [hd] at hr
        exact hr
      | cons c cs =>
        rw [hd] at hr
        have hget : r.cells[index]? = some c := by
          have hdrop : (r.cells.drop index)[0]? = r.cells[index + 0]? := List.getElem?_drop
          rw [hd] at hdrop
          simpa using hdrop.symm
        have hok := cellFor_eq_ok.2 ⟨hget, hr.1.symm.imp And.left id⟩
        rw [hcell] at hok
        cases hok
    | ok c =>
      obtain ⟨hget, hc⟩ := cellFor_eq_ok.1 hcell
      obtain ⟨hlt, rfl⟩ := List.getElem?_eq_some_iff.1 hget
      rw [List.drop_eq_getElem_cons hlt]
      generalize r.cells[index] = c at *
      simp only [RowFits, writeRow]
      by_cases hnull : c.isNull = true ∧ (!f.nullable) = true
      · -- null in a field that is required
        refine iff_of_false (by simp [hnull]) ?_
        rintro ⟨⟨hfit | ⟨-, hn⟩, -⟩, -⟩
        · cases c <;> first | cases hfit | cases hnull.1
        · simp [hn] at hnull
      · have hfit : c.Fits f := by
          rcases hc with rfl | hc
          · exact .inr ⟨rfl, by simpa [Cell.isNull] using hnull⟩
          · exact .inl hc
        rw [if_neg hnull]
        cases hrest : encodeFields r (index + 1) fs with
        | error e =>
          refine iff_of_false (by simp) ?_
          rintro ⟨⟨-, hr⟩, -⟩
          have hok := ih.2 ⟨hr, rfl⟩
          rw [hrest] at hok
          cases hok
        | ok rest =>
          obtain ⟨hr, rfl⟩ := ih.1 hrest
          simp [pure, Except.pure, hfit, hr, eq_comm]

/-- Rows are encoded when each has a cell for every field, which fits. -/
theorem encodeRows_eq_ok :
    encodeRows s rows = .ok bs ↔
      (∀ r ∈ rows, RowFits s.fields r.cells) ∧ bs = writeRows s rows := by
  induction rows generalizing bs with
  | nil => simp [encodeRows, writeRows, eq_comm]
  | cons r rows ih =>
    simp only [encodeRows, bind, Except.bind]
    cases hrow : encodeFields r 0 s.fields with
    | error e =>
      refine iff_of_false (by simp) ?_
      rintro ⟨hr, -⟩
      have hok : encodeFields r 0 s.fields = .ok (writeRow s.fields r.cells) :=
        encodeFields_eq_ok.2 ⟨hr r List.mem_cons_self, rfl⟩
      rw [hrow] at hok
      cases hok
    | ok row =>
      obtain ⟨hr, rfl⟩ := encodeFields_eq_ok.1 hrow
      cases hrest : encodeRows s rows with
      | error e =>
        refine iff_of_false (by simp) ?_
        rintro ⟨hr, -⟩
        have := ih.2 ⟨fun r h => hr r (List.mem_cons_of_mem _ h), rfl⟩
        rw [hrest] at this
        cases this
      | ok rest =>
        obtain ⟨hrs, rfl⟩ := ih.1 hrest
        have hall : ∀ r' ∈ r :: rows, RowFits s.fields r'.cells := by
          intro r' hr'
          rcases List.mem_cons.1 hr' with rfl | hr'
          · simpa using hr
          · exact hrs r' hr'
        constructor
        · exact fun h => ⟨hall, (Except.ok.inj h).symm⟩
        · rintro ⟨-, rfl⟩
          rfl

/-! ## From rows to records -/

/-- A cell of the type of a field is taken as it is. -/
theorem convert_of_type (h : c.type? = some f.type) : convert f c = .ok c := by
  cases f with
  | mk name type nullable =>
    cases c <;> cases h <;> rfl

theorem convert_null : convert f .null = .ok c ↔ f.nullable = true ∧ c = .null := by
  cases f with
  | mk name type nullable =>
    cases nullable <;> cases type <;> simp [convert, eq_comm]

/-- **What is made of a row whose cells are null or of their types**: the
record of its cells, unless one of them is null where it must not be. -/
theorem project_eq_ok {columns : List (Field × Nat)} {taken : List Nat}
    (hn : (columns.map Prod.snd).Nodup) (hd : taken.Disjoint (columns.map Prod.snd))
    (hc : ∀ q ∈ columns, ∃ c, row[q.2]? = some c ∧ (c = .null ∨ c.type? = some q.1.type)) :
    project row taken columns = .ok cs ↔
      (∀ q ∈ columns, row[q.2]? = some .null → q.1.nullable = true) ∧
        cs = columns.filterMap fun q => row[q.2]? := by
  induction columns generalizing taken cs with
  | nil =>
    constructor
    · intro h
      cases h
      simp
    · rintro ⟨-, rfl⟩
      rfl
  | cons q columns ih =>
    obtain ⟨f, i⟩ := q
    rw [List.map_cons, List.nodup_cons] at hn
    rw [List.map_cons, List.disjoint_cons_right] at hd
    obtain ⟨c, hget, hcell⟩ := hc _ List.mem_cons_self
    dsimp only at hget hcell
    have hd' : (i :: taken).Disjoint (columns.map Prod.snd) :=
      List.disjoint_cons_left.2 ⟨hn.1, hd.2⟩
    have ih : ∀ cs, project row (i :: taken) columns = .ok cs ↔ _ := fun cs =>
      ih hn.2 hd' fun q hq => hc q (List.mem_cons_of_mem _ hq)
    have hmap : ((f, i) :: columns).filterMap (fun q => row[q.2]?) =
        c :: columns.filterMap fun q => row[q.2]? := List.filterMap_cons_some hget
    rw [project, hget, hmap, List.forall_mem_cons]
    dsimp only
    rw [if_neg hd.1, hget]
    -- null and other cells come out as they are, null only where it may be
    have hconv : ∀ c', convert f c = .ok c' ↔ (c = .null → f.nullable = true) ∧ c' = c := by
      intro c'
      rcases hcell with rfl | hcell
      · rw [convert_null]
        simp
      · rw [convert_of_type hcell, Except.ok.injEq, eq_comm, iff_and_self]
        rintro - rfl
        cases hcell
    cases hcv : convert f c with
    | error e =>
      refine iff_of_false (by simp) ?_
      rintro ⟨⟨h, -⟩, -⟩
      have := (hconv c).2 ⟨fun hnull => h (by rw [hnull]), rfl⟩
      rw [hcv] at this
      cases this
    | ok c' =>
      obtain ⟨hnull, rfl⟩ := (hconv c').1 hcv
      cases hrest : project row (i :: taken) columns with
      | error e =>
        refine iff_of_false (by simp [Except.map]) ?_
        rintro ⟨⟨-, h⟩, -⟩
        have := (ih _).2 ⟨h, rfl⟩
        rw [hrest] at this
        cases this
      | ok cs' =>
        obtain ⟨h, rfl⟩ := (ih cs').1 hrest
        simp only [Except.map, Except.ok.injEq, Option.some.injEq]
        constructor
        · rintro rfl
          exact ⟨⟨hnull, h⟩, rfl⟩
        · rintro ⟨-, rfl⟩
          rfl

theorem RowFits.getElem? {i : Nat} (h : RowFits fs cs) (hf : fs[i]? = some f) :
    ∃ c, cs[i]? = some c ∧ c.Fits f := by
  induction fs generalizing cs i with
  | nil => simp at hf
  | cons g fs ih =>
    cases cs with
    | nil => exact absurd h id
    | cons c cs =>
      cases i with
      | zero =>
        obtain rfl : g = f := by simpa using hf
        exact ⟨c, rfl, h.1⟩
      | succ i => simpa using ih h.2 (by simpa using hf)

theorem rowFits_of_getElem?
    (h : ∀ (i : Nat) (f : Field), fs[i]? = some f → ∃ c, cs[i]? = some c ∧ c.Fits f) :
    RowFits fs cs := by
  induction fs generalizing cs with
  | nil => trivial
  | cons f fs ih =>
    obtain ⟨c, hc, hfits⟩ := h 0 f rfl
    cases cs with
    | nil => cases hc
    | cons c' cs =>
      cases hc
      exact ⟨hfits, ih fun i g hg => h (i + 1) g hg⟩

/-- A row that fits makes a record. -/
theorem project_of_rowFits (hl : Layout.resolve selected s = .ok l) (hr : RowFits s.fields cs) :
    project (cs.take s.fields.length) [] l.columns = .ok (l.pick cs).cells := by
  obtain ⟨hn, hget⟩ := Layout.columns_of_resolve hl
  -- the layout looks at nothing behind the cells that are written
  have htake : ∀ q ∈ l.columns, (cs.take s.fields.length)[q.2]? = cs[q.2]? := fun q hq =>
    List.getElem?_take_of_lt (List.getElem?_eq_some_iff.1 (hget q hq)).1
  have hfits : ∀ q ∈ l.columns, ∃ c, cs[q.2]? = some c ∧ c.Fits q.1 := fun q hq =>
    hr.getElem? (hget q hq)
  refine (project_eq_ok hn (by simp) fun q hq => ?_).2 ⟨fun q hq h => ?_, ?_⟩
  · obtain ⟨c, hc, hfit⟩ := hfits q hq
    exact ⟨c, by rw [htake q hq, hc], hfit.symm.imp And.left id⟩
  · obtain ⟨c, hc, hfit⟩ := hfits q hq
    rw [htake q hq, hc] at h
    obtain rfl := Option.some.inj h
    rcases hfit with hfit | ⟨-, hnull⟩
    · cases hfit
    · exact hnull
  · exact List.filterMap_congr fun q hq => (htake q hq).symm

/-- Rows that together are no longer than a vector have no cell that is. -/
theorem rowHolds_of_length (h : (writeRows s rows).length ≤ vectorLimit) :
    ∀ r ∈ rows, RowHolds s.fields r.cells := by
  intro r hr
  obtain ⟨front, back, rfl⟩ := List.append_of_mem hr
  simp only [writeRows, List.flatMap_append, List.flatMap_cons, List.length_append] at h
  exact .of_length (by omega)

theorem writeRows_append (front back : List Record) :
    writeRows s (front ++ back) = writeRows s front ++ writeRows s back :=
  List.flatMap_append

/-- **A row tells where it ends**: the reader takes the rows that are
written, makes their records and goes on behind them as if it had started
there. -/
theorem readRows_append (hl : Layout.resolve selected s = .ok l)
    (hr : ∀ r ∈ rows, RowFits s.fields r.cells) (hlen : ∀ r ∈ rows, RowHolds s.fields r.cells)
    (hread : ∀ r ∈ rows, isReadableRow s.fields r.cells = true) :
    readRows s l declared (rows.length + count) index (writeRows s rows ++ rest) =
      (readRows s l declared count (rows.length + index) rest).map
        (rows.map (fun r => l.pick r.cells) ++ ·) := by
  induction rows generalizing index with
  | nil =>
    rw [List.length_nil, Nat.zero_add, Nat.zero_add]
    change readRows s l declared count index rest = _
    cases readRows s l declared count index rest <;> rfl
  | cons r rows ih =>
    obtain ⟨hfit, hr⟩ := List.forall_mem_cons.1 hr
    obtain ⟨hholds, hlen⟩ := List.forall_mem_cons.1 hlen
    obtain ⟨hfirst, hread⟩ := List.forall_mem_cons.1 hread
    have hcons : writeRows s (r :: rows) ++ rest =
        writeRow s.fields r.cells ++ (writeRows s rows ++ rest) := by
      simp [writeRows]
    rw [hcons, List.length_cons, Nat.add_right_comm, readRows,
      isEmpty_writeRow_append hfit (Layout.fields_ne_nil_of_resolve hl),
      readRow_writeRow hfit hholds, if_pos hfirst]
    simp only [Bool.false_eq_true, if_false, project_of_rowFits hl hfit]
    rw [ih hr hlen hread, show rows.length + (index + 1) = rows.length + 1 + index by omega]
    cases readRows s l declared count (rows.length + 1 + index) rest <;> rfl

/-- Behind such rows it stops at one that cannot be read, and tells the
bytes from where that one starts. -/
theorem readRows_append_unreadable {front back : List Record} {r : Record}
    (hl : Layout.resolve selected s = .ok l)
    (hr : ∀ r' ∈ front ++ r :: back, RowFits s.fields r'.cells)
    (hlen : ∀ r' ∈ front ++ r :: back, RowHolds s.fields r'.cells)
    (hread : ∀ r' ∈ front, isReadableRow s.fields r'.cells = true)
    (hfault : isReadableRow s.fields r.cells = false) :
    readRows s l declared (front.length + (count + 1)) index
        (writeRows s (front ++ r :: back) ++ rest) =
      .error (.row (front.length + index) .malformed,
        (writeRows s (r :: back) ++ rest).length) := by
  obtain ⟨hfront, hback⟩ := List.forall_mem_append.1 hr
  obtain ⟨hholds, hholds'⟩ := List.forall_mem_append.1 hlen
  have hfit := hback r List.mem_cons_self
  have hcons : writeRows s (r :: back) ++ rest =
      writeRow s.fields r.cells ++ (writeRows s back ++ rest) := by
    simp [writeRows]
  rw [writeRows_append, List.append_assoc, hcons, readRows_append hl hfront hholds hread, readRows,
    isEmpty_writeRow_append hfit (Layout.fields_ne_nil_of_resolve hl),
    readRow_writeRow hfit (hholds' r List.mem_cons_self), hfault]
  rfl

/-- **Rows read back**, as long as all of them can, and the reader goes on
with what stands behind them. -/
theorem readRows_writeRows_append (hl : Layout.resolve selected s = .ok l)
    (hr : ∀ r ∈ rows, RowFits s.fields r.cells)
    (hlen : ∀ r ∈ rows, RowHolds s.fields r.cells) :
    readRows s l declared (rows.length + count) index (writeRows s rows ++ rest) = .ok xs ↔
      (∀ r ∈ rows, isReadableRow s.fields r.cells = true) ∧
        ∃ ys, readRows s l declared count (index + rows.length) rest = .ok ys ∧
          xs = rows.map (fun r => l.pick r.cells) ++ ys := by
  by_cases hread : ∀ r ∈ rows, isReadableRow s.fields r.cells = true
  · rw [readRows_append hl hr hlen hread, Nat.add_comm index, and_iff_right hread]
    cases readRows s l declared count (rows.length + index) rest <;>
      simp [Except.map, eq_comm]
  · -- the reader stops at the first row that cannot be read
    obtain ⟨r, hfind⟩ : ∃ r, rows.find? (fun r => !isReadableRow s.fields r.cells) = some r := by
      rw [← Option.isSome_iff_exists, List.find?_isSome]
      simpa using hread
    obtain ⟨hfault, front, back, rfl, hfront⟩ := List.find?_eq_some_iff_append.1 hfind
    have hcount : (front ++ r :: back).length + count =
        front.length + (back.length + count + 1) := by
      rw [List.length_append, List.length_cons]
      omega
    rw [hcount, readRows_append_unreadable hl hr hlen (by simpa using hfront)
      (by simpa using hfault)]
    exact iff_of_false nofun fun h => hread h.1

end Intake.Rows
