import Intake.Columns.FlatStream
import Intake.Proofs.Columns.Cells
import Intake.Proofs.Layouts
import Intake.Sample
/-!
# Decoded records conform to the layout

Over a schema and a layout that was resolved over it, a codec answers for
any bytes whatsoever either with an error or with records that have, field
by field, a cell that fits (`Codec.conforms_of_decode`). A reader of rows
looks up a field by its position, and would panic if the row were
shorter. The positions of a resolved layout are those of the schema, and a
row that was read has a cell for each of its fields
(`Rows.length_of_readRow`).
-/

namespace Intake

/-- A field is looked up at a position that the row does not have: the
reader then panics instead of telling an error. -/
def DecodeCause.isPanic : DecodeCause → Bool
  | .row _ (.noSuchColumn _) => true
  | _ => false

/-- What fails does so with an error, not with a panic. -/
def NoPanic {α : Type} (x : Except DecodeError α) : Prop :=
  ∀ e, x = .error e → e.cause.isPanic = false

section

variable {α β : Type} {x : Except DecodeError α} {e : DecodeError}

theorem noPanic_ok {a : α} : NoPanic (.ok a) := nofun

theorem noPanic_error (h : e.cause.isPanic = false) : NoPanic (.error e : Except _ α) := by
  rintro _ ⟨⟩
  exact h

theorem NoPanic.map {f : α → β} (h : NoPanic x) : NoPanic (x.map f) := fun e he =>
  h e (eq_error_of_map he)

end

variable {s : Schema} {l : Layout}

/-! ## Rows -/

namespace Rows

variable {f : Field} {fs : List Field} {c d : Cell} {row cells : List Cell} {bs rest : Bytes}
variable {columns : List (Field × Nat)} {taken : List Nat}

/-- A row that is read has a cell for each of its fields. -/
theorem length_of_readRow (h : readRow fs bs = some (row, rest)) : row.length = fs.length := by
  induction fs generalizing bs row with
  | nil =>
    cases h
    rfl
  | cons f fs ih =>
    rw [readRow] at h
    split at h
    · cases h
    rename_i c bs' _
    obtain ⟨⟨cs, bs''⟩, hrest, heq⟩ := Option.map_eq_some_iff.1 h
    cases heq
    rw [List.length_cons, List.length_cons, ih hrest]

/-- A value that is taken for a field fits it. -/
theorem fits_of_convert (h : convert f c = .ok d) : d.Fits f := by
  unfold convert at h
  split at h
  · split at h
    · rename_i hnullable
      cases h
      exact .inr ⟨rfl, hnullable⟩
    · cases h
  · rename_i htype
    cases h
    exact .inl (by rw [htype]; rfl)
  · split at h
    · rename_i htype
      cases h
      exact .inl htype
    · cases h

theorem forall₂_of_project (h : project row taken columns = .ok cells) :
    List.Forall₂ Cell.Fits cells (columns.map Prod.fst) := by
  induction columns generalizing taken cells with
  | nil =>
    cases h
    exact .nil
  | cons q columns ih =>
    rw [project] at h
    split at h
    · cases h
    split at h
    · cases h
    split at h
    · cases h
    rename_i d hd
    obtain ⟨rest, hrest, rfl⟩ := exists_of_map_eq_ok h
    exact .cons (fits_of_convert hd) (ih hrest)

/-- Taking a value for a field looks nothing up. -/
theorem convert_ne_noSuchColumn {i : Nat} : convert f c ≠ .error (.noSuchColumn i) := by
  unfold convert
  split
  · split <;> simp
  · simp
  · split <;> simp

/-- Fields at positions of the row are found. -/
theorem project_ne_noSuchColumn (hi : ∀ q ∈ columns, q.2 < row.length) {i : Nat} :
    project row taken columns ≠ .error (.noSuchColumn i) := by
  induction columns generalizing taken with
  | nil => simp [project]
  | cons q columns ih =>
    rw [List.forall_mem_cons] at hi
    rw [project, List.getElem?_eq_getElem hi.1]
    dsimp only
    split
    · simp
    split
    · rename_i e he
      rintro ⟨⟩
      exact convert_ne_noSuchColumn he
    · exact fun h => ih hi.2 (eq_error_of_map h)

variable {declared : UInt64} {count index : Nat} {records : List Record}

/-- The records of rows have a cell that fits for every column of the
layout. -/
theorem forall₂_of_readRows (h : readRows s l declared count index bs = .ok records) :
    ∀ r ∈ records, List.Forall₂ Cell.Fits r.cells (l.columns.map Prod.fst) := by
  induction count generalizing index bs records with
  | zero =>
    rw [readRows] at h
    split at h
    · cases h
      exact List.forall_mem_nil _
    · cases h
  | succ count ih =>
    rw [readRows] at h
    split at h
    · cases h
    split at h
    · cases h
    split at h
    · cases h
    rename_i cells hcells
    obtain ⟨rest, hrest, rfl⟩ := exists_of_map_eq_ok h
    exact List.forall_mem_cons.2 ⟨forall₂_of_project hcells, ih hrest⟩

/-- Reading rows does not panic where the layout keeps to the fields of the
schema. -/
theorem noPanic_decode (hi : ∀ q ∈ l.columns, q.2 < s.size) {data : Bytes} :
    NoPanic (decode s l declared data) := by
  suffices h : ∀ count index bs cause left,
      readRows s l declared count index bs = .error (cause, left) → cause.isPanic = false by
    intro e he
    rw [decode] at he
    cases hr : readRows s l declared declared.toNat 0 data with
    | error p =>
      rw [hr] at he
      cases he
      exact h _ _ _ _ _ hr
    | ok records =>
      rw [hr] at he
      cases he
  intro count
  induction count with
  | zero =>
    intro index bs cause left h
    rw [readRows] at h
    split at h <;> cases h
    rfl
  | succ count ih =>
    intro index bs cause left h
    rw [readRows] at h
    split at h
    · cases h
      rfl
    split at h
    · cases h
      rfl
    rename_i row rest hrow
    split at h
    · rename_i fault hfault
      cases h
      have hlen : row.length = s.size := length_of_readRow hrow
      cases fault with
      | noSuchColumn i => exact absurd hfault (project_ne_noSuchColumn (by rwa [hlen]))
      | _ => rfl
    · exact ih _ _ _ _ (eq_error_of_map h)

end Rows

/-! ## Columns -/

namespace Columns

variable {data : Bytes}

theorem noPanic_readLength {pos : Nat} : NoPanic (readLength pos data) := by
  unfold readLength
  split
  · exact noPanic_error rfl
  split
  · split
    · exact noPanic_error rfl
    · exact noPanic_ok
  · exact noPanic_ok

theorem isPanic_of_check {index body : Nat} {header : Header} {cause : DecodeCause}
    (h : header.check index body = .error cause) : cause.isPanic = false := by
  unfold Header.check at h
  split at h
  · cases h
  · cases h
  · split at h
    · cases h
      rfl
    · split at h <;> cases h
      rfl
  · cases h
    rfl

theorem noPanic_readFrame {index start pos size : Nat} :
    NoPanic (readFrame index start pos size data) := by
  unfold readFrame
  split
  · exact noPanic_error rfl
  split
  · exact noPanic_error rfl
  dsimp only
  split
  · exact noPanic_error rfl
  split
  · exact noPanic_error (isPanic_of_check ‹_›)
  · exact noPanic_ok

theorem noPanic_framesFrom (index pos : Nat) (data : Bytes) :
    NoPanic (framesFrom index pos data) := by
  fun_induction framesFrom index pos data with
  | case1 => exact noPanic_ok
  | case2 index pos data _ e h => exact noPanic_error (noPanic_readLength e h)
  | case3 => exact noPanic_ok
  | case4 => exact noPanic_error rfl
  | case5 index pos data _ size next rest _ _ e h => exact noPanic_error (noPanic_readFrame e h)
  | case6 index pos data _ size next rest _ _ frame rest' _ ih => exact ih.map

theorem isPanic_of_rowOf {index : Nat} {bound : List (Field × List Cell)} {cause : DecodeCause}
    (h : rowOf index bound = .error cause) : cause.isPanic = false := by
  induction bound with
  | nil => cases h
  | cons b bound ih =>
    rw [rowOf] at h
    split at h
    · cases h
      rfl
    · exact ih (eq_error_of_map h)

theorem isPanic_of_rowsOf {count index : Nat} {bound : List (Field × List Cell)}
    {cause : DecodeCause} (h : rowsOf count index bound = .error cause) :
    cause.isPanic = false := by
  induction count generalizing index bound with
  | zero => cases h
  | succ count ih =>
    rw [rowsOf] at h
    split at h
    · cases h
      exact isPanic_of_rowOf ‹_›
    · exact ih (eq_error_of_map h)

theorem isPanic_of_bindColumns {columns : List Column} {wanted : List (Field × Nat)}
    {cause : DecodeCause} (h : bindColumns columns wanted = .error (.refused cause)) :
    cause.isPanic = false := by
  induction wanted with
  | nil => cases h
  | cons q wanted ih =>
    rw [bindColumns] at h
    split at h
    · rename_i e he
      cases h
      unfold bindColumn at he
      split at he
      · cases he
      split at he <;> cases he
      rfl
    · exact ih (eq_error_of_map h)

theorem isPanic_of_blockRecords {columns : List Column} {count : Nat} {cause : DecodeCause}
    (h : blockRecords l count columns = .error (.refused cause)) : cause.isPanic = false := by
  unfold blockRecords at h
  split at h
  · cases h
    exact isPanic_of_bindColumns ‹_›
  · rename_i bound _
    cases hrows : rowsOf count 0 bound with
    | error cause' =>
      rw [hrows] at h
      cases h
      exact isPanic_of_rowsOf hrows
    | ok rows =>
      rw [hrows] at h
      cases h

theorem noPanic_checkNames {names : List String} {fields : List ColumnField} :
    NoPanic (checkNames names fields) := by
  unfold checkNames
  dsimp only
  split
  · exact noPanic_ok
  · exact noPanic_error rfl

theorem noPanic_check {names : List String} (seen : Seen) : NoPanic (seen.check names) := by
  cases seen with
  | nothing => exact noPanic_ok
  | unchecked fields => exact noPanic_checkNames.map
  | checked fields => exact noPanic_ok

theorem noPanic_readFrames {names : List String} {total : Nat} {ended : Bool} {fs : List Frame}
    {seen : Seen} {block began : Nat} :
    NoPanic (readFrames names l total ended fs seen block began) := by
  induction fs generalizing seen block began with
  | nil =>
    rw [readFrames]
    split
    · exact noPanic_error (noPanic_check seen _ ‹_›)
    · exact noPanic_error rfl
    · exact noPanic_ok
  | cons f fs ih =>
    unfold readFrames
    split
    · split
      · exact noPanic_error (noPanic_check seen _ ‹_›)
      · exact noPanic_error rfl
    split
    · split
      · exact noPanic_error rfl
      · exact noPanic_error rfl
      · exact ih
    · split
      · exact noPanic_error rfl
      split
      · exact noPanic_error rfl
      · exact noPanic_error rfl
      split
      · exact noPanic_error (noPanic_check seen _ ‹_›)
      split
      · exact noPanic_error rfl
      · exact noPanic_error (isPanic_of_blockRecords ‹_›)
      · exact ih.map
    · exact ih

/-- Reading columns does not panic. -/
theorem noPanic_decode : NoPanic (decode s l data) := by
  unfold decode
  split
  · exact noPanic_error rfl
  split
  · exact noPanic_error (noPanic_framesFrom 0 0 data _ ‹_›)
  · exact noPanic_readFrames

end Columns

/-! ## Batches -/

namespace Codec

variable {selected : List String} {format : WireFormat} {codec : Codec}

/-- **Decoded records conform to the layout.** Over a layout of the schema
of a codec, a batch of any bytes decodes to an error, never a panic, or to
as many records as it declares, each with a cell that fits for every field of
the layout; columns only if the stream tells the names of the schema. -/
theorem conforms_of_decode (hl : Layout.resolve selected s = .ok l)
    (hc : forFormat format s = .ok codec) (b : Batch) :
    NoPanic (codec.decode l b) ∧
      ∀ records, codec.decode l b = .ok records →
        b.format = codec.format ∧ records.length = b.rowCount.toNat ∧
          (∀ r ∈ records, List.Forall₂ Cell.Fits r.cells l.fields) ∧
          (codec.format = .arrow → Columns.embeddedNames b.data = [s.names]) := by
  obtain rfl := eq_of_forFormat hc
  rw [← Layout.fst_columns_of_resolve hl]
  cases format with
  | arrow =>
    constructor
    · unfold decode
      split
      · exact noPanic_error rfl
      dsimp only
      split
      · exact noPanic_error (Columns.noPanic_decode _ ‹_›)
      split
      · exact noPanic_ok
      · exact noPanic_error rfl
    · intro records h
      obtain ⟨hformat, hdecode, hlen⟩ := decode_arrow_eq_ok.1 h
      obtain ⟨hfits, hnames⟩ := Columns.records_of_decode hdecode
      exact ⟨hformat, hlen, hfits, fun _ => hnames⟩
  | avro =>
    constructor
    · have hi : ∀ q ∈ l.columns, q.2 < s.size := fun q hq =>
        Layout.lt_size_of_resolve hl q.2 (Layout.snd_columns_of_resolve hl ▸ List.mem_map_of_mem hq)
      unfold decode
      split
      · exact noPanic_error rfl
      · exact Rows.noPanic_decode hi
    · intro records h
      obtain ⟨hformat, hread⟩ := decode_avro_eq_ok.1 h
      exact ⟨hformat, length_of_decode h, Rows.forall₂_of_readRows hread, nofun⟩

end Codec

namespace Sample

/-- The name in front of the number. -/
def nameFirst : Layout :=
  ⟨[⟨"name", .string, true⟩, ⟨"id", .int64, false⟩], [1, 0], 2⟩

/-- A number without a name and one with a name, as columns. -/
def namedColumns : Batch :=
  ((Batch.encode Columns.flatWriter .arrow named
    [⟨[.int64 5, .null]⟩, ⟨[.int64 6, .string "ab"]⟩]).toOption).getD default

end Sample

/-- Columns come out in the order asked for, and fit it. -/
theorem Codec.decode_namedColumns :
    Codec.decode ⟨.arrow, Sample.named⟩ Sample.nameFirst Sample.namedColumns =
        .ok [⟨[.null, .int64 5]⟩, ⟨[.string "ab", .int64 6]⟩] ∧
      List.Forall₂ Cell.Fits [.null, .int64 5] Sample.nameFirst.fields ∧
      Columns.embeddedNames Sample.namedColumns.data = [["id", "name"]] := by
  have hl : Layout.resolve ["name", "id"] Sample.named = .ok Sample.nameFirst := by
    decide +kernel
  have hc : forFormat .arrow Sample.named = .ok ⟨.arrow, Sample.named⟩ := rfl
  have hdecode : Codec.decode ⟨.arrow, Sample.named⟩ Sample.nameFirst Sample.namedColumns =
      .ok [⟨[.null, .int64 5]⟩, ⟨[.string "ab", .int64 6]⟩] := by decide +kernel
  obtain ⟨-, -, hfits, hnames⟩ := (conforms_of_decode hl hc Sample.namedColumns).2 _ hdecode
  exact ⟨hdecode, hfits _ List.mem_cons_self, hnames rfl⟩

/-- A layout that was not resolved over the schema makes the reader of
rows panic. -/
example : ¬NoPanic (Codec.decode ⟨.avro, ⟨[⟨"id", .int64, false⟩]⟩⟩
    ⟨[⟨"name", .string, true⟩], [1], 1⟩ ⟨.avro, 1, [0]⟩) := by
  intro h
  exact absurd (h ⟨.row 0 (.noSuchColumn 1), some 0⟩ (by decide +kernel)) (by decide)

end Intake
