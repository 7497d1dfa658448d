import Intake.Columns.FlatStream
import Intake.Columns.Type
import Intake.Proofs.Columns.Tables
import Intake.Proofs.Columns.Writers
/-!
# Messages read back

The metadata that is written for a schema and for a block of columns is
read back as what it was written for (`Message.ofBytes?_schemaMetadata`,
`Message.ofBytes?_blockMetadata`). No message costs more bytes to read than
it has, and a schema two tables for each of its fields, so the limits on
reading never stop a message within the limits on writing.
-/

namespace Intake.Columns

open Flat

variable {buf : Array UInt8} {pos : Nat}

/-! ## Scalars -/

theorem reads_signed (width n : Nat) (hw : 8 % width = 0) :
    Reads buf (signed buf width) (Bytes.ofNat width n)
      (Bytes.signed width (Bytes.toNat (Bytes.ofNat width n))) 0 width := by
  intro pos hpos h
  have hdvd : width ∣ pos :=
    Nat.dvd_trans (Nat.dvd_of_mod_eq_zero hw) (Nat.dvd_of_mod_eq_zero hpos)
  exact yields_signed h (Bytes.length_ofNat ..) (Nat.mod_eq_zero_of_dvd hdvd)

/-- A number of bytes, rows or nulls is read back. -/
theorem reads_count {n : Nat} (h : n ≤ Rows.vectorLimit) :
    Reads buf (signed buf 8) (Bytes.ofNat 8 n) (n : Int) 0 8 := by
  rw [← signed_toNat_ofNat_eight h]
  exact reads_signed 8 n rfl

theorem reads_bool (b : Bool) : Reads buf (Flat.bool buf) [if b then 1 else 0] b 0 1 := by
  intro pos hpos h
  have hbyte := (yields_unsigned h rfl (Nat.mod_one pos)).map (fun n => n != 0)
  cases b <;> exact hbyte

/-! ## Columns of a schema -/

/-- A field as the schema of a stream describes it. -/
def fieldTable (f : Field) : FieldTable :=
  .mk (some f.name) f.nullable (typeTable f.type) none none []

theorem isWhole_typeSlots (t : FieldType) : ∀ slot ∈ (typeSlots t).2, slot.IsWhole := by
  cases t <;> simp [typeSlots, Slot.IsWhole]

theorem length_typeSlots_le (t : FieldType) : (typeSlots t).2.length ≤ 2 := by
  cases t <;> decide

/-- The numbers kept with a type are read back. -/
theorem yields_typeBody {t : FieldType} {table : Table} (h : table.Shows buf (typeSlots t).2) :
    Yields (readTypeBody buf (typeSlots t).1 table) (typeTable t) 0 9 := by
  cases t with
  | boolean => exact (yields_pure _).mono (Nat.le_refl 0) (by omega)
  | string => exact (yields_pure _).mono (Nat.le_refl 0) (by omega)
  | bytes => exact (yields_pure _).mono (Nat.le_refl 0) (by omega)
  | int64 =>
    have hbits := (h.get?_scalar (k := 0) rfl (reads_signed 4 64 rfl)).getD 0
    have hsign := (h.get?_scalar (k := 1) rfl (reads_bool true)).getD false
    refine Yields.mono (hbits.bind (hsign.bind (yields_pure _))) ?_ ?_ <;> omega
  | float64 =>
    have hprecision := (h.get?_scalar (k := 0) rfl (reads_signed 2 2 rfl)).getD 0
    refine Yields.mono (hprecision.bind (yields_pure _)) ?_ ?_ <;> omega
  | date =>
    have hunit := (h.get?_scalar (k := 0) rfl (reads_signed 2 0 rfl)).getD 1
    refine Yields.mono (hunit.bind (yields_pure _)) ?_ ?_ <;> omega
  | timestamp =>
    have hunit := (h.get?_scalar (k := 0) rfl (reads_signed 2 2 rfl)).getD 0
    have hzone : Yields (table.get? buf 6 (follow buf (text buf))) none 0 0 :=
      h.get?_beyond (k := 1) (Nat.le_refl 1)
    refine Yields.mono (hunit.bind (hzone.bind (yields_pure _))) ?_ ?_ <;> omega

/-- The type of a column is read back from its two slots. -/
theorem yields_type {t : FieldType} {table : Table} {slots : List Slot} {levels k : Nat}
    {absent : Reader TypeTable} (hbuf : buf.size < UInt32.size) (hlevels : 0 < levels)
    (h : table.Shows buf slots)
    (hcode : slots[k]? = some (.scalar (Bytes.ofNat 1 (typeSlots t).1)))
    (hvalue : slots[k + 1]? = some (.target (writeTable (typeSlots t).2))) :
    Yields (readType buf levels table (4 + 2 * k) absent) (typeTable t) 1 32 := by
  have hknown : 0 < (typeSlots t).1 ∧ (typeSlots t).1 < typeKinds := by cases t <;> decide
  have hmost := length_typeSlots_le t
  refine h.choice (m := 27) (Nat.lt_of_lt_of_le hknown.2 (by decide)) hcode hvalue ?_
  intro place hplace hpoints
  rw [if_pos hknown]
  have hbody : Reads buf (nested buf levels (readTypeBody buf (typeSlots t).1))
      (writeTable (typeSlots t).2) (typeTable t) 1 23 := by
    intro pos hpos h
    obtain ⟨table, htable, hshows⟩ := exists_yields_table hbuf (isWhole_typeSlots t)
      (Nat.le_trans hmost (by decide)) hpos h
    refine Yields.mono (htable.bind ((yields_require (decide_eq_true hlevels)).bind
      (yields_typeBody hshows))) ?_ ?_ <;> omega
  exact hpoints.yields (by omega) hbody

/-- The slots of a column of a schema. -/
def fieldSlots (f : Field) : List Slot :=
  [.target (writeText f.name), .scalar [if f.nullable then 1 else 0],
    .scalar (Bytes.ofNat 1 (typeSlots f.type).1), .target (writeTable (typeSlots f.type).2)]

theorem isWhole_fieldSlots (f : Field) : ∀ slot ∈ fieldSlots f, slot.IsWhole := by
  simp only [fieldSlots, List.forall_mem_cons, Slot.IsWhole]
  exact ⟨length_padded_mod _, Nat.le_of_ble_eq_true rfl, Nat.le_of_ble_eq_true rfl,
    length_writeTable_mod (isWhole_typeSlots _), List.forall_mem_nil _⟩

theorem writeField_eq (f : Field) : writeField f = writeTable (fieldSlots f) := rfl

/-- A field takes more bytes than reading it costs. -/
theorem length_writeField (f : Field) :
    77 + (Bytes.ofText f.name).length ≤ (writeField f).length := by
  have htext := length_writeText f.name
  have htype := length_writeTable (isWhole_typeSlots f.type)
  have hdirectory := length_directory (typeSlots f.type).2
  rw [writeField_eq, length_writeTable (isWhole_fieldSlots f), length_directory]
  simp only [fieldSlots, Slot.targets, List.length_append, List.length_cons, List.length_nil]
  omega

/-- **A column of a schema is read back.** -/
theorem reads_field {levels : Nat} (f : Field) (hbuf : buf.size < UInt32.size)
    (hlevels : 0 < levels) :
    Reads buf (readField buf (levels + 1)) (writeField f) (fieldTable f) 2
      (63 + (Bytes.ofText f.name).length) := by
  have hmost : (fieldSlots f).length ≤ mostSlots := Nat.le_of_ble_eq_true rfl
  have hslots : (fieldSlots f).length = 4 := rfl
  intro pos hpos h
  obtain ⟨t, htable, ht⟩ := exists_yields_table hbuf (isWhole_fieldSlots f) hmost hpos h
  have hname := ht.get?_target (k := 0) rfl (reads_text hbuf f.name)
  have hnullable := (ht.get?_scalar (k := 1) rfl (reads_bool f.nullable)).getD false
  have htype : Yields (readType buf levels t 8 (return .plain 0)) (typeTable f.type) 1 32 :=
    yields_type (k := 2) hbuf hlevels ht rfl rfl
  have hdictionary : Yields (t.get? buf 12 (follow buf (readDictionary buf levels))) none 0 0 :=
    ht.get?_beyond (k := 4) (Nat.le_refl 4)
  have hchildren : Yields (t.get? buf 14 (follow buf (each buf (readField buf levels)))) none 0 0 :=
    ht.get?_beyond (k := 5) (Nat.le_of_ble_eq_true rfl)
  have hnotes : Yields (readNotes buf levels t 16) [] 0 0 :=
    (ht.get?_beyond (k := 6) (Nat.le_of_ble_eq_true rfl)).getD []
  refine Yields.mono (htable.bind (hname.bind (hnullable.bind (htype.bind (hdictionary.bind
    (hchildren.bind (hnotes.bind (yields_pure _)))))))) ?_ ?_ <;> omega

/-! ## Headers -/

/-- The fields of a schema as the header of its message describes them. -/
def schemaTable (s : Schema) : SchemaTable := ⟨false, some (s.fields.map fieldTable)⟩

/-- The slots of the header of a schema. -/
def schemaSlots (s : Schema) : List Slot :=
  [.empty, .target (writeTables (s.fields.map writeField))]

theorem length_writeField_mod (f : Field) : (writeField f).length % 8 = 0 :=
  length_writeTable_mod (isWhole_fieldSlots f)

theorem isWhole_schemaSlots (s : Schema) : ∀ slot ∈ schemaSlots s, slot.IsWhole := by
  simp only [schemaSlots, List.forall_mem_cons, Slot.IsWhole]
  refine ⟨trivial, length_writeTables_mod ?_, List.forall_mem_nil _⟩
  exact List.forall_mem_map.2 fun f _ => length_writeField_mod f

/-- The table of a schema tells its fields. -/
theorem describes_schemaTable (s : Schema) : (Header.schema (schemaTable s)).Describes s := by
  rw [schemaTable, Header.Describes, List.forall₂_map_left_iff]
  exact List.forall₂_same.2 fun f _ => ⟨rfl, rfl, rfl, rfl, rfl⟩

/-- **A schema is read back.** -/
theorem reads_schema (s : Schema) (hbuf : buf.size < UInt32.size) :
    Reads buf (readSchema buf 63) (writeTable (schemaSlots s)) (schemaTable s)
      (1 + 2 * s.fields.length) (writeTable (schemaSlots s)).length := by
  have hfields : Reads buf (each buf (readField buf 62)) (writeTables (s.fields.map writeField))
      (s.fields.map fieldTable) (2 * s.fields.length)
      (writeTables (s.fields.map writeField)).length := by
    refine reads_each hbuf (fun f _ => length_writeField_mod f) fun f _ => ?_
    have hlen := length_writeField f
    exact ⟨63 + (Bytes.ofText f.name).length, by omega, reads_field f hbuf (by decide)⟩
  have hmost : (schemaSlots s).length ≤ mostSlots := Nat.le_of_ble_eq_true rfl
  have hslots : (schemaSlots s).length = 2 := rfl
  have hlen : 32 + (writeTables (s.fields.map writeField)).length
      ≤ (writeTable (schemaSlots s)).length := by
    rw [length_writeTable (isWhole_schemaSlots s), length_directory]
    simp only [schemaSlots, Slot.targets, List.length_append, List.length_cons, List.length_nil]
    omega
  intro pos hpos h
  obtain ⟨t, htable, ht⟩ := exists_yields_table hbuf (isWhole_schemaSlots s) hmost hpos h
  have hdeep : decide (0 < 63) = true := rfl
  have hendianness : Yields (t.getD buf 4 0 (signed buf 2)) 0 0 2 :=
    (ht.get?_empty (k := 0) rfl).getD 0
  have hcolumns := ht.get?_target (k := 1) rfl hfields
  have hnotes : Yields (readNotes buf 62 t 8) [] 0 0 :=
    (ht.get?_beyond (k := 2) (Nat.le_refl 2)).getD []
  have hfeatures : Yields (t.get? buf 10 (follow buf (integers buf 8))) none 0 0 :=
    ht.get?_beyond (k := 3) (Nat.le_of_ble_eq_true rfl)
  refine Yields.mono (htable.bind ((yields_require hdeep).bind (hendianness.bind (hcolumns.bind
    (hnotes.bind (hfeatures.bind (yields_pure _))))))) ?_ ?_ <;> omega

/-- Numbers that a header can tell. -/
def Tellable (ps : List (Nat × Nat)) : Prop :=
  ∀ p ∈ ps, p.1 ≤ Rows.vectorLimit ∧ p.2 ≤ Rows.vectorLimit

/-- The slots of the header of a block. -/
def blockSlots (rows : Nat) (nodes buffers : List (Nat × Nat)) : List Slot :=
  [.scalar (Bytes.ofNat 8 rows), .target (writePairs nodes), .target (writePairs buffers)]

theorem isWhole_blockSlots (rows : Nat) (nodes buffers : List (Nat × Nat)) :
    ∀ slot ∈ blockSlots rows nodes buffers, slot.IsWhole := by
  simp only [blockSlots, List.forall_mem_cons, Slot.IsWhole]
  exact ⟨Nat.le_of_eq (Bytes.length_ofNat ..), length_padded_mod _, length_padded_mod _,
    List.forall_mem_nil _⟩

/-- **The header of a block is read back.** -/
theorem reads_block {rows : Nat} {nodes buffers : List (Nat × Nat)} (hbuf : buf.size < UInt32.size)
    (hrows : rows ≤ Rows.vectorLimit) (hnodes : Tellable nodes) (hbuffers : Tellable buffers) :
    Reads buf (readBlock buf 63) (writeTable (blockSlots rows nodes buffers))
      ⟨rows, some (told nodes), some (told buffers), false, []⟩ 1
      (writeTable (blockSlots rows nodes buffers)).length := by
  have hmost : (blockSlots rows nodes buffers).length ≤ mostSlots := Nat.le_of_ble_eq_true rfl
  have hslots : (blockSlots rows nodes buffers).length = 3 := rfl
  have hlen : 64 + 16 * nodes.length + 16 * buffers.length
      ≤ (writeTable (blockSlots rows nodes buffers)).length := by
    rw [length_writeTable (isWhole_blockSlots rows nodes buffers), length_directory]
    simp only [blockSlots, Slot.targets, List.length_append, List.length_cons, List.length_nil]
    have hnodes := length_writePairs nodes
    have hbuffers := length_writePairs buffers
    omega
  intro pos hpos h
  obtain ⟨t, htable, ht⟩ :=
    exists_yields_table hbuf (isWhole_blockSlots rows nodes buffers) hmost hpos h
  have hdeep : decide (0 < 63) = true := rfl
  have hlength := (ht.get?_scalar (k := 0) rfl (reads_count hrows)).getD 0
  have hcolumns := ht.get?_target (k := 1) rfl (reads_pairs hbuf hnodes)
  have hplaces := ht.get?_target (k := 2) rfl (reads_pairs hbuf hbuffers)
  have hcompression : Yields (t.get? buf 10 (follow buf (nested buf 62 fun t => do
      let _ ← t.get? buf 4 (signed buf 1)
      let _ ← t.get? buf 6 (signed buf 1)))) none 0 0 := ht.get?_beyond (k := 3) (Nat.le_refl 3)
  have hvariadic : Yields (t.getD buf 12 [] (follow buf (integers buf 8))) [] 0 0 :=
    (ht.get?_beyond (k := 4) (Nat.le_of_ble_eq_true rfl)).getD []
  refine Yields.mono (htable.bind ((yields_require hdeep).bind (hlength.bind (hcolumns.bind
    (hplaces.bind (hcompression.bind (hvariadic.bind (yields_pure _)))))))) ?_ ?_ <;> omega

/-! ## Messages -/

/-- The slots of a message. -/
def messageSlots (code : Nat) (header : Bytes) (bodyLength : Nat) : List Slot :=
  [.scalar (Bytes.ofNat 2 version), .scalar (Bytes.ofNat 1 code), .target header,
    .scalar (Bytes.ofNat 8 bodyLength)]

variable {code bodyLength : Nat} {header : Bytes}

theorem isWhole_messageSlots (h : header.length % 8 = 0) :
    ∀ slot ∈ messageSlots code header bodyLength, slot.IsWhole := by
  simp only [messageSlots, List.forall_mem_cons, Slot.IsWhole, Bytes.length_ofNat]
  exact ⟨by decide, by decide, h, Nat.le_refl 8, List.forall_mem_nil _⟩

theorem writeMessage_eq (code : Nat) (header : Bytes) (bodyLength : Nat) :
    writeMessage code header bodyLength =
      Bytes.ofNat 8 8 ++ writeTable (messageSlots code header bodyLength) := rfl

theorem length_writeMessage_pos (code : Nat) (header : Bytes) (bodyLength : Nat) :
    0 < (writeMessage code header bodyLength).length := by
  rw [writeMessage_eq, List.length_append, Bytes.length_ofNat]
  omega

theorem length_writeMessage (h : header.length % 8 = 0) :
    (writeMessage code header bodyLength).length = 64 + header.length := by
  rw [writeMessage_eq, List.length_append, length_writeTable (isWhole_messageSlots h),
    length_directory, Bytes.length_ofNat]
  simp only [messageSlots, Slot.targets, List.length_append, List.length_cons, List.length_nil]
  omega

/-- The header of a message that tells a schema. -/
theorem yields_schemaHeader {t : Table} {table : SchemaTable} {c n : Nat}
    (ht : t.Shows buf (messageSlots 1 header bodyLength))
    (hr : Reads buf (readSchema buf 63) header table c n) :
    Yields (readHeader buf 63 t 6) (.schema table) c (9 + n) := by
  have hchoice : Yields (readHeader buf 63 t (4 + 2 * 1)) (.schema table) c (5 + (4 + n)) :=
    ht.choice (by decide) rfl rfl fun place hplace hpoints =>
      (hpoints.yields (by omega) hr).map Header.schema
  exact hchoice.mono (Nat.le_refl c) (by omega)

/-- The header of a message that tells a block. -/
theorem yields_blockHeader {t : Table} {table : BlockTable} {c n : Nat}
    (ht : t.Shows buf (messageSlots 3 header bodyLength))
    (hr : Reads buf (readBlock buf 63) header table c n) :
    Yields (readHeader buf 63 t 6) (.block table) c (9 + n) := by
  have hchoice : Yields (readHeader buf 63 t (4 + 2 * 1)) (.block table) c (5 + (4 + n)) :=
    ht.choice (by decide) rfl rfl fun place hplace hpoints =>
      (hpoints.yields (by omega) hr).map Header.block
  exact hchoice.mono (Nat.le_refl c) (by omega)

/-- **A message is read back**, if its header is for no more bytes than it
takes; nothing but the number of its tables can keep it from being read. -/
theorem ofBytes?_writeMessage {value : Header} {c : Nat} (hheader : header.length % 8 = 0)
    (hbody : bodyLength ≤ Rows.vectorLimit)
    (hlen : (writeMessage code header bodyLength).length ≤ metadataLimit)
    (hr : ∀ buf : Array UInt8, buf.size < UInt32.size → ∀ t : Table,
      t.Shows buf (messageSlots code header bodyLength) →
        Yields (readHeader buf 63 t 6) value c (9 + header.length)) :
    (1 + c ≤ Budget.start.tables → Message.ofBytes? (writeMessage code header bodyLength) =
      some ⟨version, value, bodyLength⟩) ∧
    ∀ m, Message.ofBytes? (writeMessage code header bodyLength) = some m →
      m = ⟨version, value, bodyLength⟩ := by
  have hmost : (messageSlots code header bodyLength).length ≤ mostSlots :=
    Nat.le_of_ble_eq_true rfl
  have hslots : (messageSlots code header bodyLength).length = 4 := rfl
  have hsize : (writeMessage code header bodyLength).length = 64 + header.length :=
    length_writeMessage hheader
  generalize hbuf : (writeMessage code header bodyLength).toArray = buf
  have hlt : buf.size < UInt32.size := by
    rw [← hbuf, List.size_toArray]
    exact Nat.lt_of_le_of_lt hlen (by decide)
  have hlies : Lies buf 0 (writeMessage code header bodyLength) := hbuf ▸ lies_toArray _
  rw [writeMessage_eq, lies_append, Bytes.length_ofNat] at hlies
  obtain ⟨t, htable, ht⟩ := exists_yields_table hlt (isWhole_messageSlots hheader) hmost rfl hlies.2
  have hroot := yields_unsigned (lies_distance hlies.1) (Bytes.length_ofNat ..) rfl
  have hversion := (ht.get?_scalar (k := 0) rfl (reads_signed 2 version rfl)).getD 0
  have hvalue := hr buf hlt t ht
  have hlength := (ht.get?_scalar (k := 3) rfl (reads_count hbody)).getD 0
  have hnotes : Yields (readNotes buf 63 t 12) [] 0 0 :=
    (ht.get?_beyond (k := 4) (Nat.le_refl 4)).getD []
  have hdeep : decide (0 < deepest) = true := rfl
  have hmessage : Yields (follow buf (readMessage buf) 0) ⟨version, value, bodyLength⟩ (1 + c)
      (writeMessage code header bodyLength).length := by
    refine Yields.mono (hroot.bind (htable.bind ((yields_require hdeep).bind (hversion.bind
      (hvalue.bind (hlength.bind (hnotes.bind (yields_pure _)))))))) ?_ ?_ <;> omega
  constructor
  · -- a message is shorter than the bytes that may be read of it
    intro hc
    obtain ⟨b, hread, -⟩ := hmessage.1 Budget.start hc
      (Nat.le_trans hlen (Nat.le_of_ble_eq_true rfl))
    simp only [Message.ofBytes?, hbuf, hread, Option.map_some]
  · intro m hm
    rw [Message.ofBytes?, hbuf] at hm
    obtain ⟨⟨m, b⟩, hread, rfl⟩ := Option.map_eq_some_iff.1 hm
    exact hmessage.2 _ _ _ hread

/-- A field takes no more than a hundred bytes besides its name. -/
theorem length_writeField_le (f : Field) :
    (writeField f).length ≤ 100 + (Bytes.ofText f.name).length := by
  have htext := length_writeText f.name
  have htype := length_writeTable (isWhole_typeSlots f.type)
  have hdirectory := length_directory (typeSlots f.type).2
  have hmost := length_typeSlots_le f.type
  have htargets : Slot.targets (typeSlots f.type).2 = [] := by cases f.type <;> rfl
  rw [htargets, List.length_nil] at htype
  rw [writeField_eq, length_writeTable (isWhole_fieldSlots f), length_directory]
  simp only [fieldSlots, Slot.targets, List.length_append, List.length_cons, List.length_nil]
  omega

/-- The message of a schema is short if the names are. -/
theorem length_schemaMetadata_le {s : Schema} {n : Nat}
    (h : ∀ f ∈ s.fields, (Bytes.ofText f.name).length ≤ n) :
    (schemaMetadata s).length ≤ 107 + s.fields.length * (104 + n) := by
  have hfields : ∀ fields : List Field, (∀ f ∈ fields, (Bytes.ofText f.name).length ≤ n) →
      (fields.map writeField).flatten.length ≤ fields.length * (100 + n) := by
    intro fields h
    induction fields with
    | nil => exact Nat.zero_le _
    | cons f fields ih =>
      obtain ⟨hf, hrest⟩ := List.forall_mem_cons.1 h
      have hone := length_writeField_le f
      have hothers := ih hrest
      rw [List.map_cons, List.flatten_cons, List.length_append, List.length_cons, Nat.succ_mul]
      omega
  have hall := hfields s.fields h
  have hsum : s.fields.length * (104 + n) = s.fields.length * (100 + n) + 4 * s.fields.length := by
    rw [Nat.mul_comm 4, ← Nat.mul_add, Nat.add_right_comm]
  have hlen : (schemaMetadata s).length = 64 + (writeTable (schemaSlots s)).length :=
    length_writeMessage (length_writeTable_mod (isWhole_schemaSlots s))
  rw [hlen, length_writeTable (isWhole_schemaSlots s), length_directory]
  simp only [schemaSlots, Slot.targets, List.length_append, List.length_cons, List.length_nil,
    length_writeTables, List.length_map]
  omega

/-- **The message that opens a stream is read back**, unless the reader
gives up on the number of its tables. -/
theorem ofBytes?_schemaMetadata {s : Schema} (hlen : (schemaMetadata s).length ≤ metadataLimit) :
    (2 * s.fields.length + 2 ≤ Budget.start.tables → Message.ofBytes? (schemaMetadata s) =
      some ⟨version, .schema (schemaTable s), 0⟩) ∧
    ∀ m, Message.ofBytes? (schemaMetadata s) = some m →
      m = ⟨version, .schema (schemaTable s), 0⟩ := by
  have hmessage := ofBytes?_writeMessage (length_writeTable_mod (isWhole_schemaSlots s))
    (Nat.zero_le _) hlen (c := 1 + 2 * s.fields.length) fun buf hbuf t ht =>
      yields_schemaHeader ht (reads_schema s hbuf)
  exact ⟨fun hfields => hmessage.1 (by omega), hmessage.2⟩

/-- A block as the header of its message describes it. -/
def blockTable (rows : Nat) (columns : List (Field × List Cell)) : BlockTable :=
  ⟨rows, some (told (nodesOf columns)), some (told (places 0 (blockBuffers columns))), false, []⟩

theorem blockMetadata_eq (rows : Nat) (columns : List (Field × List Cell)) :
    blockMetadata rows columns =
      writeMessage 3 (writeTable (blockSlots rows (nodesOf columns)
        (places 0 (blockBuffers columns)))) (blockBody columns).length := rfl

/-- **The message of a block is read back.** -/
theorem ofBytes?_blockMetadata {rows : Nat} {columns : List (Field × List Cell)}
    (hlen : (blockMetadata rows columns).length ≤ metadataLimit) (hrows : rows ≤ Rows.vectorLimit)
    (hbody : (blockBody columns).length ≤ Rows.vectorLimit) (hnodes : Tellable (nodesOf columns))
    (hbuffers : Tellable (places 0 (blockBuffers columns))) :
    Message.ofBytes? (blockMetadata rows columns) =
      some ⟨version, .block (blockTable rows columns), (blockBody columns).length⟩ := by
  rw [blockMetadata_eq] at hlen ⊢
  exact (ofBytes?_writeMessage (length_writeTable_mod (isWhole_blockSlots _ _ _)) hbody hlen
    fun buf hbuf t ht => yields_blockHeader ht (reads_block hbuf hrows hnodes hbuffers)).1
    (by decide)

theorem length_places (start : Nat) (bufs : List Bytes) :
    (places start bufs).length = bufs.length := by
  induction bufs generalizing start with
  | nil => rfl
  | cons b bufs ih => rw [places, List.length_cons, ih, List.length_cons]

theorem length_columnBuffers_le (type : FieldType) (cells : List Cell) :
    (columnBuffers type cells).length ≤ 3 := by
  cases type <;> simp [columnBuffers]

theorem length_blockBuffers_le (columns : List (Field × List Cell)) :
    (blockBuffers columns).length ≤ 3 * columns.length := by
  induction columns with
  | nil => exact Nat.le_refl 0
  | cons c columns ih =>
    have hone := length_columnBuffers_le c.1.type c.2
    rw [blockBuffers] at ih ⊢
    rw [List.flatMap_cons, List.length_append, List.length_cons]
    omega

/-- The message of a block is short: 64 bytes for each of its columns. -/
theorem length_blockMetadata_le (rows : Nat) (columns : List (Field × List Cell)) :
    (blockMetadata rows columns).length ≤ 136 + 64 * columns.length := by
  have hwhole := isWhole_blockSlots rows (nodesOf columns) (places 0 (blockBuffers columns))
  have hnodes : (nodesOf columns).length = columns.length := by rw [nodesOf, List.length_map]
  have hplaces := length_places 0 (blockBuffers columns)
  have hbuffers := length_blockBuffers_le columns
  rw [blockMetadata_eq, length_writeMessage (length_writeTable_mod hwhole),
    length_writeTable hwhole, length_directory]
  simp only [blockSlots, Slot.targets, List.length_append, List.length_cons, List.length_nil,
    length_writePairs]
  omega

end Intake.Columns
