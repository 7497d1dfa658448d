import Intake.Proofs.Columns.Blocks
import Intake.Proofs.Columns.Messages
/-!
# A writer that keeps to the format

Nothing is asked of a writer that cannot be had: the one that writes every
table with eight bytes for each slot implements the format for every schema
that a stream can describe and all blocks that are not too large
(`implements_flatWriter`). One of 499,999 fields with short names is such a
schema (`isDescribable_of_short`).
-/

namespace Intake.Columns

open Flat

/-! ## Bits -/

/-- The number whose bits are given, the lowest first. -/
def packed (bits : List Bool) : Nat := bits.foldr (fun b n => (if b then 1 else 0) + 2 * n) 0

theorem packed_cons (b : Bool) (bits : List Bool) :
    packed (b :: bits) = (if b then 1 else 0) + 2 * packed bits := rfl

theorem packed_lt (bits : List Bool) : packed bits < Nat.pow 2 bits.length := by
  induction bits with
  | nil => exact Nat.one_pos
  | cons b bits ih =>
    have hpow : Nat.pow 2 (b :: bits).length = Nat.pow 2 bits.length * 2 := rfl
    rw [packed_cons, hpow]
    split <;> omega

/-- Each bit stands in the number at its own place. -/
theorem testBit_packed (bits : List Bool) (i : Nat) :
    (packed bits).testBit i = bits[i]?.getD false := by
  induction bits generalizing i with
  | nil => simp [packed]
  | cons b bits ih =>
    cases i with
    | zero => cases b <;> simp [packed_cons, Nat.testBit_zero]
    | succ i =>
      have hhalf : packed (b :: bits) / 2 = packed bits := by
        rw [packed_cons]
        split <;> omega
      rw [Nat.testBit_succ, hhalf, ih, List.getElem?_cons_succ]

/-- The bits of a byte are those that were packed into it, and then zeros. -/
theorem map_testBit_packed {bits : List Bool} (h : bits.length ≤ 8) :
    (List.range 8).map (UInt8.ofNat (packed bits)).toNat.testBit =
      bits ++ List.replicate (8 - bits.length) false := by
  have hpow : Nat.pow 2 bits.length ≤ 256 := Nat.pow_le_pow_right (by decide) h
  have hlt : packed bits < 256 := Nat.lt_of_lt_of_le (packed_lt bits) hpow
  have hbyte : (UInt8.ofNat (packed bits)).toNat = packed bits := by
    rw [UInt8.toNat_ofNat']
    exact Nat.mod_eq_of_lt hlt
  rw [hbyte]
  refine List.ext_getElem (by simp; omega) fun i hi hi' => ?_
  rw [List.getElem_map, List.getElem_range, testBit_packed]
  by_cases hin : i < bits.length
  · rw [List.getElem_append_left hin, List.getElem?_eq_getElem hin, Option.getD_some]
  · rw [List.getElem_append_right (by omega), List.getElem?_eq_none (by omega),
      List.getElem_replicate, Option.getD_none]

/-- **Bits unpack to what was packed**, with zeros behind them. -/
theorem exists_bitsOf_packBits (bits : List Bool) :
    ∃ n, bitsOf (packBits bits) = bits ++ List.replicate n false := by
  induction bits using packBits.induct with
  | case1 => exact ⟨0, by rw [packBits]; rfl⟩
  | case2 b bits ih =>
    obtain ⟨n, ih⟩ := ih
    have hlen : (b :: bits.take 7).length ≤ 8 := by
      rw [List.length_cons, List.length_take]
      omega
    have hbyte := map_testBit_packed hlen
    rw [packed] at hbyte
    rw [packBits, bitsOf_cons, hbyte, ih]
    rcases Nat.lt_or_ge bits.length 7 with hshort | hlong
    · -- the last byte, which has room for more bits
      have hrest : bits.drop 7 = [] := List.drop_eq_nil_of_le (by omega)
      have hall : bits.take 7 = bits := List.take_of_length_le (by omega)
      refine ⟨8 - (bits.length + 1) + n, ?_⟩
      rw [hrest, hall, List.nil_append, List.append_assoc, List.replicate_append_replicate,
        List.length_cons]
    · have hfull : (b :: bits.take 7).length = 8 := by
        rw [List.length_cons, List.length_take]
        omega
      refine ⟨n, ?_⟩
      rw [hfull, Nat.sub_self, List.replicate_zero, List.append_nil, ← List.append_assoc,
        List.cons_append, List.take_append_drop]

theorem prefix_bitsOf_packBits (bits : List Bool) : bits <+: bitsOf (packBits bits) := by
  obtain ⟨n, h⟩ := exists_bitsOf_packBits bits
  exact ⟨List.replicate n false, h.symm⟩

/-! ## Buffers -/

variable {type : FieldType} {cells : List Cell} {bss : List Bytes} {bufs : List Bytes}
variable {start : Nat}

/-- The offsets of a column are those of its pieces. -/
theorem offsetBytes_eq (start : Nat) (bss : List Bytes) :
    offsetBytes start (bss.map List.length) =
      ((offsetsOf start bss).map (Bytes.ofNat 4)).flatten := by
  induction bss generalizing start with
  | nil => simp [offsetBytes, offsetsOf]
  | cons bs bss ih =>
    rw [List.map_cons, offsetBytes, ih, offsetsOf, List.map_cons, List.flatten_cons]

/-- **The buffers of a column carry it.** -/
theorem carries_columnBuffers (h : OfType type cells) (hshort : IsShort type cells) :
    Carries type cells (columnBuffers type cells) := by
  have hfills : Fills type cells cells :=
    ⟨h, List.forall₂_same.2 fun c _ _ => rfl⟩
  have hnulls : HoldsNulls cells
      (if cells.any Cell.isNull then packBits (cells.map fun c => !c.isNull) else []) := by
    intro hany
    rw [if_pos hany]
    exact prefix_bitsOf_packBits _
  rw [IsShort, List.flatMap_def] at hshort
  cases type with
  | boolean => exact ⟨cells, _, _, rfl, hfills, hnulls, .bits (prefix_bitsOf_packBits _)⟩
  | int64 | float64 | date | timestamp => exact ⟨cells, _, _, rfl, hfills, hnulls, .words rfl⟩
  | string =>
    exact ⟨cells, _, _, rfl, hfills, hnulls,
      .pieces (.inl rfl) (hshort (.inl rfl)) (.inl (offsetBytes_eq 0 _))⟩
  | bytes =>
    exact ⟨cells, _, _, rfl, hfills, hnulls,
      .pieces (.inr rfl) (hshort (.inr rfl)) (.inl (offsetBytes_eq 0 _))⟩

/-- Buffers that are padded one behind the other stand at their places. -/
theorem forall₂_stands_places (front : Bytes) (bufs : List Bytes) :
    List.Forall₂ (Stands (front ++ (bufs.map padded).flatten)) (told (places front.length bufs))
      bufs := by
  induction bufs generalizing front with
  | nil => exact .nil
  | cons b bufs ih =>
    have hrest := ih (front ++ padded b)
    rw [List.length_append, List.append_assoc] at hrest
    refine .cons ⟨Int.natCast_nonneg _, rfl, ?_, ?_⟩ hrest
    · simp only [List.map_cons, List.flatten_cons, padded, List.length_append]
      omega
    · rw [List.map_cons, List.flatten_cons, padded, Int.toNat_natCast, List.drop_left,
        List.append_assoc, List.take_left]

/-- Each buffer lies inside the body. -/
theorem le_of_mem_places {p : Nat × Nat} (h : p ∈ places start bufs) :
    p.1 + p.2 ≤ start + (bufs.map padded).flatten.length := by
  induction bufs generalizing start with
  | nil => cases h
  | cons b bufs ih =>
    have hlen := length_padded b
    rw [List.map_cons, List.flatten_cons, List.length_append]
    rcases List.mem_cons.1 h with rfl | h
    · dsimp only
      omega
    · have := ih h
      omega

/-! ## Blocks -/

variable {rows : Nat} {columns : List (Field × List Cell)}

/-- **A header describes the columns of a block** if it tells how long they
are and where in the body their buffers stand. -/
theorem describes_of_stands {places : List (Int × Int)} {body : Bytes}
    (h : ∀ c ∈ columns, IsColumn rows c)
    (hstand : List.Forall₂ (Stands body) places (blockBuffers columns)) :
    BlockTable.Describes ⟨rows, some (told (nodesOf columns)), some places, false, []⟩ body rows
      columns where
  length_eq := rfl
  nodes_eq := rfl
  carried := by
    refine ⟨places, columns.map fun c => columnBuffers c.1.type c.2, rfl, ?_, ?_⟩
    · rw [List.forall₂_map_right_iff]
      exact List.forall₂_same.2 fun c hc => carries_columnBuffers (h c hc).ofType (h c hc).short
    · rwa [← List.flatMap_def]
  compressed_eq := rfl
  variadic_eq := rfl

theorem writesBlock_flatWriter (h : ∀ c ∈ columns, IsColumn rows c)
    (hlen : (blockMetadata rows columns).length ≤ metadataLimit)
    (hrows : rows ≤ Rows.vectorLimit) (hlimit : (blockBody columns).length ≤ Rows.vectorLimit) :
    flatWriter.WritesBlock rows columns where
  length_le := hlen
  read := by
    refine ⟨_, _, ofBytes?_blockMetadata hlen hrows hlimit (fun p hp => ?_) fun p hp => ?_, rfl,
      rfl, describes_of_stands h (forall₂_stands_places [] (blockBuffers columns))⟩
    · have := le_of_mem_nodesOf h p hp
      omega
    · have hinside := le_of_mem_places hp
      rw [Nat.zero_add] at hinside
      rw [blockBody] at hlimit
      omega

/-- A writer whose bodies hold the same buffers, wherever they stand, writes
a block too, if it tells where. -/
theorem writesBlock_of_stands {w : StreamWriter} (places : List (Int × Int))
    (h : ∀ c ∈ columns, IsColumn rows c)
    (hlen : (w.block rows columns).1.length ≤ metadataLimit)
    (hread : (Message.ofBytes? (w.block rows columns).1).map
        (fun m => (m.bodyLength, m.header.block?)) =
      some (((w.block rows columns).2.length : Int),
        some ⟨rows, some (told (nodesOf columns)), some places, false, []⟩))
    (hstand : List.Forall₂ (Stands (w.block rows columns).2) places (blockBuffers columns)) :
    w.WritesBlock rows columns where
  length_le := hlen
  read := by
    obtain ⟨m, hm, heq⟩ := Option.map_eq_some_iff.1 hread
    obtain ⟨hbody, hblock⟩ := Prod.mk.inj heq
    exact ⟨m, _, hm, hbody, hblock, describes_of_stands h hstand⟩

/-! ## Streams -/

variable {s : Schema} {blocks : List (List Record)}

/-- A schema takes more bytes than it has fields. -/
theorem length_fields_le_schemaMetadata (s : Schema) :
    77 * s.fields.length ≤ (schemaMetadata s).length := by
  have hfields : ∀ fields : List Field,
      77 * fields.length ≤ (fields.map writeField).flatten.length := by
    intro fields
    induction fields with
    | nil => exact Nat.zero_le _
    | cons f fields ih =>
      have hone := length_writeField f
      rw [List.map_cons, List.flatten_cons, List.length_append, List.length_cons]
      omega
  have hall := hfields s.fields
  have hlen : (schemaMetadata s).length = 64 + (writeTable (schemaSlots s)).length :=
    length_writeMessage (length_writeTable_mod (isWhole_schemaSlots s))
  rw [hlen, length_writeTable (isWhole_schemaSlots s)]
  simp only [schemaSlots, Slot.targets, List.length_append, List.length_nil, length_writeTables]
  omega

/-- The messages of blocks are no longer than a message may be, if that of
the schema is not. -/
theorem length_blockMetadata_le_limit (h : (schemaMetadata s).length ≤ metadataLimit)
    (rs : List Record) :
    (blockMetadata rs.length (columnsFrom rs 0 s.fields)).length ≤ metadataLimit := by
  have hfields := length_fields_le_schemaMetadata s
  have hlen := Columns.length_blockMetadata_le rs.length (columnsFrom rs 0 s.fields)
  rw [length_columnsFrom] at hlen
  rw [metadataLimit] at h ⊢
  omega

/-- Blocks whose rows and bytes the header of a message can count. -/
structure AreCountable (s : Schema) (blocks : List (List Record)) : Prop where
  rows_le : ∀ rs ∈ blocks, rs.length ≤ Rows.vectorLimit
  body_le : ∀ rs ∈ blocks, (blockBody (columnsFrom rs 0 s.fields)).length ≤ Rows.vectorLimit

/-- **The writer is honest about any blocks** that can be counted, if the
description of the schema is not too long. -/
theorem isHonest_flatWriter (hs : (schemaMetadata s).length ≤ metadataLimit)
    (hblocks : AreCountable s blocks) : flatWriter.IsHonest s blocks where
  opening_ne_nil := List.length_pos_iff.1 (length_writeMessage_pos ..)
  opening m hm := by
    obtain rfl := (ofBytes?_schemaMetadata hs).2 m hm
    exact ⟨rfl, describes_schemaTable s⟩
  block rs hrs columns hcolumns hw := by
    obtain ⟨hfilled, rfl⟩ := isFilled_of_columnsOf hcolumns hw
    exact writesBlock_flatWriter hfilled.isColumn (length_blockMetadata_le_limit hs rs)
      (hblocks.rows_le rs hrs) (hblocks.body_le rs hrs)

/-- A schema that a stream can describe: its description is no longer than
a message may be, and has no more tables than a reader opens, two for each
field. -/
structure IsDescribable (s : Schema) : Prop where
  length_le : (schemaMetadata s).length ≤ metadataLimit
  tables_le : 2 * s.fields.length + 2 ≤ Budget.start.tables

/-- A schema is described if it has fewer than half a million fields and
their names are short. -/
theorem isDescribable_of_short {n : Nat} (hfields : s.fields.length ≤ 499999)
    (hnames : ∀ f ∈ s.fields, (Bytes.ofText f.name).length ≤ n)
    (hlen : 107 + s.fields.length * (104 + n) ≤ metadataLimit) : IsDescribable s where
  length_le := Nat.le_trans (length_schemaMetadata_le hnames) hlen
  tables_le := by
    have htables : Budget.start.tables = 1000000 := rfl
    omega

/-- **The writer implements the format** for such a schema. -/
theorem implements_flatWriter (hs : IsDescribable s) (hblocks : AreCountable s blocks) :
    flatWriter.Implements s blocks where
  toIsHonest := isHonest_flatWriter hs.length_le hblocks
  length_opening_le := hs.length_le
  isSome_opening := by
    rw [flatWriter, (ofBytes?_schemaMetadata hs.length_le).1 hs.tables_le]
    rfl

end Intake.Columns
