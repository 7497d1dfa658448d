import Intake.Proofs.Codecs
import Intake.Proofs.Columns.Blocks
import Intake.Proofs.Columns.Counts
import Intake.Proofs.Columns.FlatStreams
import Intake.Sample
/-!
# Column batches read back

The stream that a writer makes of blocks of rows is cut into the frames of
its messages (`exists_framesFrom_eq_ok`), of which each block yields its
rows (`readFrames_eq_ok`). So the codec gives back the rows of all blocks
in order, if the batch tells as many, and refuses it otherwise
(`Codec.decode_encode_blocks`).
-/

namespace Intake.Columns

variable {metadata body rest : Bytes} {m : Message} {index pos : Nat}

/-! ## Frames -/

/-- A message of a stream of batches that is read back. -/
structure IsMessage (metadata body : Bytes) (m : Message) : Prop where
  ne_nil : metadata ≠ []
  length_le : metadata.length ≤ metadataLimit
  ofBytes? : Message.ofBytes? metadata = some m
  bodyLength_eq : m.bodyLength = body.length
  isTaken : m.header.IsTaken body.length

/-- The frame of a message that starts at `pos`. -/
def frameAt (pos : Nat) (metadata body : Bytes) (m : Message) : Frame :=
  ⟨pos, m, pos + 8 + metadata.length, body⟩

theorem word?_ofNat {n : Nat} (h : n < UInt32.size) (rest : Bytes) :
    Bytes.word? 4 (Bytes.ofNat 4 n ++ rest) = some (n, rest) := by
  have hcut := Rows.cut?_append (Bytes.ofNat 4 n) rest
  rw [Bytes.length_ofNat] at hcut
  rw [Bytes.word?, hcut, Option.map_some]
  dsimp only
  rw [Bytes.toNat_ofNat_of_lt 4 h]

theorem readLength_writeFrame {n : Nat} (h : n ≤ metadataLimit) (pos : Nat) (rest : Bytes) :
    readLength pos (Bytes.ofNat 4 marker ++ (Bytes.ofNat 4 n ++ rest)) =
      .ok (n, pos + 8, rest) := by
  have hn : n < UInt32.size := Nat.lt_of_le_of_lt h (by decide)
  rw [readLength, word?_ofNat (by decide)]
  dsimp only
  rw [if_pos rfl, word?_ofNat hn]

/-- A message that passes for one of a stream is cut off the bytes that it
opens. -/
theorem readFrame_of_message (hmessage : Message.ofBytes? metadata = some m)
    (hbody : m.bodyLength = body.length) (hcheck : m.header.check index body.length = .ok ())
    (start pos : Nat) (rest : Bytes) :
    readFrame index start pos metadata.length (metadata ++ (body ++ rest)) =
      .ok (⟨start, m, pos + metadata.length, body⟩, rest) := by
  rw [readFrame, Rows.cut?_append]
  dsimp only
  rw [hmessage]
  dsimp only
  rw [hbody, if_pos (Int.natCast_nonneg _), Int.toNat_natCast, Rows.cut?_append]
  dsimp only
  rw [hcheck]

/-- A stream is cut at its first message. -/
theorem framesFrom_eq {data : Bytes} (hne : data ≠ []) :
    framesFrom index pos data =
      match readLength pos data with
      | .error e => .error e
      | .ok (size, next, rest) =>
        if size = 0 then
          if rest.isEmpty then .ok ⟨[], true⟩
          else .error ⟨.bytesAfterEnd rest.length, some next⟩
        else
          match readFrame index pos next size rest with
          | .error e => .error e
          | .ok (frame, rest') =>
            (framesFrom (index + 1) (next + size + frame.body.length) rest').map fun fs =>
              ⟨frame :: fs.frames, fs.ended⟩ := by
  have hnonempty : ¬ data.isEmpty = true := by simpa using hne
  -- the branches carry proofs that less is left, so that nothing can be rewritten under them
  rw [framesFrom, if_neg hnonempty]
  split
  · rename_i e he
    rw [he]
  · rename_i size next rest he
    rw [he]
    dsimp only
    split
    · rfl
    split
    · rename_i e he'
      rw [he']
    · rename_i frame rest' he'
      rw [he']

/-- **A message at the front of a stream is cut off**, and the rest is cut
after it. -/
theorem framesFrom_of_message {next : Nat} {data : Bytes}
    (hlength : readLength pos data = .ok (metadata.length, next, metadata ++ (body ++ rest)))
    (hne : metadata ≠ []) (hmessage : Message.ofBytes? metadata = some m)
    (hbody : m.bodyLength = body.length) (hcheck : m.header.check index body.length = .ok ()) :
    framesFrom index pos data =
      (framesFrom (index + 1) (next + metadata.length + body.length) rest).map fun fs =>
        ⟨⟨pos, m, next + metadata.length, body⟩ :: fs.frames, fs.ended⟩ := by
  have hopening := length_of_readLength hlength
  have hdata : data ≠ [] := List.length_pos_iff.1 (by omega)
  rw [framesFrom_eq hdata, hlength]
  dsimp only
  rw [if_neg fun h => hne (List.length_eq_zero_iff.1 h),
    readFrame_of_message hmessage hbody hcheck]

theorem framesFrom_writeFrame (h : IsMessage metadata body m) (index pos : Nat)
    (rest : Bytes) :
    framesFrom index pos (writeFrame metadata body ++ rest) =
      (framesFrom (index + 1) (pos + 8 + metadata.length + body.length) rest).map fun fs =>
        ⟨frameAt pos metadata body m :: fs.frames, fs.ended⟩ := by
  have hlength := readLength_writeFrame h.length_le pos (metadata ++ (body ++ rest))
  have hflat : writeFrame metadata body ++ rest =
      Bytes.ofNat 4 marker ++ (Bytes.ofNat 4 metadata.length ++ (metadata ++ (body ++ rest))) := by
    simp only [writeFrame, List.append_assoc]
  rw [hflat]
  exact framesFrom_of_message hlength h.ne_nil h.ofBytes? h.bodyLength_eq
    ((Message.check_eq_ok_iff h.ofBytes? _ _).2 h.isTaken)

/-- The mark that ends a stream ends its frames. -/
theorem framesFrom_endMark (index pos : Nat) : framesFrom index pos endMark = .ok ⟨[], true⟩ := by
  have hlength : readLength pos endMark = .ok (0, pos + 8, []) :=
    readLength_writeFrame (Nat.zero_le metadataLimit) pos []
  have hnonempty : endMark ≠ [] := List.cons_ne_nil _ _
  rw [framesFrom_eq hnonempty, hlength]
  rfl

/-! ## Messages of a stream -/

variable {w : StreamWriter} {s : Schema} {rs : List Record} {blocks : List (List Record)}
variable {l : Layout} {selected : List String}

/-- The message that opens a stream, if it is read at all. -/
theorem StreamWriter.IsHonest.isMessage_opening (hw : w.IsHonest s blocks)
    (hlen : (w.opening s).length ≤ metadataLimit)
    (hm : Message.ofBytes? (w.opening s) = some m) :
    IsMessage (w.opening s) [] m where
  ne_nil := hw.opening_ne_nil
  length_le := hlen
  ofBytes? := hm
  bodyLength_eq := (hw.opening m hm).1
  isTaken := by
    obtain ⟨table, hheader, -⟩ := (hw.opening m hm).2.exists_columns?_eq
    rw [hheader]
    trivial

/-- Some buffer of a column has a bit for each of its cells. -/
theorem Carries.exists_length_le {type : FieldType} {cells : List Cell} {buffers : List Bytes}
    (h : Carries type cells buffers) : ∃ b ∈ buffers, cells.length ≤ 8 * b.length := by
  obtain ⟨slots, nulls, values, rfl, hfills, -, hslots⟩ := h
  rw [hfills.same.length_eq]
  cases hslots with
  | bits hvalues =>
    have hbits := length_le_of_prefix hvalues
    rw [List.length_map] at hbits
    exact ⟨_, List.mem_cons_of_mem _ List.mem_cons_self, hbits⟩
  | words hwidth =>
    have hwords : ∀ {width : Nat} {cell : Nat → Cell}, valueWidth? (columnType type) = some width →
        wordCell? (columnType type) = some cell → 0 < width →
          slots.length ≤ 8 * (slots.map (cellBytes type)).flatten.length := by
      intro width cell hw hcell hpos
      have hone : ∀ bs ∈ slots.map (cellBytes type), bs.length = width :=
        List.forall_mem_map.2 fun c hc => (word_cellBytes hw hcell (hfills.ofType c hc)).1
      rw [length_flatten_of_width hone, List.length_map]
      have := Nat.le_mul_of_pos_right slots.length hpos
      omega
    refine ⟨_, List.mem_cons_of_mem _ List.mem_cons_self, ?_⟩
    cases type with
    | boolean | string | bytes => cases hwidth
    | int64 | float64 | date | timestamp => exact hwords rfl rfl (by decide)
  | @pieces _ _ offsets _ _ hoffsets =>
    refine ⟨offsets, List.mem_cons_of_mem _ List.mem_cons_self, ?_⟩
    rcases hoffsets with rfl | ⟨rfl, -⟩
    · have hone : ∀ bs ∈ (offsetsOf 0 (slots.map (cellBytes type))).map (Bytes.ofNat 4),
          bs.length = 4 := List.forall_mem_map.2 fun o _ => Bytes.length_ofNat ..
      rw [length_flatten_of_width hone, List.length_map, length_offsetsOf, List.length_map]
      omega
    · exact Nat.zero_le _

variable {rows : Nat} {columns : List (Field × List Cell)}

theorem exists_stands {body b : Bytes} {ps : List (Int × Int)} {bs : List Bytes}
    (h : List.Forall₂ (Stands body) ps bs) (hb : b ∈ bs) : ∃ p, Stands body p b := by
  induction h with
  | nil => cases hb
  | @cons p b' ps bs hp _ ih =>
    rcases List.mem_cons.1 hb with rfl | hb
    · exact ⟨p, hp⟩
    · exact ih hb

/-- A block has no more rows than its body has bits, if it has a column. -/
theorem BlockTable.Describes.rows_le {t : BlockTable} (ht : t.Describes body rows columns)
    (h : ∀ c ∈ columns, IsColumn rows c) (hne : columns ≠ []) : rows ≤ 8 * body.length := by
  obtain ⟨places, buffers, -, hcarried, hstand⟩ := ht.carried
  cases hcarried with
  | nil => exact absurd rfl hne
  | @cons c bs columns buffers hc _ =>
    obtain ⟨b, hb, hbits⟩ := hc.exists_length_le
    obtain ⟨p, hstart, hsize, hroom, -⟩ := exists_stands hstand (List.mem_append_left _ hb)
    rw [(h c List.mem_cons_self).length_eq] at hbits
    omega

/-- The message of a block. -/
theorem StreamWriter.WritesBlock.exists_isMessage (hw : w.WritesBlock rows columns)
    (h : ∀ c ∈ columns, IsColumn rows c) (hne : columns ≠ []) :
    ∃ m t, IsMessage (w.block rows columns).1 (w.block rows columns).2 m ∧
      m.header = .block t ∧ t.Describes (w.block rows columns).2 rows columns := by
  obtain ⟨m, t, hm, hbody, hblock, ht⟩ := hw.read
  have hheader := Header.eq_of_block? hblock
  have hrows := ht.rows_le h hne
  have hroom : ∀ n : Nat, n ≤ rows → HasRoom (w.block rows columns).2.length n :=
    fun n hn => ⟨by omega, by omega⟩
  have hsome : (w.block rows columns).1 ≠ [] := by
    intro hnil
    rw [hnil] at hm
    cases hm
  refine ⟨m, t, ⟨hsome, hw.length_le, hm, hbody, ?_⟩, hheader, ht⟩
  rw [hheader]
  refine ⟨ht.compressed_eq, ht.length_eq ▸ hroom rows (Nat.le_refl rows), fun nodes hnodes => ?_⟩
  rw [ht.nodes_eq] at hnodes
  cases hnodes
  refine List.forall_mem_map.2 fun p hp => ?_
  obtain ⟨hlen, hnulls⟩ := le_of_mem_nodesOf h p hp
  exact ⟨hroom p.1 (Nat.le_of_eq hlen), hroom p.2 hnulls⟩

/-- The header of a block counts no more rows than a word of 64 bits can. -/
theorem StreamWriter.WritesBlock.rows_le (hw : w.WritesBlock rows columns) :
    rows ≤ Rows.vectorLimit := by
  obtain ⟨m, t, hm, -, hblock, ht⟩ := hw.read
  have hcounts := Message.countsInWords hm
  rw [Header.eq_of_block? hblock] at hcounts
  have hword : Flat.IsWord rows := ht.length_eq ▸ hcounts.1
  rw [Flat.IsWord] at hword
  rw [Rows.vectorLimit_eq]
  omega

/-! ## Blocks of a stream -/

/-- The message of a block of rows. -/
def blockBytes (w : StreamWriter) (s : Schema) (rs : List Record) : Bytes :=
  writeFrame (w.block rs.length (columnsFrom rs 0 s.fields)).1
    (w.block rs.length (columnsFrom rs 0 s.fields)).2

/-- A frame holds a block of rows. -/
def Frame.HoldsBlock (s : Schema) (rs : List Record) (f : Frame) : Prop :=
  ∃ t, f.message.header = .block t ∧ t.Describes f.body rs.length (columnsFrom rs 0 s.fields)

theorem columnsFrom_ne_nil (hne : s.fields ≠ []) (rs : List Record) (i : Nat) :
    columnsFrom rs i s.fields ≠ [] := by
  rwa [Ne, ← List.length_eq_zero_iff, length_columnsFrom, List.length_eq_zero_iff]

/-- The message of a block of rows, if the writer is honest. -/
theorem StreamWriter.IsHonest.writesBlock (hw : w.IsHonest s blocks) (hrs : rs ∈ blocks)
    (h : IsFilled s rs) : w.WritesBlock rs.length (columnsFrom rs 0 s.fields) :=
  hw.block rs hrs _ (columnsOf_eq_ok h)
    (List.all_eq_true.2 fun c hc => (h.isColumn c hc).isWritable)

theorem StreamWriter.IsHonest.exists_isMessage (hw : w.IsHonest s blocks) (hne : s.fields ≠ [])
    (hrs : rs ∈ blocks) (h : IsFilled s rs) :
    ∃ m t, IsMessage (w.block rs.length (columnsFrom rs 0 s.fields)).1
        (w.block rs.length (columnsFrom rs 0 s.fields)).2 m ∧
      m.header = .block t ∧ t.Describes (w.block rs.length (columnsFrom rs 0 s.fields)).2
        rs.length (columnsFrom rs 0 s.fields) :=
  (hw.writesBlock hrs h).exists_isMessage h.isColumn (columnsFrom_ne_nil hne rs 0)

theorem StreamWriter.IsHonest.of_subset {blocks' : List (List Record)}
    (hw : w.IsHonest s blocks) (h : blocks' ⊆ blocks) : w.IsHonest s blocks' :=
  ⟨hw.opening_ne_nil, hw.opening, fun rs hrs => hw.block rs (h hrs)⟩

/-- **A stream of blocks is cut into their frames.** -/
theorem exists_framesFrom_eq_ok (hw : w.IsHonest s blocks) (hne : s.fields ≠ [])
    (h : ∀ rs ∈ blocks, IsFilled s rs) (index pos : Nat) :
    ∃ fs, framesFrom index pos ((blocks.map (blockBytes w s)).flatten ++ endMark) =
        .ok ⟨fs, true⟩ ∧
      List.Forall₂ (fun rs f => f.HoldsBlock s rs) blocks fs := by
  induction blocks generalizing index pos with
  | nil => exact ⟨[], framesFrom_endMark index pos, .nil⟩
  | cons rs blocks ih =>
    obtain ⟨hrs, hrest⟩ := List.forall_mem_cons.1 h
    obtain ⟨m, t, hmessage, hheader, ht⟩ := hw.exists_isMessage hne List.mem_cons_self hrs
    -- where the rest starts is read off `framesFrom_writeFrame` below
    obtain ⟨fs, hfs, hholds⟩ :=
      ih (hw.of_subset (List.subset_cons_self rs blocks)) hrest (index + 1) _
    refine ⟨frameAt pos (w.block rs.length (columnsFrom rs 0 s.fields)).1
      (w.block rs.length (columnsFrom rs 0 s.fields)).2 m :: fs, ?_,
      .cons ⟨t, hheader, ht⟩ hholds⟩
    rw [List.map_cons, List.flatten_cons, List.append_assoc, blockBytes,
      framesFrom_writeFrame hmessage, hfs]
    rfl

/-- The names of a schema pass as those of its stream. -/
theorem checkNames_eq_ok (s : Schema) : checkNames s.names (s.fields.map columnField) = .ok () := by
  have hnames : (s.fields.map columnField).map ColumnField.name = s.names := by
    rw [List.map_map]
    rfl
  rw [checkNames, hnames]
  exact if_pos rfl

/-- What has been seen of a stream once its schema has been read. -/
def Seen.Knows (seen : Seen) (s : Schema) : Prop :=
  seen = .unchecked (s.fields.map columnField) ∨ seen = .checked (s.fields.map columnField)

theorem Seen.Knows.check {seen : Seen} (h : seen.Knows s) :
    seen.check s.names = .ok (.checked (s.fields.map columnField)) := by
  rcases h with rfl | rfl
  · rw [Seen.check, checkNames_eq_ok]
    rfl
  · rfl

theorem Seen.Knows.fields? {seen : Seen} (h : seen.Knows s) :
    seen.fields? = some (s.fields.map columnField) := by
  rcases h with rfl | rfl <;> rfl

/-- A row as the layout hands it out. -/
def handed (l : Layout) (r : Record) : Record := ⟨l.wireIndices.map fun i => r.cells.getD i .null⟩

/-- **The frames of blocks yield their rows**, block by block. -/
theorem readFrames_eq_ok {seen : Seen} {fs : List Frame} (hl : Layout.resolve selected s = .ok l)
    (h : ∀ rs ∈ blocks, IsFilled s rs)
    (hfs : List.Forall₂ (fun rs f => f.HoldsBlock s rs) blocks fs) (hseen : seen.Knows s)
    (total block began : Nat) :
    readFrames s.names l total true fs seen block began = .ok (blocks.flatten.map (handed l)) := by
  induction hfs generalizing seen block began with
  | nil =>
    rw [readFrames, hseen.check]
    rfl
  | @cons rs f blocks fs hf hfs ih =>
    obtain ⟨hrs, hrest⟩ := List.forall_mem_cons.1 h
    obtain ⟨t, hheader, ht⟩ := hf
    have hunended : ¬ (fs.isEmpty = true ∧ f.body.isEmpty = true ∧ (!true) = true) := by simp
    have hcolumns := ht.columns_eq_ok hrs.isColumn f.message.version f.bodyStart
    have hfields : (columnsFrom rs 0 s.fields).map (fun c => columnField c.1) =
        s.fields.map columnField := by
      rw [← map_fst_columnsFrom rs 0 s.fields, List.map_map, map_fst_columnsFrom]
      rfl
    rw [hfields] at hcolumns
    have hrecords := blockRecords_eq_ok hl hrs
    have hchecked : (Seen.checked (s.fields.map columnField)).Knows s := .inr rfl
    unfold readFrames
    rw [if_neg hunended, hheader]
    dsimp only
    rw [hseen.fields?]
    dsimp only
    rw [hcolumns]
    dsimp only
    rw [hseen.check]
    dsimp only
    rw [ht.length_eq, Int.toNat_natCast, hrecords]
    dsimp only
    rw [ih hrest hchecked, List.flatten_cons, List.map_append]
    rfl

/-! ## Streams -/

/-- The stream of blocks of rows. -/
def streamBytes (w : StreamWriter) (s : Schema) (blocks : List (List Record)) : Bytes :=
  writeFrame (w.opening s) [] ++ (blocks.map (blockBytes w s)).flatten ++ endMark

theorem encodeBlock_eq_ok {bytes : Bytes} (hne : s.fields ≠ []) :
    encodeBlock w s rs = .ok bytes ↔ IsFilled s rs ∧
      (w.block rs.length (columnsFrom rs 0 s.fields)).1.length ≤ metadataLimit ∧
      bytes = blockBytes w s rs := by
  constructor
  · intro h
    unfold encodeBlock at h
    cases hcolumns : columnsOf rs 0 s.fields with
    | error e =>
      rw [hcolumns] at h
      cases h
    | ok columns =>
      rw [hcolumns] at h
      dsimp only [bind, Except.bind] at h
      split at h
      · cases h
      · rename_i hsome
        obtain ⟨hfilled, rfl⟩ := isFilled_of_columnsOf hcolumns (by simpa using (not_or.1 hsome).2)
        unfold encodeFrame at h
        split at h
        · rename_i hlen
          exact ⟨hfilled, hlen, (Except.ok.inj h).symm⟩
        · cases h
  · rintro ⟨h, hlen, rfl⟩
    have hcolumns := h.isColumn
    have hsome : ¬ ((columnsFrom rs 0 s.fields).isEmpty = true ∨
        ¬ (columnsFrom rs 0 s.fields).all isWritable = true) := by
      rw [List.isEmpty_iff, not_or, not_not]
      exact ⟨columnsFrom_ne_nil hne rs 0,
        List.all_eq_true.2 fun c hc => (hcolumns c hc).isWritable⟩
    rw [encodeBlock, columnsOf_eq_ok h]
    dsimp only [bind, Except.bind]
    rw [if_neg (by simpa using hsome)]
    exact if_pos hlen

/-- **Blocks are written** as their stream just when each is filled, if the
writer is honest about them and the message that opens the stream is not
too long. -/
theorem encode_eq_ok_iff {data : Bytes} (hne : s.fields ≠ []) (hw : w.IsHonest s blocks) :
    encode w s blocks = .ok data ↔
      (w.opening s).length ≤ metadataLimit ∧ (∀ rs ∈ blocks, IsFilled s rs) ∧
        data = streamBytes w s blocks := by
  by_cases hs : (w.opening s).length ≤ metadataLimit
  · have hopening : encodeFrame (w.opening s) [] = .ok (writeFrame (w.opening s) []) := if_pos hs
    constructor
    · intro h
      rw [encode, hopening] at h
      cases hblocks : blocks.mapM (encodeBlock w s) with
      | error e =>
        rw [hblocks] at h
        cases h
      | ok messages =>
        rw [hblocks] at h
        obtain ⟨hfilled, rfl⟩ := eq_map_of_mapM (P := IsFilled s) (g := blockBytes w s)
          (fun rs bytes hrs => ((encodeBlock_eq_ok hne).1 hrs).imp_right And.right) hblocks
        exact ⟨hs, hfilled, (Except.ok.inj h).symm⟩
    · rintro ⟨-, h, rfl⟩
      rw [encode, hopening, mapM_eq_ok fun rs hrs => (encodeBlock_eq_ok hne).2
        ⟨h rs hrs, (hw.writesBlock hrs (h rs hrs)).length_le, rfl⟩]
      rfl
  · refine iff_of_false (fun h => ?_) fun h => hs h.1
    rw [encode, encodeFrame, if_neg hs] at h
    cases h

/-- **A stream yields the rows of its blocks**, if the message that opens it
is read. -/
theorem decode_streamBytes (hl : Layout.resolve selected s = .ok l) (hw : w.IsHonest s blocks)
    (hlen : (w.opening s).length ≤ metadataLimit)
    (hm : Message.ofBytes? (w.opening s) = some m) (h : ∀ rs ∈ blocks, IsFilled s rs) :
    decode s l (streamBytes w s blocks) = .ok (blocks.flatten.map (handed l)) := by
  have hne := Layout.fields_ne_nil_of_resolve hl
  have hs := hw.isMessage_opening hlen hm
  obtain ⟨fs, hfs, hholds⟩ := exists_framesFrom_eq_ok hw hne h (0 + 1)
    (0 + 8 + (w.opening s).length + 0)
  have hframes : frames (streamBytes w s blocks) =
      .ok ⟨frameAt 0 (w.opening s) [] m :: fs, true⟩ := by
    rw [frames, streamBytes, List.append_assoc, framesFrom_writeFrame hs, List.length_nil, hfs]
    rfl
  have hnonempty : ¬ (streamBytes w s blocks).isEmpty = true := Bool.false_ne_true
  have hunended : ¬ (fs.isEmpty = true ∧ ([] : Bytes).isEmpty = true ∧ (!true) = true) := by simp
  have hknown : (Seen.unchecked (s.fields.map columnField)).Knows s := .inl rfl
  obtain ⟨table, hheader, hcolumns⟩ := (hw.opening m hm).2.exists_columns?_eq
  rw [decode, if_neg hnonempty, hframes]
  dsimp only
  unfold readFrames
  rw [frameAt, if_neg hunended]
  dsimp only
  rw [hheader]
  dsimp only
  rw [hcolumns]
  exact readFrames_eq_ok hl h hholds hknown _ _ _

end Intake.Columns

namespace Intake.Codec

end Intake.Codec

namespace Intake

namespace Sample

/-- The first eight sample rows. The seventh has no score. -/
def eightRows : List Record :=
  [⟨[.int64 0, .string "row-0", .float64 ⟨0⟩]⟩,
    ⟨[.int64 1, .string "row-1", .float64 ⟨0x3FE0000000000000⟩]⟩,
    ⟨[.int64 2, .string "row-2", .float64 ⟨0x3FF0000000000000⟩]⟩,
    ⟨[.int64 3, .string "row-3", .float64 ⟨0x3FF8000000000000⟩]⟩,
    ⟨[.int64 4, .string "row-4", .float64 ⟨0x4000000000000000⟩]⟩,
    ⟨[.int64 5, .string "row-5", .float64 ⟨0x4004000000000000⟩]⟩,
    ⟨[.int64 6, .string "row-6", .null]⟩,
    ⟨[.int64 7, .string "row-7", .float64 ⟨0x400C000000000000⟩]⟩]

/-- Bytes that are given in words of eight. -/
def ofWords (words : List Nat) : Bytes := words.flatMap (Bytes.ofNat 8)

/-- The messages that a service has sent for the schema of sample rows, for
its first eight rows and for none. Every buffer starts at a multiple of 64. -/
def sentWriter : Columns.StreamWriter where
  opening _ := ofWords
    ([0xA000000000010, 0x40009000A000C, 0x100000000A, 0x8000800040100, 0x800040000, 0x300000004,
      0x5C0000009C, 0x16001000000014, 0x4000F000E0010, 0x1000080000, 0x1C00000018, 0x1803010000,
      0x6000800060000, 0x2000000000006, 0x500000000, 0x65726F6373, 0xE001000140010,
      0x800000004000F, 0x1800000010, 0x50100000000000C, 0x10, 0x400040004, 0x656D616E00000004,
      0x14001000000000, 0x4000F00000010, 0x1000080000, 0x2000000018, 0x1C02000000,
      0xB0004000C0008, 0x4000000008, 0x1000000, 0x646900000002] ++ List.replicate 7 0)
  block rows _ :=
    if rows = 0 then
      (ofWords ([0x16000C00000010, 0x8000400130014, 0x1C0000000C, 0x40, 0xA000403000000,
          0x400080000000C, 0x400000000A, 0x300000004] ++ List.replicate 6 0 ++
          [0x700000000, 0, 0, 0, 0, 0, 0, 0, 4, 0x40, 0, 0x40, 0, 0x40, 0, 0, 0]),
        List.replicate 64 0)
    else
      (ofWords [0x1A000C00000010, 0x8000400170018, 0x200000000C, 0x140, 0x300000000000000,
          0xC0018000A0004, 0xA00040008, 0x100000004C, 8, 0x300000000, 8, 0, 8, 0, 8, 1,
          0x700000000, 0, 0, 0, 0x40, 0x40, 0, 0x40, 0x24, 0x80, 0x28, 0xC0, 1, 0x100, 0x40],
        ofWords [0, 1, 2, 3, 4, 5, 6, 7, 0x500000000, 0xF0000000A, 0x1900000014, 0x230000001E,
          0x28, 0, 0, 0, 0x776F72302D776F72, 0x72322D776F72312D, 0x2D776F72332D776F,
          0x6F72352D776F7234, 0x372D776F72362D77, 0, 0, 0, 0xBF, 0, 0, 0, 0, 0, 0, 0, 0,
          0x3FE0000000000000, 0x3FF0000000000000, 0x3FF8000000000000, 0x4000000000000000,
          0x4004000000000000, 0, 0x400C000000000000])

theorem isBlock_eightRows : Columns.IsBlock schema eightRows where
  fits := by simp [eightRows, schema, Cell.Fits, Cell.type?]
  short {i f} hf _ := by
    have hshort : ∀ q ∈ schema.fields.zipIdx,
        ((eightRows.map fun r => r.cells.getD q.2 .null).flatMap
          (Columns.cellBytes q.1.type)).length ≤ Columns.columnLimit := by decide +kernel
    exact hshort (f, i) (List.mem_zipIdx_iff_getElem?.2 hf)

theorem isBlock_nil : Columns.IsBlock schema [] := ⟨nofun, fun _ _ => Nat.zero_le _⟩

/-- The messages are read as these rows and as none. -/
theorem writesBlock_sentWriter :
    sentWriter.WritesBlock 8 (Columns.columnsFrom eightRows 0 schema.fields) ∧
      sentWriter.WritesBlock 0 (Columns.columnsFrom [] 0 schema.fields) := by
  exact ⟨Columns.writesBlock_of_stands
      [(0, 0), (0, 64), (64, 0), (64, 36), (128, 40), (192, 1), (256, 64)]
      isBlock_eightRows.isFilled.isColumn (by decide +kernel) (by decide +kernel)
      (by decide +kernel),
    Columns.writesBlock_of_stands [(0, 0), (0, 0), (0, 0), (0, 4), (64, 0), (64, 0), (64, 0)]
      isBlock_nil.isFilled.isColumn (by decide +kernel) (by decide +kernel) (by decide +kernel)⟩

/-- **The messages that were sent keep to the format**, for blocks of these
rows, of none and of rows that may not be written. -/
theorem implements_sentWriter {blocks : List (List Record)}
    (h : ∀ rs ∈ blocks, ∀ columns, Columns.columnsOf rs 0 schema.fields = .ok columns →
      columns.all Columns.isWritable = true →
        (rs.length, columns) = (8, Columns.columnsFrom eightRows 0 schema.fields) ∨
        (rs.length, columns) = (0, Columns.columnsFrom [] 0 schema.fields)) :
    sentWriter.Implements schema blocks where
  opening_ne_nil := by decide +kernel
  opening m hm := by
    have hread : (Columns.Message.ofBytes? (sentWriter.opening schema)).all
        (fun m => m.bodyLength = 0 ∧ m.header.Describes schema) = true := by decide +kernel
    rw [hm, Option.all_some] at hread
    exact of_decide_eq_true hread
  block rs hrs columns hcolumns hw := by
    rcases h rs hrs columns hcolumns hw with heq | heq
    · obtain ⟨hlen, rfl⟩ := Prod.mk.inj heq
      exact hlen ▸ writesBlock_sentWriter.1
    · obtain ⟨hlen, rfl⟩ := Prod.mk.inj heq
      exact hlen ▸ writesBlock_sentWriter.2
  length_opening_le := by decide +kernel
  isSome_opening := by decide +kernel

/-- Any number of blocks of the first eight rows and of none. -/
theorem implements_sentBlocks {blocks : List (List Record)}
    (h : ∀ rs ∈ blocks, rs = eightRows ∨ rs = []) : sentWriter.Implements schema blocks := by
  refine implements_sentWriter fun rs hrs columns hcolumns _ => ?_
  rcases h rs hrs with rfl | rfl
  · rw [Columns.columnsOf_eq_ok isBlock_eightRows.isFilled] at hcolumns
    cases hcolumns
    exact .inl rfl
  · rw [Columns.columnsOf_eq_ok isBlock_nil.isFilled] at hcolumns
    cases hcolumns
    exact .inr rfl

/-- The layout of the score and the number of sample rows. -/
def scoreLayout : Layout :=
  ⟨[⟨"score", .float64, true⟩, ⟨"id", .int64, false⟩], [2, 0], 3⟩

theorem resolve_score : Layout.resolve ["score", "id"] schema = .ok scoreLayout := by
  decide +kernel

/-- The scores and numbers of the first eight sample rows. -/
def eightScores : List Record :=
  [⟨[.float64 ⟨0⟩, .int64 0]⟩, ⟨[.float64 ⟨0x3FE0000000000000⟩, .int64 1]⟩,
    ⟨[.float64 ⟨0x3FF0000000000000⟩, .int64 2]⟩, ⟨[.float64 ⟨0x3FF8000000000000⟩, .int64 3]⟩,
    ⟨[.float64 ⟨0x4000000000000000⟩, .int64 4]⟩, ⟨[.float64 ⟨0x4004000000000000⟩, .int64 5]⟩,
    ⟨[.null, .int64 6]⟩, ⟨[.float64 ⟨0x400C000000000000⟩, .int64 7]⟩]

end Sample

end Intake
