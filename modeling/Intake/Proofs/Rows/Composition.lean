import Intake.Proofs.Expansion
import Intake.Proofs.Rows.Batches
import Intake.Proofs.Rows.Truncation
/-!
# Row batches put together

Nothing stands between the rows of a batch, so that the bytes of a row have
to tell by themselves where it ends. They do, whatever follows: rows
written in front of any bytes come out in front of the records of these
(`Rows.decode_append`). And a fault in the bytes behind is the one that
is met without the rows, but for the rows counted in and the place moved on
by their length (`Codec.decode_encode_append`). So a batch that declares
fewer or more rows than it holds is refused where the first row too many
starts, or the first one missing would.

This is not so of rows with a string that is longer than the reader takes,
nor of batches that break off in a row (`Codec.decode_long_cell`).
-/

namespace Intake

/-- A cause met in bytes that stand behind `n` rows of a batch that declares
`declared`: its rows are counted from the first of the batch. -/
def DecodeCause.behind (n : Nat) (declared : UInt64) : DecodeCause → DecodeCause
  | .row index fault => .row (n + index) fault
  | .rowsMissing _ found => .rowsMissing declared (n + found)
  | .trailingBytes count _ => .trailingBytes count declared
  | cause => cause

namespace Rows

variable {s : Schema} {l : Layout} {rows front back : List Record} {r : Record}
variable {bs : Bytes} {selected : List String} {declared m : UInt64} {count index left : Nat}
variable {cause : DecodeCause} {e : DecodeError}

/-! ## The reader of rows -/

/-- From where a fault was met no more bytes are left than there were. -/
theorem left_le_of_readRows
    (h : readRows s l declared count index bs = .error (cause, left)) : left ≤ bs.length := by
  induction count generalizing index bs with
  | zero =>
    rw [readRows] at h
    split at h <;> cases h
    exact Nat.le_refl _
  | succ count ih =>
    rw [readRows] at h
    split at h
    · cases h
      exact Nat.zero_le _
    split at h
    · cases h
      exact Nat.le_refl _
    rename_i row rest hrow
    split at h
    · cases h
      exact Nat.le_refl _
    exact Nat.le_trans (ih (eq_error_of_map h)) (length_of_readRow_le hrow)

/-- **The reader counts rows and does nothing else with their numbers**: it
reads behind `n` rows what it reads behind none. -/
theorem readRows_behind (n : Nat) (declared' : UInt64) :
    readRows s l declared' count (n + index) bs =
      (readRows s l declared count index bs).mapError fun e => (e.1.behind n declared', e.2) := by
  induction count generalizing index bs with
  | zero =>
    simp only [readRows]
    split <;> rfl
  | succ count ih =>
    simp only [readRows]
    split
    · rfl
    cases readRow s.fields bs with
    | none => rfl
    | some taken =>
      obtain ⟨row, rest⟩ := taken
      dsimp only
      cases project row [] l.columns with
      | error fault => rfl
      | ok cells =>
        dsimp only
        rw [Nat.add_assoc, ih]
        cases readRows s l declared count (index + 1) rest <;> rfl

/-! ## Batches -/

/-- Every fault of a row batch has a place in it. -/
theorem decode_eq_error_iff :
    decode s l declared bs = .error e ↔
      ∃ cause left, readRows s l declared declared.toNat 0 bs = .error (cause, left) ∧
        e = ⟨cause, some (bs.length - left)⟩ := by
  rw [decode]
  cases readRows s l declared declared.toNat 0 bs with
  | error fault =>
    obtain ⟨cause, left⟩ := fault
    simp [Except.mapError, eq_comm]
  | ok xs => simp [Except.mapError]

/-- **What stands behind rows is decoded as by itself**: its records come
behind theirs, and its faults are the ones it has alone, behind them. -/
theorem decode_append (hl : Layout.resolve selected s = .ok l)
    (hr : ∀ r ∈ rows, RowFits s.fields r.cells)
    (hread : ∀ r ∈ rows, isReadableRow s.fields r.cells = true)
    (hn : declared.toNat = rows.length + m.toNat) (t : Bytes) :
    (∀ xs, decode s l declared (writeRows s rows ++ t) = .ok xs ↔
        ∃ ys, decode s l m t = .ok ys ∧ xs = rows.map (fun r => l.pick r.cells) ++ ys) ∧
      ∀ e, decode s l m t = .error e → ∃ place, e.offset = some place ∧
        decode s l declared (writeRows s rows ++ t) =
          .error ⟨e.cause.behind rows.length declared,
            some (place + (writeRows s rows).length)⟩ := by
  have hrun : readRows s l declared declared.toNat 0 (writeRows s rows ++ t) =
      ((readRows s l m m.toNat 0 t).mapError fun e => (e.1.behind rows.length declared, e.2)).map
        (rows.map (fun r => l.pick r.cells) ++ ·) := by
    rw [hn, readRows_append hl hr (fun r h => .of_isReadableRow (hread r h)) hread,
      readRows_behind]
  refine ⟨fun xs => ?_, fun e he => ?_⟩
  · simp only [decode_eq_ok_iff, hrun]
    cases readRows s l m m.toNat 0 t with
    | error e => simp [Except.mapError, Except.map]
    | ok ys => simp [Except.mapError, Except.map, eq_comm]
  · obtain ⟨cause, left, hfault, rfl⟩ := decode_eq_error_iff.1 he
    have hle := left_le_of_readRows hfault
    refine ⟨_, rfl, decode_eq_error_iff.2 ⟨cause.behind rows.length declared, left, ?_, ?_⟩⟩
    · rw [hrun, hfault]
      rfl
    · rw [List.length_append]
      congr 2
      omega

/-- Behind rows that can be read, one that cannot is refused where it
starts, whatever stands behind it. -/
theorem decode_append_unreadable (hl : Layout.resolve selected s = .ok l)
    (hr : ∀ r' ∈ front ++ r :: back, RowFits s.fields r'.cells)
    (hread : ∀ r' ∈ front, isReadableRow s.fields r'.cells = true)
    (hfault : isReadableRow s.fields r.cells = false)
    (hlen : (writeRows s (front ++ r :: back)).length ≤ vectorLimit)
    (hn : front.length < declared.toNat) (t : Bytes) :
    decode s l declared (writeRows s (front ++ r :: back) ++ t) =
      .error ⟨.row front.length .malformed, some (writeRows s front).length⟩ := by
  obtain ⟨k, hk⟩ := Nat.exists_eq_add_of_lt hn
  refine decode_eq_error_iff.2 ⟨.row front.length .malformed,
    (writeRows s (r :: back) ++ t).length, ?_, ?_⟩
  · rw [hk, Nat.add_assoc]
    exact readRows_append_unreadable hl hr (rowHolds_of_length hlen) hread hfault
  · rw [writeRows_append, List.append_assoc, List.length_append, Nat.add_sub_cancel]

/-- Bytes that are declared as no rows are surplus. -/
theorem decode_surplus (hbs : bs.isEmpty = false) :
    decode s l 0 bs = .error ⟨.trailingBytes bs.length 0, some 0⟩ := by
  refine decode_eq_error_iff.2 ⟨.trailingBytes bs.length 0, bs.length, ?_, by rw [Nat.sub_self]⟩
  rw [UInt64.toNat_zero, readRows, hbs]
  rfl

/-- No bytes that are declared as rows are none of them. -/
theorem decode_missing (hm : m.toNat ≠ 0) :
    decode s l m [] = .error ⟨.rowsMissing m 0, some 0⟩ := by
  obtain ⟨k, hk⟩ := Nat.exists_eq_succ_of_ne_zero hm
  exact decode_eq_error_iff.2 ⟨.rowsMissing m 0, 0, by rw [hk]; rfl, rfl⟩

/-- **A batch that declares another number of rows than it holds is
refused**: one that declares fewer where the first row too many starts, one
that declares more at its end. -/
theorem decode_miscounted (hl : Layout.resolve selected s = .ok l)
    (hr : ∀ r ∈ rows, RowFits s.fields r.cells)
    (hread : ∀ r ∈ rows, isReadableRow s.fields r.cells = true)
    (hn : declared.toNat ≠ rows.length) :
    decode s l declared (writeRows s rows) =
      .error ⟨if declared.toNat < rows.length then
          .trailingBytes (writeRows s (rows.drop declared.toNat)).length declared
        else .rowsMissing declared rows.length,
        some (writeRows s (rows.take declared.toNat)).length⟩ := by
  rcases Nat.lt_or_gt_of_ne hn with hlt | hgt
  · -- the bytes of the rows from there on stand behind as many rows as declared
    have hback : (writeRows s (rows.drop declared.toNat)).isEmpty = false := by
      have hfit := hr _ (List.getElem_mem hlt)
      rw [List.drop_eq_getElem_cons hlt]
      exact isEmpty_writeRow_append hfit (Layout.fields_ne_nil_of_resolve hl) _
    have hsum : declared.toNat = (rows.take declared.toNat).length + (0 : UInt64).toNat :=
      (List.length_take_of_le (Nat.le_of_lt hlt)).symm
    obtain ⟨place, hplace, hfault⟩ := (decode_append hl
      (fun r h => hr r (List.mem_of_mem_take h)) (fun r h => hread r (List.mem_of_mem_take h))
      hsum _).2 _ (decode_surplus hback)
    obtain rfl := Option.some.inj hplace
    rw [if_pos hlt]
    rwa [← writeRows_append, List.take_append_drop, Nat.zero_add, DecodeCause.behind] at hfault
  · -- nothing stands behind the rows, and there is a row more
    have hrest : (UInt64.ofNat (declared.toNat - rows.length)).toNat =
        declared.toNat - rows.length :=
      UInt64.toNat_ofNat_of_lt' (Nat.lt_of_le_of_lt (Nat.sub_le _ _) declared.toNat_lt)
    have hsum : declared.toNat =
        rows.length + (UInt64.ofNat (declared.toNat - rows.length)).toNat := by
      rw [hrest]
      omega
    obtain ⟨place, hplace, hfault⟩ := (decode_append hl hr hread hsum []).2 _
      (decode_missing (by rw [hrest]; omega))
    obtain rfl := Option.some.inj hplace
    rw [if_neg (Nat.lt_asymm hgt), List.take_of_length_le (Nat.le_of_lt hgt)]
    rwa [List.append_nil, Nat.zero_add, DecodeCause.behind, Nat.add_zero] at hfault

end Rows

namespace Codec

open Rows in
/-- **Decoding goes along with putting together.** There is a row batch for
rows each of which has a cell for every field of the schema that fits, none
of them a longer string than the reader takes. With any bytes behind it,
declared as `m` rows more, the codec yields records just when it yields
some of these bytes as `m` rows, with those of the rows in front; and where
it refuses these bytes it refuses them behind the rows, with the rows
counted in and the place moved on by the length of the batch. Told any
other number of rows, the batch alone is refused where the first surplus
row starts or the first missing one would. -/
theorem decode_encode_append {s : Schema} {selected : List String} {l : Layout} {codec : Codec}
    {rows : List Record} (hl : Layout.resolve selected s = .ok l)
    (hc : forFormat .avro s = .ok codec) (hfit : ∀ r ∈ rows, RowFits s.fields r.cells)
    (hread : ∀ r ∈ rows, isReadableRow s.fields r.cells = true) :
    ∃ data, encode s rows = .ok data ∧
      (∀ (t : Bytes) (m declared : UInt64), declared.toNat = rows.length + m.toNat →
        (∀ xs, codec.decode l ⟨.avro, declared, data ++ t⟩ = .ok xs ↔
          ∃ ys, codec.decode l ⟨.avro, m, t⟩ = .ok ys ∧
            xs = rows.map (fun r => ⟨l.wireIndices.map fun i => r.cells.getD i .null⟩) ++ ys) ∧
        ∀ e, codec.decode l ⟨.avro, m, t⟩ = .error e → ∃ place, e.offset = some place ∧
          codec.decode l ⟨.avro, declared, data ++ t⟩ =
            .error ⟨e.cause.behind rows.length declared, some (place + data.length)⟩) ∧
      ∀ declared : UInt64, declared.toNat ≠ rows.length →
        ∃ front back, encode s (rows.take declared.toNat) = .ok front ∧
          encode s (rows.drop declared.toNat) = .ok back ∧ data = front ++ back ∧
          codec.decode l ⟨.avro, declared, data⟩ =
            .error ⟨if declared.toNat < rows.length then .trailingBytes back.length declared
              else .rowsMissing declared rows.length, some front.length⟩ := by
  obtain ⟨haccepts, rfl⟩ := forFormat_avro_eq_ok.1 hc
  have hencode : ∀ {part}, (∀ r ∈ part, RowFits s.fields r.cells) →
      encode s part = .ok (writeRows s part) := by
    intro part hpart
    rw [encode, if_pos haccepts]
    exact encodeRows_eq_ok.2 ⟨hpart, rfl⟩
  have hpick : rows.map (fun r => l.pick r.cells) =
      rows.map fun r => ⟨l.wireIndices.map fun i => r.cells.getD i .null⟩ :=
    List.map_congr_left fun r h => pick_eq_of_rowFits hl (hfit r h)
  refine ⟨writeRows s rows, hencode hfit, fun t m declared hn => ?_, fun declared hn => ?_⟩
  · rw [← hpick]
    exact Rows.decode_append hl hfit hread hn t
  · refine ⟨_, _, hencode fun r h => hfit r (List.mem_of_mem_take h),
      hencode fun r h => hfit r (List.mem_of_mem_drop h), ?_, decode_miscounted hl hfit hread hn⟩
    rw [← writeRows_append, List.take_append_drop]

end Codec

namespace Sample

/-- A row with a name and one without. -/
def twoNames : List Record := [⟨[.int64 5, .string "ab"]⟩, ⟨[.int64 6, .null]⟩]

end Sample

/-- A third row behind two is read with them. A byte behind it is told where
it stands behind all three, and that there are two rows and not one where
the second starts. -/
theorem Codec.decode_encode_twoNames :
    ∃ data, Rows.encode Sample.named Sample.twoNames = .ok data ∧
      Codec.decode ⟨.avro, Sample.named⟩ Sample.namedLayout ⟨.avro, 3, data ++ [14, 0]⟩ =
        .ok (Sample.twoNames ++ [⟨[.int64 7, .null]⟩]) ∧
      Codec.decode ⟨.avro, Sample.named⟩ Sample.namedLayout ⟨.avro, 3, data ++ [14, 0, 1]⟩ =
        .error ⟨.trailingBytes 1 3, some (2 + data.length)⟩ ∧
      ∃ front back, Rows.encode Sample.named [⟨[.int64 5, .string "ab"]⟩] = .ok front ∧
        Rows.encode Sample.named [⟨[.int64 6, .null]⟩] = .ok back ∧ data = front ++ back ∧
        Codec.decode ⟨.avro, Sample.named⟩ Sample.namedLayout ⟨.avro, 1, data⟩ =
          .error ⟨.trailingBytes back.length 1, some front.length⟩ := by
  have hl : Layout.resolve [] Sample.named = .ok Sample.namedLayout := rfl
  have hfit : ∀ r ∈ Sample.twoNames, Rows.RowFits Sample.named.fields r.cells := by
    simp [Sample.twoNames, Sample.named, Rows.RowFits, Cell.Fits, Cell.type?]
  have hseven : Codec.decode ⟨.avro, Sample.named⟩ Sample.namedLayout ⟨.avro, 1, [14, 0]⟩ =
      .ok [⟨[.int64 7, .null]⟩] := by decide +kernel
  have hsurplus : Codec.decode ⟨.avro, Sample.named⟩ Sample.namedLayout ⟨.avro, 1, [14, 0, 1]⟩ =
      .error ⟨.trailingBytes 1 1, some 2⟩ := by decide +kernel
  obtain ⟨data, hdata, happend, hmiscounted⟩ :=
    decode_encode_append hl rfl hfit (by decide +kernel)
  obtain ⟨place, hplace, hbehind⟩ := (happend [14, 0, 1] 1 3 rfl).2 _ hsurplus
  obtain rfl := Option.some.inj hplace
  exact ⟨data, hdata, ((happend [14, 0] 1 3 rfl).1 _).2 ⟨_, hseven, rfl⟩, hbehind,
    hmiscounted 1 (by decide)⟩

namespace Sample

/-- A schema of one column of byte strings, and a row with one that is longer
by a byte than the reader takes. -/
def blobs : Schema := ⟨[⟨"blob", .bytes, false⟩]⟩

def blobLayout : Layout := ⟨[⟨"blob", .bytes, false⟩], [0], 1⟩

def longBlob : Record := ⟨[.bytes (List.replicate (Rows.longest + 1) 0)]⟩

theorem length_writeRows_longBlob :
    (Rows.writeRows blobs [longBlob]).length ≤ Rows.vectorLimit := by
  have hlongest := Rows.longest_eq
  have hlimit := Rows.vectorLimit_eq
  have hlong : Rows.longest + 1 ≤ Rows.vectorLimit := by omega
  have hprefix := Rows.length_writeInt_natCast_le hlong
  have hlen : (Rows.writeRows blobs [longBlob]).length =
      (Rows.writeInt (Rows.longest + 1 : Nat)).length + (Rows.longest + 1) := by
    simp [Rows.writeRows, Rows.writeRow, blobs, longBlob, Rows.writeField, Rows.writeCell]
  omega

end Sample

open Rows in
/-- A batch of one row with too long a cell is refused, though no bytes stand
behind it and no bytes are a batch of no rows. And a batch that holds no
whole row, but all of one but its last byte, is taken for one of one
row. -/
theorem Codec.decode_long_cell :
    (Layout.resolve [] Sample.blobs = .ok Sample.blobLayout ∧
      forFormat .avro Sample.blobs = .ok ⟨.avro, Sample.blobs⟩ ∧
      RowFits Sample.blobs.fields Sample.longBlob.cells ∧
      Codec.decode ⟨.avro, Sample.blobs⟩ Sample.blobLayout ⟨.avro, 0, []⟩ = .ok [] ∧
      ∃ data, encode Sample.blobs [Sample.longBlob] = .ok data ∧
        Codec.decode ⟨.avro, Sample.blobs⟩ Sample.blobLayout ⟨.avro, 1, data ++ []⟩ =
          .error ⟨.row 0 .malformed, some 0⟩) ∧
      ∃ data, encode Sample.named [⟨[.int64 5, .string "ab"]⟩] = .ok data ∧
        Codec.decode ⟨.avro, Sample.named⟩ Sample.namedLayout ⟨.avro, 1, data.dropLast⟩ =
          .ok [⟨[.int64 5, .null]⟩] := by
  have hl : Layout.resolve [] Sample.blobs = .ok Sample.blobLayout := rfl
  have hfits : RowFits Sample.blobs.fields Sample.longBlob.cells :=
    ⟨by simp [Cell.Fits, Cell.type?], trivial⟩
  have hfit : ∀ r ∈ [] ++ Sample.longBlob :: [], RowFits Sample.blobs.fields r.cells := by
    rintro r hr
    obtain rfl := List.mem_singleton.1 hr
    exact hfits
  have hfault : isReadableRow Sample.blobs.fields Sample.longBlob.cells = false := by
    simp [isReadableRow, Sample.blobs, Sample.longBlob, isReadable]
  refine ⟨⟨hl, rfl, hfits, rfl, writeRows Sample.blobs [Sample.longBlob], ?_, ?_⟩, _, rfl,
    by decide +kernel⟩
  · rw [encode, if_pos (by decide +kernel)]
    exact encodeRows_eq_ok.2 ⟨hfit, rfl⟩
  · have hnone : ∀ r ∈ ([] : List Record), isReadableRow Sample.blobs.fields r.cells = true :=
      List.forall_mem_nil _
    exact decode_append_unreadable hl hfit hnone hfault Sample.length_writeRows_longBlob
      (by decide) []

end Intake
