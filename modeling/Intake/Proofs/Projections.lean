import Intake.Proofs.Columns.Reading
import Intake.Proofs.Layouts
import Intake.Proofs.Rows.Batches
/-!
# Decoding and selecting fields

The fields that are not selected have no say in what the others come to.
Both codecs select while they decode, rows by taking cells out of a row
that has been read, columns by binding only those of the layout. What is
read at each wire position does not depend on the layout, so a pass over
the columns of the whole schema can be thinned out to the columns of a
layout (`Picks.exists_of_forall₂`): it succeeds there too, and with what
the whole pass has at the wire positions. The law follows for the cells of
a row, for rows, for blocks and for streams (`Codec.decode_of_full`).
-/

namespace Intake

/-! ## Items at positions -/

/-- The items of `bs` are those of `as` at the positions `is`, in the order
of the positions. -/
def Picks {α : Type} (is : List Nat) (as bs : List α) : Prop :=
  List.Forall₂ (fun i b => as[i]? = some b) is bs

namespace Picks

variable {α β : Type} {is : List Nat} {as bs : List α}

theorem map (h : Picks is as bs) (f : α → β) : Picks is (as.map f) (bs.map f) := by
  induction h with
  | nil => exact .nil
  | cons hi _ ih => exact .cons (by rw [List.getElem?_map, hi, Option.map_some]) ih

/-- **What is found at each item is found at those that are picked**, and
is picked from all that is found. -/
theorem exists_of_forall₂ {R : α → β → Prop} {cs : List β} (h : Picks is as bs)
    (hR : List.Forall₂ R as cs) : ∃ ds, List.Forall₂ R bs ds ∧ Picks is cs ds := by
  induction h with
  | nil => exact ⟨[], .nil, .nil⟩
  | @cons i b is bs hi _ ih =>
    obtain ⟨ds, hds, hpicks⟩ := ih
    obtain ⟨hlt, hb⟩ := List.getElem?_eq_some_iff.1 hi
    have hlt' : i < cs.length := hR.length_eq ▸ hlt
    have hrel : R b cs[i] := hb ▸ hR.get hlt hlt'
    exact ⟨cs[i] :: ds, .cons hrel hds, .cons (List.getElem?_eq_getElem hlt') hpicks⟩

end Picks

/-- The cells of the record `r'` are those of `r` at the positions `is`. -/
def Record.Picks (is : List Nat) (r r' : Record) : Prop := Intake.Picks is r.cells r'.cells

variable {s : Schema} {selected : List String} {l full : Layout} {records : List Record}

namespace Layout

/-- A schema that has a layout has one of all of its fields. -/
theorem exists_full (h : resolve selected s = .ok l) :
    ∃ full, resolve [] s = .ok full ∧ full.wireIndices = List.range s.size := by
  simp only [resolve, bind, Except.bind, pure, Except.pure] at h ⊢
  split at h
  · cases h
  · exact ⟨_, rfl, rfl⟩

/-- **The columns of a layout are picked** from those of all fields. -/
theorem picks_columns (hl : resolve selected s = .ok l) (hfull : resolve [] s = .ok full)
    (hall : full.wireIndices = List.range s.size) : Picks l.wireIndices full.columns l.columns := by
  have hsnd := snd_columns_of_resolve hfull
  rw [hall] at hsnd
  have hlength : full.columns.length = s.size := by simpa using congrArg List.length hsnd
  rw [Picks, ← snd_columns_of_resolve hl, List.forall₂_map_left_iff, List.forall₂_same]
  intro q hq
  have hlt : q.2 < s.size :=
    lt_size_of_resolve hl q.2 (snd_columns_of_resolve hl ▸ List.mem_map_of_mem hq)
  obtain ⟨q', hq'⟩ : ∃ q', full.columns[q.2]? = some q' :=
    ⟨_, List.getElem?_eq_getElem (hlength ▸ hlt)⟩
  -- the column of all fields at this position is the one with this position
  have hpos : q'.2 = q.2 := by
    have := congrArg (·[q.2]?) hsnd
    simpa [hq', hlt] using this
  have hfield := (columns_of_resolve hfull).2 q' (List.mem_of_getElem? hq')
  rw [hpos, (columns_of_resolve hl).2 q hq, Option.some_inj] at hfield
  rw [hq', Prod.ext hfield.symm hpos]

end Layout

/-! ## Rows -/

namespace Rows

variable {row cs : List Cell} {taken is : List Nat} {columns columns' : List (Field × Nat)}

/-- The cell of a column, converted from the one that the row has at its
position. -/
def Takes (row : List Cell) (q : Field × Nat) (c : Cell) : Prop :=
  row[q.2]?.map (convert q.1) = some (.ok c)

/-- Cells are taken from a row column by column. -/
theorem project_eq_ok_iff (hn : (columns.map Prod.snd).Nodup)
    (hd : taken.Disjoint (columns.map Prod.snd)) :
    project row taken columns = .ok cs ↔ List.Forall₂ (Takes row) columns cs := by
  induction columns generalizing taken cs with
  | nil => rw [project, List.forall₂_nil_left_iff, Except.ok.injEq, eq_comm]
  | cons q columns ih =>
    obtain ⟨f, i⟩ := q
    rw [List.map_cons, List.nodup_cons] at hn
    rw [List.map_cons, List.disjoint_cons_right] at hd
    have hd' : (i :: taken).Disjoint (columns.map Prod.snd) :=
      List.disjoint_cons_left.2 ⟨hn.1, hd.2⟩
    rw [List.forall₂_cons_left_iff, project]
    cases hget : row[i]? with
    | none =>
      refine iff_of_false (by simp) ?_
      rintro ⟨c, cs, htakes, -, -⟩
      simp [Takes, hget] at htakes
    | some c₀ =>
      dsimp only
      rw [if_neg hd.1]
      cases hconv : convert f c₀ with
      | error e =>
        refine iff_of_false (by simp) ?_
        rintro ⟨c, cs, htakes, -, -⟩
        simp [Takes, hget, hconv] at htakes
      | ok c =>
        constructor
        · intro h
          obtain ⟨rest, hrest, rfl⟩ := exists_of_map_eq_ok h
          exact ⟨c, rest, by simp [Takes, hget, hconv], (ih hn.2 hd').1 hrest, rfl⟩
        · rintro ⟨c', rest, htakes, hrest, rfl⟩
          have : c = c' := by simpa [Takes, hget, hconv] using htakes
          simp [(ih hn.2 hd').2 hrest, this, Except.map]

/-- **The cells of a layout are picked** from those of all fields. -/
theorem exists_project (hl : Layout.resolve selected s = .ok l)
    (hfull : Layout.resolve [] s = .ok full) (hpicks : Picks is full.columns l.columns)
    (h : project row [] full.columns = .ok cs) :
    ∃ ds, project row [] l.columns = .ok ds ∧ Picks is cs ds := by
  rw [project_eq_ok_iff (Layout.columns_of_resolve hfull).1 (List.disjoint_nil_left _)] at h
  obtain ⟨ds, hds, hcells⟩ := hpicks.exists_of_forall₂ h
  exact ⟨ds, (project_eq_ok_iff (Layout.columns_of_resolve hl).1 (List.disjoint_nil_left _)).2 hds,
    hcells⟩

/-- The records of rows are read one by one, each from the rest that the one
before it leaves. -/
theorem readRows_succ_eq_ok_iff {declared : UInt64} {count index : Nat} {bs : Bytes} :
    readRows s l declared (count + 1) index bs = .ok records ↔
      bs.isEmpty = false ∧ ∃ row rest cells tail, readRow s.fields bs = some (row, rest) ∧
        project row [] l.columns = .ok cells ∧
        readRows s l declared count (index + 1) rest = .ok tail ∧ ⟨cells⟩ :: tail = records := by
  rw [readRows]
  constructor
  · intro h
    split at h
    · cases h
    rename_i hempty
    split at h
    · cases h
    rename_i row rest hrow
    split at h
    · cases h
    rename_i cells hcells
    obtain ⟨tail, htail, hrecords⟩ := exists_of_map_eq_ok h
    exact ⟨Bool.eq_false_iff.2 hempty, row, rest, cells, tail, hrow, hcells, htail, hrecords⟩
  · rintro ⟨hempty, row, rest, cells, tail, hrow, hcells, htail, rfl⟩
    simp [hempty, hrow, hcells, htail, Except.map]

/-- And so are the records of rows. -/
theorem exists_readRows (hl : Layout.resolve selected s = .ok l)
    (hfull : Layout.resolve [] s = .ok full) (hpicks : Picks is full.columns l.columns)
    {declared : UInt64} {count index : Nat} {bs : Bytes}
    (h : readRows s full declared count index bs = .ok records) :
    ∃ records', readRows s l declared count index bs = .ok records' ∧
      List.Forall₂ (Record.Picks is) records records' := by
  induction count generalizing index bs records with
  | zero =>
    rw [readRows] at h ⊢
    split at h
    · cases h
      rename_i hempty
      exact ⟨[], if_pos hempty, .nil⟩
    · cases h
  | succ count ih =>
    obtain ⟨hempty, row, rest, cells, tail, hrow, hcells, htail, rfl⟩ :=
      readRows_succ_eq_ok_iff.1 h
    obtain ⟨ds, hds, hpicked⟩ := exists_project hl hfull hpicks hcells
    obtain ⟨tail', htail', hrecords⟩ := ih htail
    exact ⟨⟨ds⟩ :: tail',
      readRows_succ_eq_ok_iff.2 ⟨hempty, row, rest, ds, tail', hrow, hds, htail', rfl⟩,
      .cons hpicked hrecords⟩

end Rows

/-! ## Columns -/

namespace Columns

variable {is : List Nat} {wanted wanted' : List (Field × Nat)} {cells : List Cell}
variable {columns : List Column} {bound bound' : List (Field × List Cell)} {index count : Nat}

/-- Columns are bound one by one. -/
theorem bindColumns_eq_ok_iff :
    bindColumns columns wanted = .ok bound ↔
      List.Forall₂ (fun q b => bindColumn columns q.1 q.2 = .ok b) wanted bound := by
  induction wanted generalizing bound with
  | nil => rw [bindColumns, List.forall₂_nil_left_iff, Except.ok.injEq, eq_comm]
  | cons q wanted ih =>
    rw [List.forall₂_cons_left_iff, bindColumns]
    cases hq : bindColumn columns q.1 q.2 with
    | error e => exact iff_of_false nofun fun ⟨_, _, h, _⟩ => nomatch h
    | ok b =>
      constructor
      · intro h
        obtain ⟨rest, hrest, rfl⟩ := exists_of_map_eq_ok h
        exact ⟨b, rest, rfl, ih.1 hrest, rfl⟩
      · rintro ⟨b', rest, hb, hrest, rfl⟩
        cases hb
        dsimp only
        rw [ih.2 hrest]
        rfl

/-- A column gives its first cell to a row, null where it has none left. -/
def Gives (b : Field × List Cell) (c : Cell) : Prop :=
  c = b.2.head?.getD .null ∧ (c.isNull && !b.1.nullable) = false

/-- The cells of a row are given column by column. -/
theorem rowOf_eq_ok_iff : rowOf index bound = .ok cells ↔ List.Forall₂ Gives bound cells := by
  induction bound generalizing cells with
  | nil => rw [rowOf, List.forall₂_nil_left_iff, Except.ok.injEq, eq_comm]
  | cons b bound ih =>
    obtain ⟨f, column⟩ := b
    rw [List.forall₂_cons_left_iff, rowOf]
    by_cases hnull : ((column.head?.getD .null).isNull && !f.nullable) = true
    · rw [if_pos hnull]
      refine iff_of_false nofun ?_
      rintro ⟨c, rest, ⟨rfl, hallowed⟩, -, -⟩
      rw [hnull] at hallowed
      cases hallowed
    · rw [if_neg hnull]
      constructor
      · intro h
        obtain ⟨rest, hrest, rfl⟩ := exists_of_map_eq_ok h
        exact ⟨_, rest, ⟨rfl, Bool.eq_false_iff.2 hnull⟩, ih.1 hrest, rfl⟩
      · rintro ⟨c, rest, ⟨rfl, -⟩, hrest, rfl⟩
        rw [ih.2 hrest]
        rfl

/-- The records of columns are taken one by one, each from the front of the
columns. -/
theorem rowsOf_succ_eq_ok_iff :
    rowsOf (count + 1) index bound = .ok records ↔
      ∃ cells tail, rowOf index bound = .ok cells ∧
        rowsOf count (index + 1) (bound.map fun b => (b.1, b.2.tail)) = .ok tail ∧
        ⟨cells⟩ :: tail = records := by
  rw [rowsOf]
  constructor
  · intro h
    split at h
    · cases h
    rename_i cells hcells
    obtain ⟨tail, htail, hrecords⟩ := exists_of_map_eq_ok h
    exact ⟨cells, tail, hcells, htail, hrecords⟩
  · rintro ⟨cells, tail, hcells, htail, rfl⟩
    simp [hcells, htail, Except.map]

/-- **The records of picked columns are picked** from those of all. -/
theorem exists_rowsOf (hpicks : Picks is bound bound')
    (h : rowsOf count index bound = .ok records) :
    ∃ records', rowsOf count index bound' = .ok records' ∧
      List.Forall₂ (Record.Picks is) records records' := by
  induction count generalizing index bound bound' records with
  | zero =>
    cases h
    exact ⟨[], rfl, .nil⟩
  | succ count ih =>
    obtain ⟨cells, tail, hcells, htail, rfl⟩ := rowsOf_succ_eq_ok_iff.1 h
    obtain ⟨ds, hds, hpicked⟩ := hpicks.exists_of_forall₂ (rowOf_eq_ok_iff.1 hcells)
    obtain ⟨tail', htail', hrecords⟩ := ih (hpicks.map fun b => (b.1, b.2.tail)) htail
    exact ⟨⟨ds⟩ :: tail',
      rowsOf_succ_eq_ok_iff.2 ⟨ds, tail', rowOf_eq_ok_iff.2 hds, htail', rfl⟩,
      .cons hpicked hrecords⟩

/-- The records of a block are those of the columns that are bound. -/
theorem blockRecords_eq_ok_iff :
    blockRecords l count columns = .ok records ↔
      ∃ bound, bindColumns columns l.columns = .ok bound ∧ rowsOf count 0 bound = .ok records := by
  rw [blockRecords]
  cases bindColumns columns l.columns with
  | error e => exact iff_of_false (by simp) (by simp)
  | ok bound =>
    cases hrows : rowsOf count 0 bound with
    | error e => simp [hrows, Except.mapError]
    | ok rows => simp [hrows, Except.mapError]

/-- So are the records of a block. -/
theorem exists_blockRecords (hpicks : Picks is full.columns l.columns)
    (h : blockRecords full count columns = .ok records) :
    ∃ records', blockRecords l count columns = .ok records' ∧
      List.Forall₂ (Record.Picks is) records records' := by
  obtain ⟨bound, hbound, hrows⟩ := blockRecords_eq_ok_iff.1 h
  obtain ⟨bound', hbound', hpicked⟩ := hpicks.exists_of_forall₂ (bindColumns_eq_ok_iff.1 hbound)
  obtain ⟨records', hrows', hrecords⟩ := exists_rowsOf hpicked hrows
  exact ⟨records', blockRecords_eq_ok_iff.2 ⟨bound', bindColumns_eq_ok_iff.2 hbound', hrows'⟩,
    hrecords⟩

/-- And those that a message adds. -/
theorem exists_adds? {names : List String} {seen seen' : Seen} {f : Frame}
    (hpicks : Picks is full.columns l.columns)
    (h : f.adds? names full seen = some (seen', records)) :
    ∃ records', f.adds? names l seen = some (seen', records') ∧
      List.Forall₂ (Record.Picks is) records records' := by
  unfold Frame.adds? at h ⊢
  cases hheader : f.message.header with
  | block table =>
    rw [hheader] at h
    dsimp only at h ⊢
    split at h
    · cases h
    rename_i fields hfields
    split at h
    · rename_i columns seen₁ hcolumns hcheck
      obtain ⟨rows, hrows, heq⟩ := Option.map_eq_some_iff.1 h
      cases heq
      obtain ⟨rows', hrows', hrecords⟩ := exists_blockRecords hpicks (toOption_eq_some.1 hrows)
      rw [toOption_eq_some.2 hrows']
      exact ⟨rows', rfl, hrecords⟩
    · cases h
  | schema table =>
    rw [hheader] at h
    dsimp only at h ⊢
    split at h
    · cases h
      exact ⟨[], rfl, .nil⟩
    · cases h
  | _ =>
    rw [hheader] at h
    cases h
    exact ⟨[], rfl, .nil⟩

/-- And those of a stream. -/
theorem exists_yields? {names : List String} {ended : Bool} {fs : List Frame} {seen : Seen}
    (hpicks : Picks is full.columns l.columns)
    (h : yields? names full ended fs seen = some records) :
    ∃ records', yields? names l ended fs seen = some records' ∧
      List.Forall₂ (Record.Picks is) records records' := by
  induction fs generalizing seen records with
  | nil =>
    rw [yields?] at h ⊢
    split at h
    · cases h
    · cases h
    · cases h
      exact ⟨[], rfl, .nil⟩
  | cons f fs ih =>
    obtain ⟨hread, seen', here, rest, hadds, hrest, rfl⟩ := yields?_cons_eq_some.1 h
    obtain ⟨here', hadds', hhere⟩ := exists_adds? hpicks hadds
    obtain ⟨rest', hrest', hrecords⟩ := ih hrest
    exact ⟨here' ++ rest', yields?_cons_eq_some.2 ⟨hread, seen', here', rest', hadds', hrest', rfl⟩,
      List.rel_append hhere hrecords⟩

end Columns

/-! ## Batches -/

namespace Codec

/-- **Selecting fields commutes with decoding.** Whatever the bytes and the
rows that a batch declares, if it decodes with the layout of all fields, it
decodes with a layout of selected ones, and every record has the cells that
the whole record has at the wire positions of the layout, in its order. -/
theorem decode_of_full {format : WireFormat} {c : Codec}
    (hl : Layout.resolve selected s = .ok l) (hc : forFormat format s = .ok c) :
    ∃ full, Layout.resolve [] s = .ok full ∧
      ∀ (b : Batch) (rows : List Record), c.decode full b = .ok rows →
        ∃ records, c.decode l b = .ok records ∧
          List.Forall₂ (Record.Picks l.wireIndices) rows records := by
  obtain ⟨full, hfull, hall⟩ := Layout.exists_full hl
  have hpicks := Layout.picks_columns hl hfull hall
  refine ⟨full, hfull, fun b rows h => ?_⟩
  obtain rfl := eq_of_forFormat hc
  cases format with
  | avro =>
    obtain ⟨hformat, hread⟩ := decode_avro_eq_ok.1 h
    obtain ⟨records, hrecords, hcells⟩ := Rows.exists_readRows hl hfull hpicks hread
    exact ⟨records, decode_avro_eq_ok.2 ⟨hformat, hrecords⟩, hcells⟩
  | arrow =>
    obtain ⟨hformat, hread, hlength⟩ := decode_arrow_eq_ok.1 h
    obtain ⟨fs, hfs, hyields⟩ := Columns.decode_eq_ok.1 hread
    obtain ⟨records, hrecords, hcells⟩ := Columns.exists_yields? hpicks hyields
    exact ⟨records, decode_arrow_eq_ok.2 ⟨hformat, Columns.decode_eq_ok.2 ⟨fs, hfs, hrecords⟩,
      hcells.length_eq ▸ hlength⟩, hcells⟩

/-- The name comes in front of the number, without the value between them,
in each of two rows. -/
theorem decode_measured_of_full :
    ∃ data, Rows.encode Sample.measured Sample.measuredRows = .ok data ∧
      ∃ records,
        decode ⟨.avro, Sample.measured⟩
            ⟨[⟨"name", .string, true⟩, ⟨"id", .int64, false⟩], [2, 0], 3⟩ ⟨.avro, 2, data⟩ =
          .ok records ∧
        List.Forall₂ (Record.Picks [2, 0]) Sample.measuredRows records := by
  have hl : Layout.resolve ["name", "id"] Sample.measured =
      .ok ⟨[⟨"name", .string, true⟩, ⟨"id", .int64, false⟩], [2, 0], 3⟩ := by decide +kernel
  have hc : forFormat .avro Sample.measured = .ok ⟨.avro, Sample.measured⟩ := by decide +kernel
  have hrun : (Rows.encode Sample.measured Sample.measuredRows).map (fun data =>
      decode ⟨.avro, Sample.measured⟩ ⟨Sample.measured.fields, [0, 1, 2], 3⟩ ⟨.avro, 2, data⟩) =
        .ok (.ok Sample.measuredRows) := by decide +kernel
  obtain ⟨data, hdata, hrows⟩ := exists_of_map_eq_ok hrun
  obtain ⟨full, hfull, hselect⟩ := decode_of_full hl hc
  have hall : Layout.resolve [] Sample.measured =
      .ok ⟨Sample.measured.fields, [0, 1, 2], 3⟩ := by decide +kernel
  obtain rfl := Except.ok.inj (hall.symm.trans hfull)
  exact ⟨data, hdata, hselect _ _ hrows⟩

end Codec

end Intake
