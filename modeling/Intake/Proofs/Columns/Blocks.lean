import Intake.Proofs.Columns.Values
import Intake.Proofs.Rows.Batches
/-!
# Blocks read back

The message of a block is read column by column: each column takes its own
node and buffers and leaves those of the columns behind it
(`buildColumn_eq_ok`). So what a block describes is what is read of it
(`BlockTable.Describes.columns_eq_ok`), and the layout takes from the
columns of rows the cells that it takes from the rows
(`blockRecords_eq_ok`).
-/

namespace Intake.Columns

variable {src : Source} {nodes : List (Nat × Nat)} {places ps : List (Int × Int)}
variable {p : Int × Int} {b : Bytes} {bufs : List Bytes} {type : FieldType} {cells : List Cell}

/-! ## Columns of a schema -/

/-- The column that a field is written to. -/
def columnField (f : Field) : ColumnField := .mk f.name f.nullable (columnType f.type) []

/-- What is told of a field is read as the column it is written to. -/
theorem FieldTable.Describes.fieldOf?_eq {t : FieldTable} {f : Field} (h : t.Describes f) :
    fieldOf? t = some (columnField f) := by
  obtain ⟨name, nullable, type, dictionary, children, notes⟩ := t
  obtain ⟨rfl, rfl, rfl, rfl, rfl⟩ := h
  obtain ⟨name, type, nullable⟩ := f
  cases type <;> simp [fieldOf?, typeTable, usesChildren, typeOf?, leafType?, keyed?,
    fullNotes, columnField, columnType, intWidth?, timeUnit?]

theorem fieldsOf?_eq {ts : List FieldTable} {fields : List Field}
    (h : List.Forall₂ FieldTable.Describes ts fields) :
    fieldsOf? ts = some (fields.map columnField) := by
  induction h with
  | nil => rfl
  | cons ht _ ih =>
    rw [fieldsOf?, ht.fieldOf?_eq, ih]
    rfl

/-- None of the columns of a schema holds decimals, which are the only ones
that the order of bytes matters to. -/
theorem not_any_decimal {ts : List FieldTable} {fields : List Field}
    (h : List.Forall₂ FieldTable.Describes ts fields) :
    (ts.any fun t => match t with
      | .mk _ _ (.decimal ..) _ _ _ => true
      | _ => false) = false := by
  induction h with
  | nil => rfl
  | @cons t f ts fields ht _ ih =>
    obtain ⟨name, nullable, type, dictionary, children, notes⟩ := t
    obtain ⟨-, -, rfl, -, -⟩ := ht
    rw [List.any_cons, ih, Bool.or_false]
    cases f.type <;> rfl

/-- **The header of a schema is read as the columns that its fields are
written to.** -/
theorem Header.Describes.exists_columns?_eq {header : Header} {s : Schema}
    (h : header.Describes s) :
    ∃ t, header = .schema t ∧ t.columns? = some (s.fields.map columnField) := by
  unfold Header.Describes at h
  split at h
  · rename_i bigEndian fields
    refine ⟨_, rfl, ?_⟩
    rw [SchemaTable.columns?]
    dsimp only [bind, Option.bind]
    refine (if_neg ?_).trans (fieldsOf?_eq h)
    rw [Bool.and_eq_true]
    exact fun hboth => Bool.false_ne_true ((not_any_decimal h).symm.trans hboth.2)
  · exact h.elim

/-! ## Taking from the lists of a block -/

/-- What a block has left from some node and some buffer on. -/
def listsFrom (nodes : List (Nat × Nat)) (places : List (Int × Int)) : Lists :=
  ⟨told nodes, places, []⟩

theorem nextNode_eq_ok {length nulls : Nat} :
    nextNode (listsFrom ((length, nulls) :: nodes) places) =
      .ok ((length, nulls), listsFrom nodes places) := rfl

/-- **The next buffer is the one that stands at its place.** -/
theorem nextBuffer_eq_ok (h : Stands src.body p b) :
    nextBuffer src (listsFrom nodes (p :: places)) = .ok (b, listsFrom nodes places) := by
  obtain ⟨start, size⟩ := p
  obtain ⟨hstart, hsize, hroom, hbuffer⟩ := h
  dsimp only at hstart hsize hroom hbuffer
  have hinside : 0 ≤ start ∧ 0 ≤ size ∧ start + size ≤ src.body.length := by omega
  have hplaced : nextPlaced src (listsFrom nodes ((start, size) :: places)) =
      .ok ((src.start + start.toNat, b), listsFrom nodes places) := by
    have hsplit : nextPlaced src (listsFrom nodes ((start, size) :: places)) =
        (if 0 ≤ start ∧ 0 ≤ size ∧ start + size ≤ src.body.length then
          pure (src.start + start.toNat, (src.body.drop start.toNat).take size.toNat)
        else nonsense : Build (Nat × Bytes)) (listsFrom nodes places) := rfl
    rw [hsplit, if_pos hinside, hsize, Int.toNat_natCast, hbuffer]
    rfl
  rw [nextBuffer, bind_eq_of_ok hplaced]
  rfl

/-! ## Columns of a block -/

variable {b₁ b₂ b₃ : Bytes} {n k : Nat} {column : Column}

/-- A column of bits or words takes its node and two buffers. -/
theorem eq_ok_of_two {build : Nat → Nat → Bytes → Bytes → Build Column}
    (hps : List.Forall₂ (Stands src.body) ps [b₁, b₂])
    (hbuild : ∀ l, build n k b₁ b₂ l = .ok (column, l)) :
    (do
        let (length, nulls) ← nextNode
        let nullBuffer ← nextBuffer src
        let values ← nextBuffer src
        build length nulls nullBuffer values) (listsFrom ((n, k) :: nodes) (ps ++ places)) =
      .ok (column, listsFrom nodes places) := by
  obtain _ | ⟨h₁, _ | ⟨h₂, _ | _⟩⟩ := hps
  rw [bind_eq_of_ok nextNode_eq_ok]
  dsimp only
  rw [List.cons_append, bind_eq_of_ok (nextBuffer_eq_ok h₁), List.cons_append,
    bind_eq_of_ok (nextBuffer_eq_ok h₂), List.nil_append, hbuild]

/-- A column of texts or byte strings takes its node and three buffers. -/
theorem eq_ok_of_three {build : Nat → Nat → Bytes → Bytes → Bytes → Build Column}
    (hps : List.Forall₂ (Stands src.body) ps [b₁, b₂, b₃])
    (hbuild : ∀ l, build n k b₁ b₂ b₃ l = .ok (column, l)) :
    (do
        let (length, nulls) ← nextNode
        let nullBuffer ← nextBuffer src
        let offsetBuffer ← nextBuffer src
        let values ← nextBuffer src
        build length nulls nullBuffer offsetBuffer values)
          (listsFrom ((n, k) :: nodes) (ps ++ places)) =
      .ok (column, listsFrom nodes places) := by
  obtain _ | ⟨h₁, _ | ⟨h₂, _ | ⟨h₃, _ | _⟩⟩⟩ := hps
  rw [bind_eq_of_ok nextNode_eq_ok]
  dsimp only
  rw [List.cons_append, bind_eq_of_ok (nextBuffer_eq_ok h₁), List.cons_append,
    bind_eq_of_ok (nextBuffer_eq_ok h₂), List.cons_append, bind_eq_of_ok (nextBuffer_eq_ok h₃),
    List.nil_append, hbuild]

/-- **A column takes its own node and buffers** and yields its cells. -/
theorem buildColumn_eq_ok (h : Carries type cells bufs)
    (hps : List.Forall₂ (Stands src.body) ps bufs) :
    buildColumn src (columnType type)
        (listsFrom ((cells.length, nullCount cells) :: nodes) (ps ++ places)) =
      .ok (columnFor type cells, listsFrom nodes places) := by
  obtain ⟨slots, nulls, values, rfl, hfills, hnulls, hslots⟩ := h
  cases hslots with
  | bits hvalues =>
    rw [columnType, buildColumn]
    exact eq_ok_of_two hps fun _ => buildBits_eq_ok hfills hnulls hvalues
  | words hwidth =>
    cases type with
    | boolean | string | bytes => cases hwidth
    | int64 | float64 | date | timestamp =>
      simp only [columnType, buildColumn]
      exact eq_ok_of_two hps fun _ => buildWords_eq_ok rfl rfl hfills hnulls
  | pieces htype hlimit hoffsets =>
    rcases htype with rfl | rfl
    · rw [columnType, buildColumn]
      exact eq_ok_of_three hps fun _ => buildStretches_eq_ok hfills hnulls hlimit hoffsets rfl
        (fun _ => areTexts_map_cellBytes hfills.ofType) fun c => pieceCell_cellBytes rfl
    · rw [columnType, buildColumn]
      exact eq_ok_of_three hps fun _ => buildStretches_eq_ok hfills hnulls hlimit hoffsets rfl
        (fun hfalse => absurd hfalse Bool.false_ne_true) fun c => pieceCell_cellBytes rfl

/-- A column that offsets, if it has any, can tell. -/
def IsShort (type : FieldType) (cells : List Cell) : Prop :=
  type = .string ∨ type = .bytes → (cells.flatMap (cellBytes type)).length ≤ columnLimit

variable {columns : List (Field × List Cell)} {c : Field × List Cell} {rows : Nat}

/-- A column of a block of rows that may be written: of as many cells as
there are rows, each of which fits its field, and no more bytes than
offsets can tell. -/
structure IsColumn (rows : Nat) (c : Field × List Cell) : Prop where
  length_eq : c.2.length = rows
  fits : ∀ x ∈ c.2, x.Fits c.1
  short : IsShort c.1.type c.2

theorem IsColumn.ofType (h : IsColumn rows c) : OfType c.1.type c.2 := fun x hx =>
  (h.fits x hx).symm.imp_left And.left

theorem IsColumn.nulls_eq_zero (h : IsColumn rows c) (hnullable : c.1.nullable = false) :
    nullCount c.2 = 0 := by
  refine nullCount_eq_zero.2 (List.any_eq_false.2 fun x hx hnull => ?_)
  rcases h.fits x hx with htype | ⟨-, htrue⟩
  · cases x with
    | null => cases htype
    | _ => cases hnull
  · rw [hnullable] at htrue
    cases htrue

theorem IsColumn.isWritable (h : IsColumn rows c) : isWritable c = true := by
  have hnulls : (c.1.nullable || !c.2.any Cell.isNull) = true := by
    cases hnullable : c.1.nullable with
    | true => rfl
    | false =>
      rw [nullCount_eq_zero.1 (h.nulls_eq_zero hnullable)]
      rfl
  have hshort := h.short
  rw [Columns.isWritable, hnulls, Bool.true_and]
  split
  · rename_i htype
    exact decide_eq_true (hshort (.inl htype))
  · rename_i htype
    exact decide_eq_true (hshort (.inr htype))
  · rfl

/-- Each node of a block tells as many slots as there are rows. -/
theorem le_of_mem_nodesOf (h : ∀ c ∈ columns, IsColumn rows c) :
    ∀ p ∈ nodesOf columns, p.1 = rows ∧ p.2 ≤ rows := by
  refine List.forall_mem_map.2 fun c hc => ⟨(h c hc).length_eq, ?_⟩
  rw [← (h c hc).length_eq]
  exact List.length_filter_le _ _

/-- The columns of a block take its nodes and buffers in turn. -/
theorem buildColumns_eq_ok {buffers : List (List Bytes)}
    (h : List.Forall₂ (fun c bs => Carries c.1.type c.2 bs) columns buffers)
    (hps : List.Forall₂ (Stands src.body) ps buffers.flatten) :
    buildColumns src (columns.map fun c => columnField c.1) (listsFrom (nodesOf columns) ps) =
      .ok (columns.map fun c => columnFor c.1.type c.2, listsFrom [] []) := by
  induction h generalizing ps with
  | nil =>
    cases hps
    rfl
  | @cons c bs columns buffers hc _ ih =>
    rw [List.flatten_cons] at hps
    have hown := List.forall₂_take_append ps bs buffers.flatten hps
    have hrest := List.forall₂_drop_append ps bs buffers.flatten hps
    have hcolumn : buildColumn src (columnType c.1.type) (listsFrom (nodesOf (c :: columns)) ps) =
        .ok (columnFor c.1.type c.2, listsFrom (nodesOf columns) (ps.drop bs.length)) := by
      conv_lhs => rw [← List.take_append_drop bs.length ps]
      exact buildColumn_eq_ok hc hown
    rw [List.map_cons, columnField, buildColumns, bind_eq_of_ok (by exact hcolumn),
      bind_eq_of_ok (by exact ih hrest)]
    rfl

/-- The columns of a block pass the checks on the block as a whole. -/
theorem requireBlock_eq_ok (h : ∀ c ∈ columns, IsColumn rows c) (l : Lists) :
    requireBlock rows (columns.map fun c => columnField c.1)
        (columns.map fun c => columnFor c.1.type c.2) l = .ok ((), l) := by
  have hnulls : (((columns.map fun c => columnField c.1).zip
      (columns.map fun c => columnFor c.1.type c.2)).any
        fun p => !p.1.nullable && p.2.valid.nulls != 0) = false := by
    rw [List.zip_map', List.any_map, List.any_eq_false]
    intro c hc
    cases hnullable : c.1.nullable with
    | true => simp [columnField, ColumnField.nullable, hnullable]
    | false =>
      have hnone : (columnFor c.1.type c.2).valid.nulls = 0 :=
        (nulls_validOf c.2).trans ((h c hc).nulls_eq_zero hnullable)
      simp [hnone]
  have hlengths : ((columns.map fun c => columnFor c.1.type c.2).any
      fun c => c.length != rows) = false := by
    rw [List.any_map, List.any_eq_false]
    intro c hc
    simp [columnFor, Column.plain, (h c hc).length_eq]
  rw [requireBlock, hnulls, hlengths]
  rfl

/-- **The columns of a block are read as it describes them.** -/
theorem BlockTable.Describes.columns_eq_ok {t : BlockTable} {body : Bytes}
    (ht : t.Describes body rows columns) (h : ∀ c ∈ columns, IsColumn rows c) (version : Int)
    (start : Nat) :
    t.columns (columns.map fun c => columnField c.1) ⟨version, start, body⟩ =
      .ok (columns.map fun c => columnFor c.1.type c.2) := by
  obtain ⟨places, buffers, hplaces, hcarried, hstand⟩ := ht.carried
  have hread : buildColumns ⟨version, start, body⟩ (columns.map fun c => columnField c.1)
      (listsFrom (nodesOf columns) places) =
        .ok (columns.map fun c => columnFor c.1.type c.2, listsFrom [] []) :=
    buildColumns_eq_ok hcarried hstand
  have hrequire := requireBlock_eq_ok h (listsFrom [] [])
  have hget : (get : Build Lists) (listsFrom [] []) = .ok (listsFrom [] [], listsFrom [] []) := rfl
  have hused : ¬ (!(listsFrom [] []).variadic.isEmpty) = true := Bool.false_ne_true
  rw [listsFrom] at hread
  rw [BlockTable.columns, hplaces, ht.nodes_eq, ht.variadic_eq, ht.length_eq]
  dsimp only
  rw [bind_eq_of_ok hread, bind_eq_of_ok hget, if_neg hused, Int.toNat_natCast,
    bind_eq_of_ok hrequire]
  rfl

/-! ## Rows of a block -/

/-- The columns of rows for fields, the first of them at position `i`. -/
def columnsFrom (rows : List Record) : Nat → List Field → List (Field × List Cell)
  | _, [] => []
  | i, f :: fs => (f, rows.map fun r => r.cells.getD i .null) :: columnsFrom rows (i + 1) fs

variable {s : Schema} {l : Layout} {selected : List String} {rs : List Record}

/-- A block of rows that may be written for a schema: each row has a cell
for each field that fits, and no column of texts or byte strings has more
bytes than offsets can tell. -/
structure IsBlock (s : Schema) (rs : List Record) : Prop where
  fits : ∀ r ∈ rs, List.Forall₂ Cell.Fits r.cells s.fields
  short : ∀ {i : Nat} {f : Field}, s.fields[i]? = some f →
    IsShort f.type (rs.map fun r => r.cells.getD i .null)

/-- A block of rows in which each field finds a cell that fits, whatever
stands behind those cells. -/
structure IsFilled (s : Schema) (rs : List Record) : Prop where
  fits : ∀ r ∈ rs, Rows.RowFits s.fields r.cells
  short : ∀ {i : Nat} {f : Field}, s.fields[i]? = some f →
    IsShort f.type (rs.map fun r => r.cells.getD i .null)

theorem IsBlock.isFilled (h : IsBlock s rs) : IsFilled s rs :=
  ⟨fun r hr => .of_forall₂ (h.fits r hr), h.short⟩

theorem getElem?_columnsFrom (rs : List Record) (i : Nat) (fs : List Field) (k : Nat) :
    (columnsFrom rs i fs)[k]? =
      fs[k]?.map fun f => (f, rs.map fun r => r.cells.getD (i + k) .null) := by
  induction fs generalizing i k with
  | nil => rfl
  | cons f fs ih =>
    cases k with
    | zero => rfl
    | succ k =>
      rw [columnsFrom, List.getElem?_cons_succ, ih, List.getElem?_cons_succ, Nat.add_assoc,
        Nat.add_comm 1]

theorem map_fst_columnsFrom (rs : List Record) (i : Nat) (fs : List Field) :
    (columnsFrom rs i fs).map Prod.fst = fs := by
  induction fs generalizing i with
  | nil => rfl
  | cons f fs ih => rw [columnsFrom, List.map_cons, ih]

theorem length_columnsFrom (rs : List Record) (i : Nat) (fs : List Field) :
    (columnsFrom rs i fs).length = fs.length := by
  rw [← List.length_map (f := Prod.fst), map_fst_columnsFrom]

theorem IsFilled.exists_getElem? {r : Record} {i : Nat} {f : Field} (h : IsFilled s rs)
    (hr : r ∈ rs) (hf : s.fields[i]? = some f) :
    r.cells[i]? = some (r.cells.getD i .null) ∧ (r.cells.getD i .null).Fits f := by
  obtain ⟨c, hc, hfits⟩ := (h.fits r hr).getElem? hf
  rw [List.getD_eq_getElem?_getD, hc, Option.getD_some]
  exact ⟨rfl, hfits⟩

/-- Every column of a block may be written. -/
theorem IsFilled.isColumn (h : IsFilled s rs) :
    ∀ c ∈ columnsFrom rs 0 s.fields, IsColumn rs.length c := by
  intro c hc
  obtain ⟨k, hk⟩ := List.mem_iff_getElem?.1 hc
  rw [getElem?_columnsFrom, Option.map_eq_some_iff] at hk
  obtain ⟨f, hf, rfl⟩ := hk
  rw [Nat.zero_add]
  exact ⟨List.length_map _, List.forall_mem_map.2 fun r hr => (h.exists_getElem? hr hf).2,
    h.short hf⟩

theorem mapM_eq_ok {α β ε : Type} {f : α → Except ε β} {g : α → β} {xs : List α}
    (h : ∀ x ∈ xs, f x = .ok (g x)) : xs.mapM f = .ok (xs.map g) := by
  induction xs with
  | nil => rfl
  | cons x xs ih =>
    obtain ⟨hx, hrest⟩ := List.forall_mem_cons.1 h
    rw [List.mapM_cons, hx, ih hrest]
    rfl

theorem eq_map_of_mapM {α β ε : Type} {f : α → Except ε β} {g : α → β} {P : α → Prop}
    {xs : List α} {ys : List β} (hf : ∀ x y, f x = .ok y → P x ∧ y = g x)
    (h : xs.mapM f = .ok ys) : (∀ x ∈ xs, P x) ∧ ys = xs.map g := by
  induction xs generalizing ys with
  | nil =>
    cases h
    exact ⟨List.forall_mem_nil _, rfl⟩
  | cons x xs ih =>
    rw [List.mapM_cons] at h
    cases hx : f x with
    | error e =>
      rw [hx] at h
      cases h
    | ok y =>
      rw [hx] at h
      obtain ⟨rest, hrest, rfl⟩ := exists_of_map_eq_ok (f := fun ys => y :: ys) h
      obtain ⟨hall, rfl⟩ := ih hrest
      obtain ⟨hhere, rfl⟩ := hf x y hx
      exact ⟨List.forall_mem_cons.2 ⟨hhere, hall⟩, rfl⟩

/-- The columns of a block are taken from its rows. -/
theorem columnsOf_eq_ok (h : IsFilled s rs) :
    columnsOf rs 0 s.fields = .ok (columnsFrom rs 0 s.fields) := by
  -- from any field of the schema on, as the columns are numbered by where they stand in it
  have hall : ∀ {i : Nat} {fs : List Field}, s.fields.drop i = fs →
      columnsOf rs i fs = .ok (columnsFrom rs i fs) := by
    intro i fs hfs
    induction fs generalizing i with
    | nil => rfl
    | cons f fs ih =>
      have hf : s.fields[i]? = some f := by
        rw [← Nat.add_zero i, ← List.getElem?_drop, hfs, List.getElem?_cons_zero]
      have hcolumn : columnOf rs i f = .ok (rs.map fun r => r.cells.getD i .null) := by
        refine mapM_eq_ok fun r hr => ?_
        obtain ⟨hcell, hfits⟩ := h.exists_getElem? hr hf
        exact Rows.cellFor_eq_ok.2 ⟨hcell, hfits.symm.imp_left And.left⟩
      have hdrop : s.fields.drop (i + 1) = fs := by
        rw [← List.drop_drop, hfs, List.drop_one, List.tail_cons]
      rw [columnsOf, hcolumn, ih hdrop]
      rfl
  exact hall (List.drop_zero)

/-- Each row has a cell of the type of a field, or null, where the column of
the field is taken from. -/
theorem of_columnOf {i : Nat} {f : Field} {cells : List Cell}
    (h : columnOf rs i f = .ok cells) :
    (∀ r ∈ rs, ∃ c, r.cells[i]? = some c ∧ (c = .null ∨ c.type? = some f.type)) ∧
      cells = rs.map fun r => r.cells.getD i .null := by
  refine eq_map_of_mapM (fun r c hc => ?_) h
  obtain ⟨hget, htype⟩ := Rows.cellFor_eq_ok.1 hc
  exact ⟨⟨c, hget, htype⟩, by rw [List.getD_eq_getElem?_getD, hget, Option.getD_some]⟩

/-- The columns that are taken from rows. -/
theorem of_columnsOf {i : Nat} {fs : List Field} {columns : List (Field × List Cell)}
    (h : columnsOf rs i fs = .ok columns) :
    (∀ k f, fs[k]? = some f →
      ∀ r ∈ rs, ∃ c, r.cells[i + k]? = some c ∧ (c = .null ∨ c.type? = some f.type)) ∧
      columns = columnsFrom rs i fs := by
  induction fs generalizing i columns with
  | nil =>
    cases h
    exact ⟨nofun, rfl⟩
  | cons f fs ih =>
    rw [columnsOf] at h
    cases hcolumn : columnOf rs i f with
    | error e =>
      rw [hcolumn] at h
      cases h
    | ok cells =>
      rw [hcolumn] at h
      obtain ⟨rest, hrest, rfl⟩ := exists_of_map_eq_ok (f := fun cs => (f, cells) :: cs) h
      obtain ⟨hall, rfl⟩ := ih hrest
      obtain ⟨hhere, rfl⟩ := of_columnOf hcolumn
      refine ⟨fun k g hk => ?_, rfl⟩
      cases k with
      | zero =>
        cases hk
        exact hhere
      | succ k =>
        rw [← Nat.add_assoc, Nat.add_right_comm]
        exact hall k g hk

/-- Columns that may stand in a block are those of rows that fill it. -/
theorem isFilled_of_columnsOf {columns : List (Field × List Cell)}
    (h : columnsOf rs 0 s.fields = .ok columns) (hw : columns.all isWritable = true) :
    IsFilled s rs ∧ columns = columnsFrom rs 0 s.fields := by
  obtain ⟨hcells, rfl⟩ := of_columnsOf h
  have hwritable : ∀ {i : Nat} {f : Field}, s.fields[i]? = some f →
      isWritable (f, rs.map fun r => r.cells.getD i .null) = true := by
    intro i f hf
    refine List.all_eq_true.1 hw _ (List.mem_of_getElem? (i := i) ?_)
    rw [getElem?_columnsFrom, hf, Nat.zero_add]
    rfl
  refine ⟨⟨fun r hr => Rows.rowFits_of_getElem? fun i f hf => ?_, fun {i f} hf => ?_⟩, rfl⟩
  · obtain ⟨c, hc, htype⟩ := hcells i f hf r hr
    rw [Nat.zero_add] at hc
    refine ⟨c, hc, ?_⟩
    rcases htype with rfl | htype
    · -- a column with a null may only stand for a field that may be null
      have hnulls := (Bool.and_eq_true_iff.1 (hwritable hf)).1
      have hany : (rs.map fun r => r.cells.getD i .null).any Cell.isNull = true :=
        List.any_eq_true.2 ⟨_, List.mem_map_of_mem hr, by
          rw [List.getD_eq_getElem?_getD, hc, Option.getD_some]
          rfl⟩
      rw [hany] at hnulls
      exact .inr ⟨rfl, by simpa using hnulls⟩
    · exact .inl htype
  · have hshort := (Bool.and_eq_true_iff.1 (hwritable hf)).2
    rintro (htype | htype) <;> simpa [htype] using hshort

/-! ## Records of a block -/

/-- The columns that the layout takes from the columns of rows. -/
theorem bindColumns_eq_ok {fs : List Field} {wanted : List (Field × Nat)}
    (h : ∀ q ∈ wanted, fs[q.2]? = some q.1) :
    bindColumns ((columnsFrom rs 0 fs).map fun c => columnFor c.1.type c.2) wanted =
      .ok (wanted.map fun q => (q.1, rs.map fun r => r.cells.getD q.2 .null)) := by
  induction wanted with
  | nil => rfl
  | cons q wanted ih =>
    obtain ⟨hq, hrest⟩ := List.forall_mem_cons.1 h
    have hcolumn : ((columnsFrom rs 0 fs).map fun c => columnFor c.1.type c.2)[q.2]? =
        some (columnFor q.1.type (rs.map fun r => r.cells.getD q.2 .null)) := by
      rw [List.getElem?_map, getElem?_columnsFrom, hq, Nat.zero_add]
      rfl
    have hbound : bindColumn ((columnsFrom rs 0 fs).map fun c => columnFor c.1.type c.2) q.1 q.2 =
        .ok (q.1, rs.map fun r => r.cells.getD q.2 .null) := by
      rw [bindColumn, hcolumn]
      exact if_pos (fitsType_columnType q.1.type)
    rw [bindColumns, hbound, ih hrest]
    rfl

/-- The cells of the first row that is left, none of which is null where it
may not be. -/
theorem rowOf_eq_ok {r : Record} {wanted : List (Field × Nat)} {index : Nat}
    (h : ∀ q ∈ wanted, (r.cells.getD q.2 .null).Fits q.1) :
    rowOf index (wanted.map fun q => (q.1, (r :: rs).map fun r => r.cells.getD q.2 .null)) =
      .ok (wanted.map fun q => r.cells.getD q.2 .null) := by
  induction wanted with
  | nil => rfl
  | cons q wanted ih =>
    obtain ⟨hq, hrest⟩ := List.forall_mem_cons.1 h
    have hallowed : ((r.cells.getD q.2 .null).isNull && !q.1.nullable) = false := by
      rcases hq with htype | ⟨-, hnullable⟩
      · cases hc : r.cells.getD q.2 .null with
        | null =>
          rw [hc] at htype
          cases htype
        | _ => rfl
      · rw [hnullable, Bool.not_true, Bool.and_false]
    rw [List.map_cons, List.map_cons, rowOf, List.head?_cons, Option.getD_some, hallowed,
      if_neg Bool.false_ne_true, ih hrest]
    rfl

/-- The records of the rows of a block. -/
theorem rowsOf_eq_ok {wanted : List (Field × Nat)} (index : Nat)
    (h : ∀ r ∈ rs, ∀ q ∈ wanted, (r.cells.getD q.2 .null).Fits q.1) :
    rowsOf rs.length index (wanted.map fun q => (q.1, rs.map fun r => r.cells.getD q.2 .null)) =
      .ok (rs.map fun r => ⟨wanted.map fun q => r.cells.getD q.2 .null⟩) := by
  induction rs generalizing index with
  | nil => rfl
  | cons r rs ih =>
    obtain ⟨hr, hrest⟩ := List.forall_mem_cons.1 h
    have htail : (wanted.map fun q => (q.1, (r :: rs).map fun r => r.cells.getD q.2 .null)).map
        (fun c => (c.1, c.2.tail)) =
          wanted.map fun q => (q.1, rs.map fun r => r.cells.getD q.2 .null) := by
      rw [List.map_map]
      rfl
    rw [List.length_cons, rowsOf, rowOf_eq_ok hr, htail, ih (index + 1) hrest]
    rfl

/-- **The records of a block are its rows**, with the cells at the wire
positions of the layout. -/
theorem blockRecords_eq_ok (hl : Layout.resolve selected s = .ok l) (h : IsFilled s rs) :
    blockRecords l rs.length ((columnsFrom rs 0 s.fields).map fun c => columnFor c.1.type c.2) =
      .ok (rs.map fun r => ⟨l.wireIndices.map fun i => r.cells.getD i .null⟩) := by
  have hcolumns := (Layout.columns_of_resolve hl).2
  have hfits : ∀ r ∈ rs, ∀ q ∈ l.columns, (r.cells.getD q.2 .null).Fits q.1 := fun r hr q hq =>
    (h.exists_getElem? hr (hcolumns q hq)).2
  rw [blockRecords, bindColumns_eq_ok hcolumns]
  dsimp only
  rw [rowsOf_eq_ok 0 hfits, ← Layout.snd_columns_of_resolve hl]
  simp only [List.map_map]
  rfl

end Intake.Columns
