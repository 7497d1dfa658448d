import Intake.Proofs.Codecs
import Mathlib.Data.List.Forall2
/-!
# The cells of columns

Whatever the bytes of a block are, a column that may stand for a field
holds nothing but nulls and cells of the type of the field
(`always_buildColumn`). So the records of a block have a cell that fits for
every field of the layout (`forall₂_of_blockRecords`), and they come out
only of a stream with one schema, whose columns have the names of the wire
schema (`records_of_decode`).
-/

namespace Intake.Columns

/-! ## What a reader of columns yields -/

section

variable {α β : Type} {P : α → Prop} {Q : β → Prop} {m : Build α} {f : α → Build β}

/-- Everything that a reader of columns yields has a property. -/
def Always (m : Build α) (P : α → Prop) : Prop := ∀ s a s', m s = .ok (a, s') → P a

theorem always_pure {a : α} (h : P a) : Always (pure a) P := by
  intro s b s' hb
  cases hb
  exact h

theorem always_corrupt : Always corrupt P := by
  intro s a s' h
  cases h

theorem always_nonsense : Always nonsense P := by
  intro s a s' h
  cases h

theorem always_bind (hm : Always m P) (hf : ∀ a, P a → Always (f a) Q) : Always (m >>= f) Q := by
  intro s b s' h
  simp only [bind, StateT.bind, Except.bind] at h
  split at h
  · cases h
  · rename_i p hp
    exact hf p.1 (hm s p.1 p.2 hp) p.2 b s' h

theorem always_ite {c : Prop} [Decidable c] {m' : Build α} (h : Always m P) (h' : Always m' P) :
    Always (if c then m else m') P := by
  split
  · exact h
  · exact h'

/-- A step whose result does not matter. -/
theorem always_next (hf : ∀ a, Always (f a) Q) : Always (m >>= f) Q :=
  always_bind (P := fun _ => True) (fun _ _ _ _ => trivial) fun a _ => hf a

end

/-! ## Columns hold cells of their type -/

/-- The cells of a column are null or of the type of every field that the
column may stand for. -/
def Column.Typed (c : Column) : Prop :=
  ∀ t, fitsType t c.type = true → ∀ x ∈ c.cells, x = .null ∨ x.type? = some t

variable {type : ColumnType} {length nulls : Nat} {valid : Bits} {cells : List Cell}
variable {nullBuffer values offsetBuffer : Bytes} {src : Source}

theorem mem_masked {x : Cell} (h : x ∈ masked valid cells) : x = .null ∨ x ∈ cells := by
  cases valid with
  | none => exact .inr h
  | some bits =>
    obtain ⟨k, hk⟩ := List.mem_iff_getElem?.1 h
    rw [masked, List.getElem?_zipWith_eq_some] at hk
    obtain ⟨bit, c, -, hc, rfl⟩ := hk
    split
    · exact .inr (List.mem_of_getElem? hc)
    · exact .inl rfl

/-- A column whose values are of its type, and null where its bitmap says
so. -/
theorem typed_masked (h : ∀ t, fitsType t type = true → ∀ x ∈ cells, x.type? = some t) :
    (Column.plain type length valid (masked valid cells)).Typed := fun t ht _ hx =>
  (mem_masked hx).imp_right (h t ht _)

/-- A word of a column is of the type of every field that the column may
stand for. -/
theorem type?_of_wordCell? {cell : Nat → Cell} (h : wordCell? type = some cell) {t : FieldType}
    (ht : fitsType t type = true) (n : Nat) : (cell n).type? = some t := by
  unfold fitsType at ht
  split at ht <;> cases ht <;> cases h <;> rfl

theorem always_buildWords :
    Always (buildWords type length nulls nullBuffer values) Column.Typed := by
  unfold buildWords
  refine always_next fun valid => ?_
  split
  · exact always_nonsense
  · split
    · exact always_corrupt
    · refine always_next fun _ => always_next fun _ => always_pure (typed_masked ?_)
      intro t ht x hx
      split at hx
      · cases hx
      · rename_i cell hcell
        obtain ⟨n, -, rfl⟩ := List.mem_map.1 hx
        exact type?_of_wordCell? hcell ht n

theorem always_buildBits : Always (buildBits length nulls nullBuffer values) Column.Typed := by
  unfold buildBits
  refine always_next fun valid => always_ite always_corrupt ?_
  refine always_next fun _ => always_next fun _ => always_pure (typed_masked ?_)
  intro t ht x hx
  obtain ⟨b, -, rfl⟩ := List.mem_map.1 hx
  cases t <;> cases ht
  rfl

theorem always_buildStretches {isText large : Bool} :
    Always (buildStretches isText large length nulls nullBuffer offsetBuffer values)
      Column.Typed := by
  unfold buildStretches
  refine always_next fun valid => always_next fun _ => always_next fun os => ?_
  refine always_ite (always_next fun _ => always_pure (typed_masked ?_)) always_corrupt
  intro t ht x hx
  obtain ⟨span, -, rfl⟩ := List.mem_map.1 hx
  cases isText <;> cases t <;> cases ht <;> rfl

/-! ## Columns without cells -/

/-- A column without cells. -/
theorem typed_of_cells_eq_nil {c : Column} (h : c.cells = []) : c.Typed := by
  intro t _ x hx
  rw [h] at hx
  cases hx

theorem always_bare {c : Column} (h : c.cells = []) : Always (pure c) Column.Typed :=
  always_pure (typed_of_cells_eq_nil h)

theorem always_buildViews {isText : Bool} {views : Bytes} {buffers : List Bytes} :
    Always (buildViews isText length nulls nullBuffer views buffers) Column.Typed := by
  unfold buildViews
  refine always_next fun valid => always_ite always_corrupt ?_
  refine always_next fun _ => always_next fun _ => always_ite always_nonsense ?_
  exact always_ite (always_bare rfl) always_corrupt

theorem always_buildViewColumn {isText : Bool} :
    Always (buildViewColumn src isText) Column.Typed := by
  unfold buildViewColumn
  refine always_next fun count => always_ite always_nonsense ?_
  refine always_next fun buffers => always_next fun (length, nulls) => ?_
  dsimp only
  split
  · exact always_buildViews
  · exact always_next fun _ => always_corrupt
  · exact always_nonsense

theorem always_buildList {nullable : Bool} {width : Nat} {child : Column} :
    Always (buildList type nullable width length nulls nullBuffer offsetBuffer child)
      Column.Typed := by
  unfold buildList
  refine always_next fun valid => always_ite always_corrupt ?_
  refine always_next fun _ => always_next fun os => always_ite ?_ always_corrupt
  exact always_next fun _ => always_next fun _ => always_bare rfl

theorem always_buildListView {width : Nat} {sizeBuffer : Bytes} {child : Column} :
    Always (buildListView type width length nulls nullBuffer offsetBuffer sizeBuffer child)
      Column.Typed := by
  unfold buildListView
  refine always_next fun valid => always_ite always_corrupt ?_
  refine always_next fun _ => always_ite always_nonsense ?_
  exact always_ite (always_next fun _ => always_bare rfl) always_corrupt

theorem always_buildFixedList {nullable : Bool} {size : Int} {child : Column} :
    Always (buildFixedList type nullable size length nulls nullBuffer child) Column.Typed := by
  unfold buildFixedList
  refine always_next fun valid => always_next fun _ => always_ite always_corrupt ?_
  exact always_next fun _ => always_next fun _ => always_bare rfl

theorem always_buildStruct {nullable : List Bool} {children : List Column} :
    Always (buildStruct type nullable length nulls nullBuffer children) Column.Typed := by
  unfold buildStruct
  refine always_next fun valid => always_next fun _ => ?_
  split
  · exact always_bare rfl
  · exact always_ite always_corrupt (always_next fun _ => always_bare rfl)

theorem always_buildUnion {dense : Bool} {ids typeIds positions : List Int}
    {children : List Column} :
    Always (buildUnion type dense ids typeIds positions children) Column.Typed := by
  unfold buildUnion
  refine always_ite always_corrupt (always_ite ?_ always_corrupt)
  exact always_ite (always_bare rfl) always_corrupt

theorem always_buildRuns {nullable : Bool} {ends column : Column} :
    Always (buildRuns type length nullable ends column) Column.Typed := by
  unfold buildRuns
  exact always_ite always_corrupt (always_ite (always_bare rfl) always_corrupt)

theorem always_buildKeys {keyBits : Nat} {keySigned : Bool} {keys : Bytes} :
    Always (buildKeys keyBits keySigned type length nulls nullBuffer keys) Column.Typed := by
  unfold buildKeys
  refine always_ite always_nonsense (always_next fun valid => always_ite always_corrupt ?_)
  refine always_next fun _ => always_ite always_corrupt (always_next fun _ => ?_)
  exact always_ite always_nonsense (always_ite always_corrupt (always_bare rfl))

/-! ## Columns of a block -/

/-- **Every column of a block holds cells of its type.** -/
theorem always_buildColumn (type : ColumnType) :
    Always (buildColumn src type) Column.Typed := by
  cases type with
  | null =>
    rw [buildColumn]
    exact always_next fun node => always_ite (always_bare rfl) always_corrupt
  | boolean =>
    rw [buildColumn]
    exact always_next fun node => always_next fun _ => always_next fun _ => always_buildBits
  | utf8 large =>
    rw [buildColumn]
    refine always_next fun node => always_next fun _ => always_next fun _ => ?_
    exact always_next fun _ => always_buildStretches
  | binary large =>
    rw [buildColumn]
    refine always_next fun node => always_next fun _ => always_next fun _ => ?_
    exact always_next fun _ => always_buildStretches
  | utf8View =>
    rw [buildColumn]
    exact always_buildViewColumn
  | binaryView =>
    rw [buildColumn]
    exact always_buildViewColumn
  | list large item =>
    cases item
    rw [buildColumn]
    refine always_next fun node => always_next fun _ => always_next fun _ => ?_
    exact always_next fun child => always_buildList
  | listView large item =>
    cases item
    rw [buildColumn]
    refine always_next fun node => always_next fun _ => always_next fun _ => ?_
    exact always_next fun _ => always_next fun child => always_buildListView
  | fixedList size item =>
    cases item
    rw [buildColumn]
    refine always_next fun node => always_next fun _ => ?_
    exact always_next fun child => always_buildFixedList
  | map entries sorted =>
    cases entries
    rw [buildColumn]
    refine always_next fun node => always_next fun _ => always_next fun _ => ?_
    refine always_next fun child => always_bind always_buildList fun column hcolumn => ?_
    split
    · exact always_pure hcolumn
    · exact always_nonsense
  | struct fields =>
    rw [buildColumn]
    refine always_next fun node => always_next fun _ => ?_
    exact always_next fun children => always_buildStruct
  | union dense ids fields =>
    rw [buildColumn]
    refine always_next fun (length, nulls) => ?_
    -- what comes behind the bitmap that old streams have
    have hrest : Always (do
        let typeIds ← firstBytes length (← nextBuffer src)
        let count := if dense then length else 0
        let positions ← if dense then nextAligned src 4 count else pure []
        let children ← buildColumns src fields
        buildUnion (.union dense ids fields) dense ids
          ((words 1 length typeIds).map (Bytes.signed 1))
          ((words 4 count positions).map (Bytes.signed 4)) children) Column.Typed := by
      refine always_next fun _ => always_next fun _ => always_ite ?_ ?_
      · exact always_next fun _ => always_next fun _ => always_buildUnion
      · exact always_next fun _ => always_next fun _ => always_buildUnion
    exact always_ite (always_next fun _ => hrest) hrest
  | runEnd ends values =>
    cases ends
    cases values
    rw [buildColumn]
    refine always_next fun node => always_next fun _ => ?_
    exact always_next fun _ => always_buildRuns
  | dictionary keyBits keySigned values =>
    rw [buildColumn]
    refine always_next fun node => always_next fun _ => ?_
    exact always_next fun _ => always_buildKeys
  | _ =>
    simp only [buildColumn]
    refine always_next fun node => always_next fun _ => ?_
    exact always_next fun _ => always_buildWords

theorem always_buildColumns (fields : List ColumnField) :
    Always (buildColumns src fields) fun columns => ∀ c ∈ columns, c.Typed := by
  induction fields with
  | nil =>
    rw [buildColumns]
    exact always_pure (List.forall_mem_nil _)
  | cons field fields ih =>
    cases field
    rw [buildColumns]
    refine always_bind (always_buildColumn _) fun c hc => always_bind ih fun columns hcolumns => ?_
    exact always_pure (List.forall_mem_cons.2 ⟨hc, hcolumns⟩)

variable {columns : List Column}

/-- The columns of a block hold cells of their types. -/
theorem typed_of_columns {table : BlockTable} {fields : List ColumnField}
    (h : table.columns fields src = .ok columns) : ∀ c ∈ columns, c.Typed := by
  unfold BlockTable.columns at h
  split at h
  · rename_i buffers nodes _ _
    obtain ⟨⟨columns, lists⟩, hread, rfl⟩ := exists_of_map_eq_ok h
    refine always_bind (Q := fun columns => ∀ c ∈ columns, c.Typed) (always_buildColumns fields)
      (fun columns hcolumns => ?_) _ _ _ hread
    refine always_next fun lists => always_ite always_nonsense ?_
    exact always_next fun _ => always_pure hcolumns
  · cases h

/-! ## Rows of a block -/

variable {names : List String} {l : Layout} {f : Field} {index count : Nat}
variable {bound : List (Field × List Cell)} {records : List Record}

/-- A field has nothing but nulls and cells of its type. -/
def Suits (b : Field × List Cell) : Prop := ∀ x ∈ b.2, x = .null ∨ x.type? = some b.1.type

theorem suits_of_bindColumn {b : Field × List Cell} (hc : ∀ c ∈ columns, c.Typed)
    (h : bindColumn columns f index = .ok b) : b.1 = f ∧ Suits b := by
  unfold bindColumn at h
  split at h
  · cases h
  rename_i c hget
  split at h
  · rename_i hfits
    cases h
    exact ⟨rfl, hc c (List.mem_of_getElem? hget) f.type hfits⟩
  · cases h

theorem suits_of_bindColumns {wanted : List (Field × Nat)} (hc : ∀ c ∈ columns, c.Typed)
    (h : bindColumns columns wanted = .ok bound) :
    bound.map Prod.fst = wanted.map Prod.fst ∧ ∀ b ∈ bound, Suits b := by
  induction wanted generalizing bound with
  | nil =>
    cases h
    simp
  | cons q wanted ih =>
    rw [bindColumns] at h
    split at h
    · cases h
    rename_i b hb
    obtain ⟨rest, hrest, rfl⟩ := exists_of_map_eq_ok h
    obtain ⟨hfst, hsuits⟩ := suits_of_bindColumn hc hb
    obtain ⟨hmap, hall⟩ := ih hrest
    exact ⟨by rw [List.map_cons, List.map_cons, hfst, hmap], List.forall_mem_cons.2 ⟨hsuits, hall⟩⟩

theorem forall₂_of_rowOf {cells : List Cell} (hb : ∀ b ∈ bound, Suits b)
    (h : rowOf index bound = .ok cells) : List.Forall₂ Cell.Fits cells (bound.map Prod.fst) := by
  induction bound generalizing cells with
  | nil =>
    cases h
    exact .nil
  | cons b bound ih =>
    obtain ⟨f, xs⟩ := b
    rw [List.forall_mem_cons] at hb
    rw [rowOf] at h
    split at h
    · cases h
    rename_i hnull
    obtain ⟨rest, hrest, rfl⟩ := exists_of_map_eq_ok h
    refine .cons ?_ (ih hb.2 hrest)
    cases xs with
    | nil => exact .inr ⟨rfl, by simpa [Cell.isNull] using hnull⟩
    | cons x xs =>
      rcases hb.1 x List.mem_cons_self with rfl | htype
      · exact .inr ⟨rfl, by simpa [Cell.isNull] using hnull⟩
      · exact .inl htype

theorem forall₂_of_rowsOf (hb : ∀ b ∈ bound, Suits b) (h : rowsOf count index bound = .ok records) :
    ∀ r ∈ records, List.Forall₂ Cell.Fits r.cells (bound.map Prod.fst) := by
  induction count generalizing index bound records with
  | zero =>
    cases h
    exact List.forall_mem_nil _
  | succ count ih =>
    rw [rowsOf] at h
    split at h
    · cases h
    rename_i cells hcells
    obtain ⟨rest, hrest, rfl⟩ := exists_of_map_eq_ok h
    refine List.forall_mem_cons.2 ⟨forall₂_of_rowOf hb hcells, ?_⟩
    have htail : ∀ b ∈ bound.map fun c => (c.1, c.2.tail), Suits b := by
      intro b hmem
      obtain ⟨c, hc, rfl⟩ := List.mem_map.1 hmem
      exact fun x hx => hb c hc x (List.mem_of_mem_tail hx)
    simpa [Function.comp_def] using ih htail hrest

/-- The records of a block have a cell that fits for every column of the
layout. -/
theorem forall₂_of_blockRecords (hc : ∀ c ∈ columns, c.Typed)
    (h : blockRecords l count columns = .ok records) :
    ∀ r ∈ records, List.Forall₂ Cell.Fits r.cells (l.columns.map Prod.fst) := by
  unfold blockRecords at h
  split at h
  · cases h
  rename_i bound hbound
  obtain ⟨hmap, hsuits⟩ := suits_of_bindColumns hc hbound
  rw [← hmap]
  cases hrows : rowsOf count 0 bound with
  | error e =>
    rw [hrows] at h
    cases h
  | ok rows =>
    rw [hrows] at h
    cases h
    exact forall₂_of_rowsOf hsuits hrows

/-! ## Messages of a stream -/

/-- The names of the columns that a message tells, if it is a schema. -/
def Frame.names? (f : Frame) : Option (List String) :=
  match f.message.header with
  | .schema table => table.columns?.map fun fields => fields.map ColumnField.name
  | _ => none

/-- The names of the columns that each schema in a stream tells. -/
def embeddedNames (data : Bytes) : List (List String) :=
  match frames data with
  | .error _ => []
  | .ok fs => fs.frames.filterMap Frame.names?

/-- What the schemas have to tell that are still to come, for records to
come out. -/
def Seen.Awaits (names : List String) : Seen → List (List String) → Prop
  | .nothing, told => told = [names]
  | .unchecked fields, told => fields.map ColumnField.name = names ∧ told = []
  | .checked _, told => told = []

variable {seen seen' : Seen} {told : List (List String)}

theorem map_name_of_checkNames {fields : List ColumnField} {u : Unit}
    (h : checkNames names fields = .ok u) : fields.map ColumnField.name = names := by
  unfold checkNames at h
  dsimp only at h
  split at h
  · assumption
  · cases h

theorem Seen.Awaits.of_check (h : seen.check names = .ok seen') (ha : seen'.Awaits names told) :
    seen.Awaits names told := by
  cases seen with
  | nothing =>
    cases h
    exact ha
  | unchecked fields =>
    obtain ⟨u, hu, rfl⟩ := exists_of_map_eq_ok h
    exact ⟨map_name_of_checkNames hu, ha⟩
  | checked fields =>
    cases h
    exact ha

/-- A schema is checked once its names have been looked at. -/
theorem Seen.exists_checked (h : seen.check names = .ok seen') (hne : seen' ≠ .nothing) :
    ∃ fields, seen' = .checked fields := by
  cases seen with
  | nothing =>
    cases h
    exact absurd rfl hne
  | unchecked fields =>
    obtain ⟨u, -, rfl⟩ := exists_of_map_eq_ok h
    exact ⟨fields, rfl⟩
  | checked fields =>
    cases h
    exact ⟨fields, rfl⟩

/-- **What the messages of a stream yield**: records that fit the layout,
and only if the one schema of the stream tells the names that were asked
for. -/
theorem records_of_readFrames {total : Nat} {ended : Bool} {fs : List Frame} {block began : Nat}
    (h : readFrames names l total ended fs seen block began = .ok records) :
    (∀ r ∈ records, List.Forall₂ Cell.Fits r.cells (l.columns.map Prod.fst)) ∧
      seen.Awaits names (fs.filterMap Frame.names?) := by
  induction fs generalizing seen block began records with
  | nil =>
    rw [readFrames] at h
    split at h
    · cases h
    · cases h
    · rename_i seen' hne hcheck
      cases h
      obtain ⟨fields, rfl⟩ := Seen.exists_checked hcheck hne
      exact ⟨List.forall_mem_nil _, Seen.Awaits.of_check hcheck rfl⟩
  | cons f fs ih =>
    unfold readFrames at h
    split at h
    · split at h <;> cases h
    split at h
    · rename_i table hheader
      split at h
      · cases h
      · cases h
      · rename_i fields hseen hfields
        obtain ⟨hrecords, hnames, htold⟩ := ih h
        have hnames? : f.names? = some names := by simp [Frame.names?, hheader, hfields, hnames]
        refine ⟨hrecords, ?_⟩
        cases seen with
        | nothing => simp [Seen.Awaits, hnames?, htold]
        | unchecked _ => cases hseen
        | checked _ => cases hseen
    · rename_i table hheader
      have hnames? : f.names? = none := by simp [Frame.names?, hheader]
      rw [List.filterMap_cons_none hnames?]
      split at h
      · cases h
      rename_i fields hseen
      split at h
      · cases h
      · cases h
      rename_i columns hcolumns
      split at h
      · cases h
      rename_i seen' hcheck
      split at h
      · cases h
      · cases h
      rename_i here hhere
      obtain ⟨rest, hrest, rfl⟩ := exists_of_map_eq_ok h
      obtain ⟨hrecords, hawaits⟩ := ih hrest
      have hthere := forall₂_of_blockRecords (typed_of_columns hcolumns) hhere
      exact ⟨List.forall_mem_append.2 ⟨hthere, hrecords⟩, hawaits.of_check hcheck⟩
    · rename_i hschema hblock
      have hnames? : f.names? = none := by
        unfold Frame.names?
        split
        · exact absurd ‹_› (hschema _)
        · rfl
      rw [List.filterMap_cons_none hnames?]
      exact ih h

/-- **The records of a column batch fit the layout**, and the stream tells
the names of the wire schema. -/
theorem records_of_decode {s : Schema} {data : Bytes} (h : decode s l data = .ok records) :
    (∀ r ∈ records, List.Forall₂ Cell.Fits r.cells (l.columns.map Prod.fst)) ∧
      embeddedNames data = [s.names] := by
  unfold decode at h
  split at h
  · cases h
  split at h
  · cases h
  rename_i fs hfs
  obtain ⟨hrecords, hawaits⟩ := records_of_readFrames h
  refine ⟨hrecords, ?_⟩
  rw [embeddedNames, hfs]
  exact hawaits

end Intake.Columns
