import Mathlib.Data.List.Basic
import Intake.Config.Request
import Intake.Proofs.Pieces
/-!
# Two ways to write the selected fields

The fields that a request selects are written as one text with commas or as
an array of texts. A comma parts a text wherever it stands
(`Text.splitOn_append_cons`), so that the joined names fall apart into the
names again, and what nothing is left of after trimming is dropped either
way. All the rest of a request is read independently of it
(`ReadRequest.ofJson?_fill`). Main statement: names without commas are read
alike in both ways, and a comma more between two of them, or behind them,
changes nothing (`ReadRequest.spellings_agree`).
-/

namespace Intake

/-- The pieces of a text around a comma. -/
theorem Text.pieces_append_comma (a b : String) :
    pieces ',' (a ++ "," ++ b) = pieces ',' a ++ pieces ',' b := pieces_append ',' a b

namespace ReadRequest

/-! ## What is kept of a list of names -/

/-- The names that are selected by a list of texts: the items trimmed, in
order, without the empty ones. -/
def tidied (xs : List String) : List String := (xs.map Text.trim).filter fun s => s ≠ ""

theorem tidied_append (xs ys : List String) : tidied (xs ++ ys) = tidied xs ++ tidied ys := by
  simp [tidied]

/-- An empty text selects nothing. -/
@[simp] theorem tidied_pieces_empty : tidied (Text.pieces ',' "") = [] := by decide

theorem fieldList?_str (s : String) : fieldList? (.str s) = some (tidied (Text.pieces ',' s)) := rfl

theorem fieldList?_array (xs : List String) :
    fieldList? (.array (xs.map .str)) = some (tidied xs) := by
  have hread : Json.list? Json.text? (.array (xs.map .str)) = some xs :=
    Json.list?_array_map (g := Json.str) (fun _ => rfl) xs
  simp [fieldList?, hread, tidied]

/-- Names without commas are selected by the text that joins them. -/
theorem tidied_pieces_intercalate {xs : List String} (hx : ∀ x ∈ xs, ',' ∉ x.toList) :
    tidied (Text.pieces ',' (",".intercalate xs)) = tidied xs := by
  by_cases hne : xs = []
  · subst hne
    exact tidied_pieces_empty
  · exact congrArg tidied (Text.pieces_intercalate hne hx)

/-- A comma behind a text selects nothing more. -/
theorem fieldList?_trailing (a : String) :
    fieldList? (.str (a ++ ",")) = fieldList? (.str a) := by
  have h := Text.pieces_append_comma a ""
  rw [String.append_empty] at h
  simp [fieldList?_str, h, tidied_append]

/-- Nor does a second comma behind a comma. -/
theorem fieldList?_doubled (a b : String) :
    fieldList? (.str (a ++ "," ++ "," ++ b)) = fieldList? (.str (a ++ "," ++ b)) := by
  have htrailing : tidied (Text.pieces ',' (a ++ ",")) = tidied (Text.pieces ',' a) :=
    Option.some_inj.1 (fieldList?_trailing a)
  rw [fieldList?_str, fieldList?_str, Text.pieces_append_comma, Text.pieces_append_comma,
    tidied_append, tidied_append, htrailing]

/-! ## The rest of a request -/

variable {j : Json} {r : ReadRequest}

/-- A request is read field by field. -/
theorem ofJson?_eq_some_iff :
    ofJson? j = some r ↔
      ∃ parent table query filter selected parallelism limit project dataset credentials format
        capacity read,
      j.fields? keys = some [parent, table, query, filter, selected, parallelism, limit, project,
        dataset, credentials, format, capacity, read] ∧
      Json.fieldOr none (Json.optional? Json.text?) parent = some r.parentProject ∧
      Json.fieldOr none (Json.optional? Json.text?) table = some r.table ∧
      Json.fieldOr none (Json.optional? Json.text?) query = some r.query ∧
      Json.fieldOr none (Json.optional? Json.text?) filter = some r.filter ∧
      Json.fieldOr [] fieldList? selected = some r.selectedFields ∧
      Json.fieldOr 1 Json.uint64? parallelism = some r.parallelism ∧
      Json.fieldOr none (Json.optional? Json.uint64?) limit = some r.maxParallelism ∧
      Json.fieldOr none (Json.optional? Json.text?) project = some r.materializationProject ∧
      Json.fieldOr none (Json.optional? Json.text?) dataset = some r.materializationDataset ∧
      Json.fieldOr none (Json.optional? Json.text?) credentials = some r.credentialsFile ∧
      Json.fieldOr .arrow WireFormat.ofJson? format = some r.format ∧
      Json.fieldOr 1024 Json.uint64? capacity = some r.channelCapacity ∧
      Json.fieldOr {} ReadOptions.ofJson? read = some r.read := by
  constructor
  · intro h
    obtain ⟨vals, hvals, h⟩ := Option.bind_eq_some_iff.1 h
    split at h
    · obtain ⟨_, h1, h⟩ := Option.bind_eq_some_iff.1 h
      obtain ⟨_, h2, h⟩ := Option.bind_eq_some_iff.1 h
      obtain ⟨_, h3, h⟩ := Option.bind_eq_some_iff.1 h
      obtain ⟨_, h4, h⟩ := Option.bind_eq_some_iff.1 h
      obtain ⟨_, h5, h⟩ := Option.bind_eq_some_iff.1 h
      obtain ⟨_, h6, h⟩ := Option.bind_eq_some_iff.1 h
      obtain ⟨_, h7, h⟩ := Option.bind_eq_some_iff.1 h
      obtain ⟨_, h8, h⟩ := Option.bind_eq_some_iff.1 h
      obtain ⟨_, h9, h⟩ := Option.bind_eq_some_iff.1 h
      obtain ⟨_, h10, h⟩ := Option.bind_eq_some_iff.1 h
      obtain ⟨_, h11, h⟩ := Option.bind_eq_some_iff.1 h
      obtain ⟨_, h12, h⟩ := Option.bind_eq_some_iff.1 h
      obtain ⟨_, h13, h⟩ := Option.bind_eq_some_iff.1 h
      obtain rfl := Option.some.inj h
      exact ⟨_, _, _, _, _, _, _, _, _, _, _, _, _, hvals, h1, h2, h3, h4, h5, h6, h7, h8, h9,
        h10, h11, h12, h13⟩
    · cases h
  · rintro ⟨_, _, _, _, _, _, _, _, _, _, _, _, _, hvals, h1, h2, h3, h4, h5, h6, h7, h8, h9, h10,
      h11, h12, h13⟩
    rw [ofJson?, Json.bind_eq hvals]
    dsimp only
    rw [Json.bind_eq h1, Json.bind_eq h2, Json.bind_eq h3, Json.bind_eq h4, Json.bind_eq h5,
      Json.bind_eq h6, Json.bind_eq h7, Json.bind_eq h8, Json.bind_eq h9, Json.bind_eq h10,
      Json.bind_eq h11, Json.bind_eq h12, Json.bind_eq h13]
    rfl

/-- A request without the value of its selected fields: an object around the
member of that name, or an array around the fifth place. -/
inductive Frame where
  | object (before after : List (Json.Text × Json))
  | array (parent table query filter : Json) (after : List Json)

namespace Frame

/-- The request with a value for its selected fields. -/
def fill : Frame → Json → Json
  | .object before after, v => .object (before ++ (some "selectedFields", v) :: after)
  | .array parent table query filter after, v =>
    .array (parent :: table :: query :: filter :: v :: after)

end Frame

/-- Whatever value stands there, the fields of the request are those of the
frame around it, or there are none at all. -/
theorem fields?_fill (f : Frame) :
    (∀ v, (f.fill v).fields? keys = none) ∨
      ∃ a b c d rest, ∀ v, (f.fill v).fields? keys = some (a :: b :: c :: d :: some v :: rest) := by
  cases f with
  | array parent table query filter after =>
    by_cases h : after.length + 5 ≤ keys.length
    · refine .inr ⟨some parent, some table, some query, some filter,
        (List.range' 0 8).map fun i => after[i]?, fun v => ?_⟩
      exact if_pos h
    · exact .inl fun v => if_neg h
  | object before after =>
    rcases @Json.fields?_object before after "selectedFields" (keys.take 4) (keys.drop 5)
      (by decide) (by decide) with h | ⟨xs, ys, hxs, h⟩
    · exact .inl h
    · obtain ⟨a, b, c, d, rfl⟩ := List.length_eq_four.1 hxs
      exact .inr ⟨a, b, c, d, ys, h⟩

/-- **The rest of a request is read on its own.** A request is what the frame
around its selected fields is read as, with the names that are read put in. -/
theorem ofJson?_fill (f : Frame) (v : Json) :
    ofJson? (f.fill v) =
      (fieldList? v).bind fun names =>
        (ofJson? (f.fill (.array []))).map fun r => { r with selectedFields := names } := by
  rcases fields?_fill f with h | ⟨a, b, c, d, rest, h⟩
  · have hnone (v : Json) : ofJson? (f.fill v) = none := by
      rw [ofJson?, h]
      rfl
    rw [hnone, hnone]
    cases fieldList? v <;> rfl
  · ext r
    simp only [Option.bind_eq_some_iff, Option.map_eq_some_iff]
    constructor
    · intro hr
      obtain ⟨_, _, _, _, _, _, _, _, _, _, _, _, _, hvals, ha, hb, hc, hd, hnames, hrest⟩ :=
        ofJson?_eq_some_iff.1 hr
      rw [h] at hvals
      cases hvals
      exact ⟨_, hnames, { r with selectedFields := [] }, ofJson?_eq_some_iff.2
        ⟨_, _, _, _, _, _, _, _, _, _, _, _, _, h _, ha, hb, hc, hd, rfl, hrest⟩, rfl⟩
    · rintro ⟨names, hnames, r, hr, rfl⟩
      obtain ⟨_, _, _, _, _, _, _, _, _, _, _, _, _, hvals, ha, hb, hc, hd, -, hrest⟩ :=
        ofJson?_eq_some_iff.1 hr
      rw [h] at hvals
      cases hvals
      exact ofJson?_eq_some_iff.2
        ⟨_, _, _, _, _, _, _, _, _, _, _, _, _, h _, ha, hb, hc, hd, hnames, hrest⟩

/-- Two values for the selected fields that no request tells apart, neither
as a value nor as a text. -/
def Alike (v w : Json) : Prop :=
  ∀ f : Frame, ofJson? (f.fill v) = ofJson? (f.fill w) ∧
    ∀ s t, Json.ofText? s = some (f.fill v) → Json.ofText? t = some (f.fill w) →
      ofText s = ofText t

theorem alike_of_fieldList? {v w : Json} (h : fieldList? v = fieldList? w) : Alike v w := by
  intro f
  have heq : ofJson? (f.fill v) = ofJson? (f.fill w) := by rw [ofJson?_fill, h, ← ofJson?_fill]
  refine ⟨heq, fun s t hs ht => ?_⟩
  rw [ofText, ofText, hs, ht, Option.bind_some, Option.bind_some, heq]

/-- The request that a text spells is the one that its value is read as. -/
theorem ofJson?_of_ofText {text : String} {j : Json} {r : ReadRequest}
    (hj : Json.ofText? text = some j) (h : ofText text = .ok r) : ofJson? j = some r := by
  rw [ofText, hj, Option.bind_some] at h
  cases hr : ofJson? j with
  | none => simp [hr] at h
  | some r' =>
    rw [hr] at h
    cases hv : r'.validate <;> simp_all [bind, Except.bind, pure, Except.pure]

/-- **The two spellings agree.** No request tells names without commas, joined
by commas, from the array of these names: either way it is what the rest of it
is read as, with the names trimmed, in order, without the empty ones. And no
request tells a text from the one with a comma more, behind it or behind one
of its commas. -/
theorem spellings_agree {xs : List String} (hx : ∀ x ∈ xs, ',' ∉ x.toList) :
    Alike (.str (",".intercalate xs)) (.array (xs.map .str)) ∧
    (∀ f : Frame, ∀ v ∈ [Json.str (",".intercalate xs), .array (xs.map .str)],
      ofJson? (f.fill v) =
          (ofJson? (f.fill (.array []))).map (fun r => { r with selectedFields := tidied xs }) ∧
        ∀ text r, Json.ofText? text = some (f.fill v) → ofText text = .ok r →
          r.selectedFields = tidied xs) ∧
    ∀ a b : String, Alike (.str (a ++ ",")) (.str a) ∧
      Alike (.str (a ++ "," ++ "," ++ b)) (.str (a ++ "," ++ b)) := by
  have hjoined : fieldList? (.str (",".intercalate xs)) = some (tidied xs) := by
    rw [fieldList?_str, tidied_pieces_intercalate hx]
  have hlisted := fieldList?_array xs
  refine ⟨alike_of_fieldList? (hjoined.trans hlisted.symm), fun f v hv => ?_, fun a b =>
    ⟨alike_of_fieldList? (fieldList?_trailing a), alike_of_fieldList? (fieldList?_doubled a b)⟩⟩
  have hnames : fieldList? v = some (tidied xs) := by
    rcases List.mem_pair.1 hv with rfl | rfl
    · exact hjoined
    · exact hlisted
  have hread := ofJson?_fill f v
  rw [hnames, Option.bind_some] at hread
  refine ⟨hread, fun text r htext hr => ?_⟩
  rw [ofJson?_of_ofText htext hr] at hread
  obtain ⟨r', -, rfl⟩ := Option.map_eq_some_iff.1 hread.symm
  rfl

end ReadRequest

namespace Sample

/-- Names with blanks around them, and blank ones between them. -/
def spaced : List String := ["\u00a0a ", "", "\u3000", "\tb"]

/-- A request for a table, around the place of its selected fields. -/
def spacedFrame : ReadRequest.Frame :=
  .object [(some "table", .str "ds.t")] [(some "parallelism", .nat 2)]

/-- The text with the names joined. -/
def joinedText : String :=
  "\x7b\"table\": \"ds.t\", \"selectedFields\": \"\u00a0a ,,\u3000,\\tb\", \"parallelism\": 2\x7d"

/-- The text with the names in an array. -/
def listedText : String :=
  "\x7b\"table\": \"ds.t\", \"selectedFields\": [\"\u00a0a \", \"\", \"\u3000\", \"\\tb\"], " ++
    "\"parallelism\": 2\x7d"

end Sample

/-- Of four names with blanks two are left, and both texts spell the request
for these two. -/
theorem ReadRequest.spellings_of_spaced :
    (∀ x ∈ Sample.spaced, ',' ∉ x.toList) ∧
      ReadRequest.ofText Sample.joinedText = ReadRequest.ofText Sample.listedText ∧
      ReadRequest.ofText Sample.listedText =
        .ok { table := some "ds.t", selectedFields := ["a", "b"], parallelism := 2 } ∧
      ReadRequest.tidied Sample.spaced = ["a", "b"] := by
  have hx : ∀ x ∈ Sample.spaced, ',' ∉ x.toList := by decide
  have hjoined : Json.ofText? Sample.joinedText =
    some (Sample.spacedFrame.fill (.str (",".intercalate Sample.spaced))) := by decide +kernel
  have hlisted : Json.ofText? Sample.listedText =
    some (Sample.spacedFrame.fill (.array (Sample.spaced.map .str))) := by decide +kernel
  have hrequest : ReadRequest.ofText Sample.listedText =
    .ok { table := some "ds.t", selectedFields := ["a", "b"], parallelism := 2 } := by
    decide +kernel
  obtain ⟨halike, hread, -⟩ := ReadRequest.spellings_agree hx
  have hnames := (hread Sample.spacedFrame _ (by simp)).2 _ _ hlisted hrequest
  exact ⟨hx, (halike Sample.spacedFrame).2 _ _ hjoined hlisted, hrequest, hnames.symm⟩

end Intake
