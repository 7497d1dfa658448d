import Mathlib.Data.List.Nodup
import Mathlib.Data.List.DropRight
import Mathlib.Data.List.TakeWhile
import Intake.Proofs.Doubles
import Intake.Proofs.Requests
import Intake.Proofs.Respelling
import Intake.Proofs.Spellings
/-!
# What is written is read back

Every part of a configuration is written as a JSON value from which it is
read back, as far as the value can hold it: a factor that is no finite double
has no JSON form, and selected fields come back trimmed. A request that was
read from a text has neither defect. All numbers of the text's value are
sound (`Json.sound_of_ofText?`), so that the factor is finite, and trimming a
second time changes nothing (`ReadRequest.tidied_tidied`). A session has no
numbers, so that its text is read back as well (`Json.ofText?_written`). Main
statement: requests that were accepted, and all sessions, are read back
unchanged (`reread`).
-/

namespace Intake

/-! ## Values that come from a text -/

namespace Json

variable {names : List String} {vals : List (Option Json)} {j v : Json}

/-- A value all of whose numbers are sound. -/
inductive Sound : Json → Prop
  | null : Sound .null
  | bool (b : Bool) : Sound (.bool b)
  | number {n : Number} (h : n.Sound) : Sound (.number n)
  | text (s : Text) : Sound (.text s)
  | array {items : List Json} (h : ∀ v ∈ items, Sound v) : Sound (.array items)
  | object {members : List (Text × Json)} (h : ∀ m ∈ members, Sound m.2) :
      Sound (.object members)

/-- What is read with some fuel is sound: values, the items of arrays and
the members of objects. -/
structure SoundAt (fuel : Nat) : Prop where
  value {s v r} : value fuel s = some (v, r) → v.Sound
  items {s vs r} : items fuel s = some (vs, r) → ∀ v ∈ vs, v.Sound
  members {s ms r} : members fuel s = some (ms, r) → ∀ m ∈ ms, m.2.Sound

namespace SoundAt

variable {fuel : Nat} {s r : List Char}

theorem sound_value (h : SoundAt fuel) (hv : Json.value (fuel + 1) s = some (v, r)) :
    v.Sound := by
  rw [Json.value] at hv
  split at hv
  case h_1 =>
    split at hv
    · cases hv
      exact .object (List.forall_mem_nil _)
    · obtain ⟨⟨ms, rest⟩, hms, hv⟩ := Option.map_eq_some_iff.1 hv
      cases hv
      exact .object (h.members hms)
  case h_2 =>
    split at hv
    · cases hv
      exact .array (List.forall_mem_nil _)
    · obtain ⟨⟨vs, rest⟩, hvs, hv⟩ := Option.map_eq_some_iff.1 hv
      cases hv
      exact .array (h.items hvs)
  all_goals obtain ⟨x, -, hv⟩ := Option.map_eq_some_iff.1 hv; cases hv
  case h_3 => exact .text x.1
  case h_4 => exact .bool true
  case h_5 => exact .bool false
  case h_6 => exact .null
  case h_7 => exact .number x.1.sound_number

theorem sound_items {vs : List Json} (h : SoundAt fuel)
    (hvs : Json.items (fuel + 1) s = some (vs, r)) : ∀ v ∈ vs, v.Sound := by
  rw [Json.items] at hvs
  split at hvs
  · cases hvs
  · rename_i v _ hv
    split at hvs
    · obtain ⟨⟨ws, rest⟩, hws, hvs⟩ := Option.map_eq_some_iff.1 hvs
      cases hvs
      exact List.forall_mem_cons.2 ⟨h.value hv, h.items hws⟩
    · cases hvs
      exact List.forall_mem_singleton.2 (h.value hv)
    · cases hvs

theorem sound_members {ms : List (Text × Json)} (h : SoundAt fuel)
    (hms : Json.members (fuel + 1) s = some (ms, r)) : ∀ m ∈ ms, m.2.Sound := by
  rw [Json.members] at hms
  split at hms
  · split at hms
    · cases hms
    · split at hms
      · split at hms
        · cases hms
        · rename_i v _ hv
          split at hms
          · obtain ⟨⟨ns, rest⟩, hns, hms⟩ := Option.map_eq_some_iff.1 hms
            cases hms
            exact List.forall_mem_cons.2 ⟨h.value hv, h.members hns⟩
          · cases hms
            exact List.forall_mem_singleton.2 (h.value hv)
          · cases hms
      · cases hms
  · cases hms

end SoundAt

/-- Whatever is read is sound. -/
theorem soundAt (fuel : Nat) : SoundAt fuel := by
  induction fuel with
  | zero => exact ⟨nofun, nofun, nofun⟩
  | succ fuel ih => exact ⟨ih.sound_value, ih.sound_items, ih.sound_members⟩

/-- The numbers of the value that a text spells are sound. -/
theorem sound_of_ofText? {s : String} (h : ofText? s = some j) : j.Sound := by
  rw [ofText?] at h
  split at h
  · rename_i v rest hv
    split at h
    · cases h
      exact (soundAt _).value hv
    · cases h
  · cases h

/-- The fields of a sound value are sound. -/
theorem sound_of_fields? (hj : j.Sound) (h : j.fields? names = some vals)
    (hv : some v ∈ vals) : v.Sound := by
  cases hj with
  | null | bool | number | text => cases h
  | array hitems =>
    rw [fields?] at h
    split at h
    · cases h
      obtain ⟨i, -, hi⟩ := List.mem_map.1 hv
      exact hitems v (List.mem_of_getElem? hi)
    · cases h
  | object hmembers =>
    rw [fields?] at h
    split at h
    · cases h
    · obtain ⟨name, -, hfound⟩ := exists_of_mem_mapM h hv
      rw [member?] at hfound
      split at hfound
      · cases hfound
      · rename_i m hm
        cases hfound
        have hmem : m ∈ [m] := List.mem_singleton_self m
        rw [← hm] at hmem
        exact hmembers m (List.mem_filter.1 hmem).1
      · cases hfound

/-- A double that is read from a sound value is finite. -/
theorem isFinite_of_real? {x : Binary64} (hj : j.Sound) (h : j.real? = some x) :
    x.isFinite = true := by
  cases hj with
  | number hn =>
    rename_i n
    cases n with
    | int n =>
      cases h
      exact Binary64.isFinite_ofInt hn.1 hn.2
    | real y =>
      cases h
      exact hn
    | beyond => cases h
  | null | bool | text | array | object => cases h

end Json

/-! ## What a request that was read is like -/

theorem Backoff.isFinite_default : ({} : Backoff).multiplier.isFinite = true := by decide

/-- A wait is read field by field. -/
theorem Backoff.ofJson?_eq_some_iff {j : Json} {b : Backoff} :
    ofJson? j = some b ↔
      ∃ initial max multiplier,
      j.fields? ["initialDelayMs", "maxDelayMs", "multiplier"] =
        some [initial, max, multiplier] ∧
      Json.fieldOr 100 Json.uint64? initial = some b.initialDelayMs ∧
      Json.fieldOr 5000 Json.uint64? max = some b.maxDelayMs ∧
      Json.fieldOr ({} : Backoff).multiplier Json.real? multiplier = some b.multiplier := by
  constructor
  · intro h
    obtain ⟨vals, hvals, h⟩ := Option.bind_eq_some_iff.1 h
    split at h
    · obtain ⟨_, h1, h⟩ := Option.bind_eq_some_iff.1 h
      obtain ⟨_, h2, h⟩ := Option.bind_eq_some_iff.1 h
      obtain ⟨_, h3, h⟩ := Option.bind_eq_some_iff.1 h
      obtain rfl := Option.some.inj h
      exact ⟨_, _, _, hvals, h1, h2, h3⟩
    · cases h
  · rintro ⟨_, _, _, hvals, h1, h2, h3⟩
    rw [ofJson?, Json.bind_eq hvals]
    dsimp only
    rw [Json.bind_eq h1, Json.bind_eq h2, Json.bind_eq h3]
    rfl

/-- Read options are read field by field. -/
theorem ReadOptions.ofJson?_eq_some_iff {j : Json} {o : ReadOptions} :
    ofJson? j = some o ↔
      ∃ retries timeout threads prefetch endpoint backoff,
      j.fields? ["maxReadRowsRetries", "attemptTimeoutMs", "backgroundParsingThreads",
        "prefetchResponses", "endpoint", "backoff"] =
        some [retries, timeout, threads, prefetch, endpoint, backoff] ∧
      Json.fieldOr 5 Json.uint32? retries = some o.maxRetries ∧
      Json.fieldOr none (Json.optional? Json.uint64?) timeout = some o.attemptTimeoutMs ∧
      Json.fieldOr 5 Json.uint64? threads = some o.parsingThreads ∧
      Json.fieldOr 1 Json.uint64? prefetch = some o.prefetch ∧
      Json.fieldOr none (Json.optional? Json.text?) endpoint = some o.endpoint ∧
      Json.fieldOr {} Backoff.ofJson? backoff = some o.backoff := by
  constructor
  · intro h
    obtain ⟨vals, hvals, h⟩ := Option.bind_eq_some_iff.1 h
    split at h
    · obtain ⟨_, h1, h⟩ := Option.bind_eq_some_iff.1 h
      obtain ⟨_, h2, h⟩ := Option.bind_eq_some_iff.1 h
      obtain ⟨_, h3, h⟩ := Option.bind_eq_some_iff.1 h
      obtain ⟨_, h4, h⟩ := Option.bind_eq_some_iff.1 h
      obtain ⟨_, h5, h⟩ := Option.bind_eq_some_iff.1 h
      obtain ⟨_, h6, h⟩ := Option.bind_eq_some_iff.1 h
      obtain rfl := Option.some.inj h
      exact ⟨_, _, _, _, _, _, hvals, h1, h2, h3, h4, h5, h6⟩
    · cases h
  · rintro ⟨_, _, _, _, _, _, hvals, h1, h2, h3, h4, h5, h6⟩
    rw [ofJson?, Json.bind_eq hvals]
    dsimp only
    rw [Json.bind_eq h1, Json.bind_eq h2, Json.bind_eq h3, Json.bind_eq h4, Json.bind_eq h5,
      Json.bind_eq h6]
    rfl

theorem Backoff.isFinite_of_ofJson? {j : Json} {b : Backoff} (hj : j.Sound)
    (h : ofJson? j = some b) : b.multiplier.isFinite = true := by
  obtain ⟨_, _, multiplier, hvals, -, -, hread⟩ := ofJson?_eq_some_iff.1 h
  cases multiplier with
  | none =>
    rw [← Option.some.inj hread]
    exact isFinite_default
  | some v => exact Json.isFinite_of_real? (Json.sound_of_fields? hj hvals (by simp)) hread

theorem ReadOptions.isFinite_of_ofJson? {j : Json} {o : ReadOptions} (hj : j.Sound)
    (h : ofJson? j = some o) : o.backoff.multiplier.isFinite = true := by
  obtain ⟨_, _, _, _, _, backoff, hvals, -, -, -, -, -, hread⟩ := ofJson?_eq_some_iff.1 h
  cases backoff with
  | none =>
    rw [← Option.some.inj hread]
    exact Backoff.isFinite_default
  | some v => exact Backoff.isFinite_of_ofJson? (Json.sound_of_fields? hj hvals (by simp)) hread

namespace Text

/-- Trimming twice is trimming once. -/
theorem trimChars_trimChars (s : List Char) : trimChars (trimChars s) = trimChars s := by
  have htrim (t : List Char) : trimChars t = (t.dropWhile isBlank).rdropWhile isBlank := rfl
  have hfront : (trimChars s).dropWhile isBlank = trimChars s := by
    refine List.dropWhile_eq_self_iff.2 fun hpos => ?_
    have hbegins : trimChars s <+: s.dropWhile isBlank := List.rdropWhile_prefix ..
    rw [hbegins.getElem]
    exact List.dropWhile_eq_self_iff.1 (List.dropWhile_idempotent ..) _
  rw [htrim, hfront, htrim, List.rdropWhile_idempotent]

theorem trim_trim (s : String) : trim (trim s) = trim s := by
  simp [trim, trimChars_trimChars]

end Text

namespace ReadRequest

variable {j : Json} {r : ReadRequest}

/-- The names that are selected stay selected as they are. -/
theorem tidied_tidied (xs : List String) : tidied (tidied xs) = tidied xs := by
  have hkept (x : String) (hx : x ∈ tidied xs) : Text.trim x = x := by
    obtain ⟨hmem, -⟩ := List.mem_filter.1 hx
    obtain ⟨y, -, rfl⟩ := List.mem_map.1 hmem
    exact Text.trim_trim y
  have hmap : (tidied xs).map Text.trim = tidied xs := by
    conv_rhs => rw [← List.map_id (tidied xs)]
    exact List.map_congr_left hkept
  rw [tidied, hmap, tidied, List.filter_filter]
  simp

theorem exists_of_fieldList? {names : List String} (h : fieldList? j = some names) :
    ∃ items, names = tidied items := by
  rw [fieldList?.eq_def] at h
  split at h
  all_goals
    obtain ⟨items, -, h⟩ := Option.bind_eq_some_iff.1 h
    exact ⟨items, (Option.some.inj h).symm⟩

/-- A request that is written without loss: its names are trimmed and its
factor is finite. -/
structure Plain (r : ReadRequest) : Prop where
  names : tidied r.selectedFields = r.selectedFields
  factor : r.read.backoff.multiplier.isFinite = true

theorem plain_of_ofJson? (hj : j.Sound) (h : ofJson? j = some r) : Plain r := by
  obtain ⟨_, _, _, _, selected, _, _, _, _, _, _, _, read, hvals, -, -, -, -, hnames, -, -, -, -, -,
    -, -, hread⟩ := ofJson?_eq_some_iff.1 h
  constructor
  · cases selected with
    | none =>
      rw [← Option.some.inj hnames]
      rfl
    | some v =>
      obtain ⟨items, hitems⟩ := exists_of_fieldList? hnames
      rw [hitems, tidied_tidied]
  · cases read with
    | none =>
      rw [← Option.some.inj hread]
      exact Backoff.isFinite_default
    | some v => exact ReadOptions.isFinite_of_ofJson? (Json.sound_of_fields? hj hvals (by simp)) hread

end ReadRequest

/-! ## Writing and reading -/

namespace Json

variable {α : Type}

/-- A field that is given is read. -/
theorem fieldOr_eq {d a : α} {f : Json → Option α} {j : Json} (h : f j = some a) :
    fieldOr d f (some j) = some a := h

theorem text?_str (s : String) : (str s).text? = some s := rfl

theorem bool?_bool (b : Bool) : (Json.bool b).bool? = some b := rfl

/-- A natural number below a limit is read back. -/
theorem natBelow?_nat {n limit : Nat} (h : n < limit) : (nat n).natBelow? limit = some n := by
  simp [natBelow?, nat, h]

theorem uint64?_nat (n : UInt64) : (nat n.toNat).uint64? = some n := by
  rw [uint64?, natBelow?_nat n.toNat_lt_size, Option.map_some, UInt64.ofNat_toNat]

theorem uint32?_nat (n : UInt32) : (nat n.toNat).uint32? = some n := by
  rw [uint32?, natBelow?_nat n.toNat_lt_size, Option.map_some, UInt32.ofNat_toNat]

/-- A finite double is read back. -/
theorem real?_real {x : Binary64} (h : x.isFinite = true) : (real x).real? = some x := by
  rw [real, if_pos h]
  rfl

/-- A value that may be absent is read back, where no value is written as
null. -/
theorem optional?_ofOption {f : Json → Option α} {g : α → Json} (h : ∀ a, f (g a) = some a)
    (hnull : ∀ a, g a ≠ .null) (o : Option α) : optional? f (ofOption g o) = some o := by
  cases o with
  | none => rfl
  | some a => simp [ofOption, optional?, h, hnull]

/-- The fields of an object with distinct names are the values of its members. -/
theorem fields?_record {ms : List (String × Json)} (hn : (ms.map Prod.fst).Nodup) :
    (record ms).fields? (ms.map Prod.fst) = some (ms.map fun m => some m.2) := by
  have hmember (m : String × Json) (hm : m ∈ ms) :
      member? (ms.map fun m => (some m.1, m.2)) m.1 = some (some m.2) := by
    obtain ⟨before, after, rfl⟩ := List.append_of_mem hm
    simp only [List.map_append, List.map_cons, List.nodup_append, List.nodup_cons, List.mem_map,
      List.mem_cons] at hn
    obtain ⟨-, ⟨hafter, -⟩, hbefore⟩ := hn
    have hb : before.filter (fun x => x.1 == m.1) = [] := by
      refine List.filter_eq_nil_iff.2 fun x hx h => ?_
      exact hbefore x.1 ⟨x, hx, rfl⟩ m.1 (.inl rfl) (by simpa using h)
    have ha : after.filter (fun x => x.1 == m.1) = [] := by
      refine List.filter_eq_nil_iff.2 fun x hx h => ?_
      exact hafter ⟨x, hx, by simpa using h⟩
    simp [member?, List.filter_map, Function.comp_def, hb, ha]
  have hvalues := mapM_eq_some_map (f := fun m : String × Json =>
    member? (ms.map fun m => (some m.1, m.2)) m.1) hmember
  rw [record, fields?, if_neg (by simp), List.mapM_map]
  exact hvalues

end Json

variable {r : ReadRequest} {b : Backoff} {o : ReadOptions}

theorem FieldType.ofJson?_toJson (t : FieldType) : ofJson? t.toJson = some t := by
  cases t <;> decide

theorem WireFormat.ofJson?_toJson (f : WireFormat) : ofJson? f.toJson = some f := by
  cases f <;> decide

theorem SplitId.ofJson?_toJson (s : SplitId) : ofJson? s.toJson = some s := rfl

theorem Field.ofJson?_toJson (f : Field) : ofJson? f.toJson = some f := by
  have hfields : f.toJson.fields? ["name", "type", "nullable"] =
      some [some (.str f.name), some f.type.toJson, some (.bool f.nullable)] :=
    Json.fields?_record (show ["name", "type", "nullable"].Nodup by decide)
  simp [ofJson?, hfields, Json.required, Json.fieldOr, Json.text?_str, Json.bool?_bool,
    FieldType.ofJson?_toJson]

theorem Schema.ofJson?_toJson (s : Schema) : ofJson? s.toJson = some s := by
  rw [ofJson?, toJson, Json.list?_array_map Field.ofJson?_toJson, Option.map_some]

theorem Session.ofJson?_toJson (s : Session) : ofJson? s.toJson = some s := by
  have hfields : s.toJson.fields? ["splits", "schema", "format"] =
      some [some (.array (s.splits.map SplitId.toJson)), some s.schema.toJson,
        some s.format.toJson] :=
    Json.fields?_record (show ["splits", "schema", "format"].Nodup by decide)
  simp [ofJson?, hfields, Json.required, Json.fieldOr, Schema.ofJson?_toJson,
    WireFormat.ofJson?_toJson, Json.list?_array_map SplitId.ofJson?_toJson]

theorem Backoff.ofJson?_toJson (h : b.multiplier.isFinite = true) :
    ofJson? b.toJson = some b :=
  ofJson?_eq_some_iff.2 ⟨_, _, _,
    Json.fields?_record (show ["initialDelayMs", "maxDelayMs", "multiplier"].Nodup by decide),
    Json.fieldOr_eq (Json.uint64?_nat _), Json.fieldOr_eq (Json.uint64?_nat _),
    Json.fieldOr_eq (Json.real?_real h)⟩

theorem ReadOptions.ofJson?_toJson (h : o.backoff.multiplier.isFinite = true) :
    ofJson? o.toJson = some o :=
  ofJson?_eq_some_iff.2 ⟨_, _, _, _, _, _,
    Json.fields?_record (show ["maxReadRowsRetries", "attemptTimeoutMs",
      "backgroundParsingThreads", "prefetchResponses", "endpoint", "backoff"].Nodup by decide),
    Json.fieldOr_eq (Json.uint32?_nat _),
    Json.fieldOr_eq (Json.optional?_ofOption Json.uint64?_nat nofun _),
    Json.fieldOr_eq (Json.uint64?_nat _), Json.fieldOr_eq (Json.uint64?_nat _),
    Json.fieldOr_eq (Json.optional?_ofOption Json.text?_str nofun _),
    Json.fieldOr_eq (Backoff.ofJson?_toJson h)⟩

/-- A plain request is read back. -/
theorem ReadRequest.ofJson?_toJson (h : r.Plain) : ofJson? r.toJson = some r := by
  have htext (o : Option String) : Json.fieldOr none (Json.optional? Json.text?)
      (some (.ofOption .str o)) = some o :=
    Json.fieldOr_eq (Json.optional?_ofOption Json.text?_str nofun o)
  have hnames : fieldList? (.array (r.selectedFields.map .str)) = some r.selectedFields := by
    rw [fieldList?_array, h.names]
  exact ofJson?_eq_some_iff.2 ⟨_, _, _, _, _, _, _, _, _, _, _, _, _,
    Json.fields?_record (show keys.Nodup by decide), htext _, htext _, htext _, htext _,
    Json.fieldOr_eq hnames, Json.fieldOr_eq (Json.uint64?_nat _),
    Json.fieldOr_eq (Json.optional?_ofOption Json.uint64?_nat nofun _), htext _, htext _,
    htext _, Json.fieldOr_eq (WireFormat.ofJson?_toJson _), Json.fieldOr_eq (Json.uint64?_nat _),
    Json.fieldOr_eq (ReadOptions.ofJson?_toJson h.factor)⟩

theorem Field.wordy_toJson (f : Field) : f.toJson.Wordy := by
  refine .object (by simp) ?_
  simp only [List.map_cons, List.map_nil, List.forall_mem_cons]
  exact ⟨.text _, .text _, .bool _, nofun⟩

/-- Nothing in a session is a number. -/
theorem Session.wordy_toJson (s : Session) : s.toJson.Wordy := by
  have hsplits : (Json.array (s.splits.map SplitId.toJson)).Wordy :=
    .array (List.forall_mem_map.2 fun _ _ => .text _)
  have hschema : s.schema.toJson.Wordy :=
    .array (List.forall_mem_map.2 fun f _ => f.wordy_toJson)
  refine .object (by simp) ?_
  simp only [List.map_cons, List.map_nil, List.forall_mem_cons]
  exact ⟨hsplits, hschema, .text _, nofun⟩

/-- **What is written is read back.** A request that was accepted is read back
from the value it is written as, unchanged to the bits of its factor, and is
consistent again; and every session is read back from its value, and the value
from its text. -/
theorem reread :
    (∀ text r, ReadRequest.ofText text = .ok r →
      ReadRequest.ofJson? r.toJson = some r ∧ r.validate = .ok ()) ∧
    ∀ s : Session, Session.ofJson? s.toJson = some s ∧
      Json.ofText? s.toJson.written = some s.toJson := by
  refine ⟨fun text r h => ⟨?_, ReadRequest.validate_of_ofText h⟩,
    fun s => ⟨s.ofJson?_toJson, Json.ofText?_written s.wordy_toJson⟩⟩
  obtain ⟨j, hj⟩ : ∃ j, Json.ofText? text = some j := by
    cases hj : Json.ofText? text with
    | some j => exact ⟨j, rfl⟩
    | none => simp [ReadRequest.ofText, hj] at h
  have hread := ReadRequest.ofJson?_of_ofText hj h
  exact ReadRequest.ofJson?_toJson (ReadRequest.plain_of_ofJson? (Json.sound_of_ofText? hj) hread)

namespace Sample

/-- The text of a request for a field with a comma in its name and another,
with a factor between retries. -/
def factoredText : String :=
  "\x7b\"query\": \"select 1\", \"materializationProject\": \"p\", " ++
    "\"materializationDataset\": \"d\", \"selectedFields\": [\"a, b\", \" c \"], " ++
    "\"read\": \x7b\"endpoint\": null, \"backoff\": \x7b\"multiplier\": 2.5\x7d\x7d\x7d"

/-- The request that it spells. -/
def factored : ReadRequest :=
  { query := some "select 1", materializationProject := some "p",
    materializationDataset := some "d", selectedFields := ["a, b", "c"],
    read := { backoff := { multiplier := ⟨0x4004000000000000⟩ } } }

theorem ofText_factoredText : ReadRequest.ofText factoredText = .ok factored := by
  decide +kernel

end Sample

/-- The request with the factor is read back, and so is the session. -/
theorem reread_factored :
    ReadRequest.ofText Sample.factoredText = .ok Sample.factored ∧
      ReadRequest.ofJson? Sample.factored.toJson = some Sample.factored ∧
      Sample.factored.validate = .ok () ∧
      Session.ofJson? Sample.session.toJson = some Sample.session ∧
      Json.ofText? Sample.session.toJson.written = some Sample.session.toJson := by
  obtain ⟨hrequests, hsessions⟩ := reread
  exact ⟨Sample.ofText_factoredText, (hrequests _ _ Sample.ofText_factoredText).1,
    (hrequests _ _ Sample.ofText_factoredText).2, hsessions _⟩

end Intake
