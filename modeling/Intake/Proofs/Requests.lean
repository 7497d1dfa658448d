import Intake.Config.Request
import Intake.Proofs.Codecs
import Intake.Proofs.Layouts
import Intake.Proofs.Opened
/-!
# Runs that requests ask for

A request is checked by itself, a session against the request, and the
settings of the run once more when it opens. What the first two checks
leave to the third is stated here. They leave the fields that the request
selects, which may be repeated or unknown, and the names of the fields,
which the row format may refuse. They also leave the capacity of the
channel, which a request may give as zero, though no run opens with it
(`misfits_of_request`).
-/

namespace Intake

variable {text : String} {r : ReadRequest} {s : Session} {name : String}
variable {names seen selected : List String} {e : Misfit}

/-! ## Schemas that can be run -/

namespace Schema

variable {s : Schema}

theorem nodup_of_checkNames {fs : List Field} (h : checkNames seen fs = .ok ()) :
    (fs.map Field.name).Nodup ∧ seen.Disjoint (fs.map Field.name) := by
  induction fs generalizing seen with
  | nil => simp
  | cons f fs ih =>
    rw [checkNames] at h
    split at h
    · cases h
    split at h
    · cases h
    rename_i hf
    obtain ⟨hn, hd⟩ := ih h
    rw [List.disjoint_cons_left] at hd
    exact ⟨List.nodup_cons.2 ⟨hd.1, hn⟩, List.disjoint_cons_right.2 ⟨hf, hd.2⟩⟩

/-- The fields of a schema that can be run have distinct names. -/
theorem nodup_names (h : s.validate = .ok ()) : s.names.Nodup := by
  rw [validate] at h
  split at h
  · cases h
  · exact (nodup_of_checkNames h).1

/-- Among distinct names, one that occurs is found. -/
theorem exists_indexOf? (hn : s.names.Nodup) (h : name ∈ s.names) :
    ∃ i, s.indexOf? name = some i := by
  obtain ⟨f, hf, rfl⟩ := List.mem_map.1 h
  obtain ⟨i, hi⟩ := List.mem_iff_getElem?.1 hf
  have hmem : (f, i) ∈ s.fields.zipIdx.filter fun g => g.1.name == f.name :=
    List.mem_filter.2 ⟨List.mem_zipIdx_iff_getElem?.2 hi, by simp⟩
  have hnames : ((s.fields.zipIdx.filter fun g => g.1.name == f.name).map
      fun g => g.1.name).Nodup := by
    refine List.Nodup.sublist (List.Sublist.map _ List.filter_sublist) ?_
    rw [← Function.comp_def Field.name Prod.fst, ← List.map_map, List.zipIdx_map_fst]
    exact hn
  refine ⟨i, ?_⟩
  rw [indexOf?]
  match hgs : s.fields.zipIdx.filter fun g => g.1.name == f.name with
  | [] => simp [hgs] at hmem
  | [g] =>
    rw [hgs, List.mem_singleton] at hmem
    rw [hgs, ← hmem]
  | g :: g' :: gs =>
    -- two fields of the name would have one name twice
    have hall : ∀ q ∈ g :: g' :: gs, q.1.name = f.name := by
      intro q hq
      rw [← hgs] at hq
      simpa using (List.mem_filter.1 hq).2
    rw [hgs] at hnames
    simp [hall g (by simp), hall g' (by simp)] at hnames

end Schema

/-! ## Fields that are selected -/

/-- What has been seen and comes again is there twice. -/
theorem two_le_count_append {α : Type} [BEq α] [LawfulBEq α] {a : α} {seen rest : List α}
    (h : a ∈ seen) : 2 ≤ (seen ++ a :: rest).count a := by
  have := List.count_pos_iff.2 h
  rw [List.count_append, List.count_cons_self]
  omega

namespace Projection

variable {s : Schema} {is : List Nat}

/-- No positions are found for names only where one of them is repeated or
unknown. -/
theorem misfit_of_positions (hn : s.names.Nodup) (h : positions s seen names = .error e) :
    (∃ name, e = .requestedTwice name ∧ 2 ≤ (seen ++ names).count name) ∨
      ∃ name ∈ names, e = .noUniqueMatch name s.names ∧ name ∉ s.names := by
  induction names generalizing seen with
  | nil => cases h
  | cons name names ih =>
    rw [positions] at h
    split at h
    · rename_i hseen
      exact .inl ⟨name, (Except.error.inj h).symm, two_le_count_append hseen⟩
    split at h
    · rename_i hnone
      refine .inr ⟨name, List.mem_cons_self, (Except.error.inj h).symm, fun hmem => ?_⟩
      obtain ⟨i, hi⟩ := Schema.exists_indexOf? hn hmem
      rw [hnone] at hi
      cases hi
    · rcases ih (eq_error_of_map h) with ⟨name', he, hcount⟩ | ⟨name', hmem, he⟩
      · refine .inl ⟨name', he, ?_⟩
        rwa [List.perm_middle.count_eq]
      · exact .inr ⟨name', List.mem_cons_of_mem _ hmem, he⟩

/-- Names for which positions are found are names of the schema. -/
theorem mem_names_of_positions (h : positions s seen names = .ok is) :
    ∀ name ∈ names, name ∈ s.names := by
  obtain ⟨-, -, hmap⟩ := positions_eq_ok h
  intro name hname
  have hmem : some name ∈ is.map fun i => s.fields[i]?.map Field.name :=
    hmap ▸ List.mem_map_of_mem hname
  obtain ⟨i, -, hi⟩ := List.mem_map.1 hmem
  obtain ⟨f, hf, rfl⟩ := Option.map_eq_some_iff.1 hi
  exact List.mem_map_of_mem (List.mem_of_getElem? hf)

end Projection

namespace Layout

variable {s : Schema}

theorem resolve_eq (hs : s.validate = .ok ()) :
    resolve selected s = (Projection.resolve selected s).map fun p => ofProjection p s := by
  simp only [resolve, bind, Except.bind, pure, Except.pure, hs]
  cases Projection.resolve selected s <;> rfl

/-- There is no layout only where a selected field is repeated or unknown. -/
theorem misfit_of_resolve (hs : s.validate = .ok ()) (h : resolve selected s = .error e) :
    (∃ name, e = .requestedTwice name ∧ 2 ≤ selected.count name) ∨
      ∃ name ∈ selected, e = .noUniqueMatch name s.names ∧ name ∉ s.names := by
  rw [resolve_eq hs] at h
  have hp := eq_error_of_map h
  rw [Projection.resolve] at hp
  split at hp
  · cases hp
  · simpa using Projection.misfit_of_positions (Schema.nodup_names hs) (eq_error_of_map hp)

/-- There is one just when they are distinct fields of the schema. -/
theorem exists_resolve_iff (hs : s.validate = .ok ()) :
    (∃ l, resolve selected s = .ok l) ↔ selected.Nodup ∧ ∀ name ∈ selected, name ∈ s.names := by
  constructor
  · rintro ⟨l, hl⟩
    obtain ⟨p, hp, -⟩ := exists_projection_of_resolve hl
    rw [Projection.resolve] at hp
    split at hp
    · rename_i hnil
      simp [List.isEmpty_iff.1 hnil]
    · obtain ⟨is, his, -⟩ := exists_of_map_eq_ok hp
      exact ⟨(Projection.positions_eq_ok his).1, Projection.mem_names_of_positions his⟩
  · rintro ⟨hn, hknown⟩
    cases h : resolve selected s with
    | ok l => exact ⟨l, rfl⟩
    | error e =>
      rcases misfit_of_resolve hs h with ⟨name, -, hcount⟩ | ⟨name, hmem, -, hnot⟩
      · have := List.nodup_iff_count_le_one.1 hn name
        omega
      · exact absurd (hknown name hmem) hnot

end Layout

/-! ## Runs that are opened -/

namespace Codec

variable {format : WireFormat} {s : Schema}

/-- A schema of distinct names has a codec unless it is for rows and a name
is not an identifier. -/
theorem forFormat_eq (hn : s.names.Nodup) :
    forFormat format s =
      if format = .avro ∧ ∃ name ∈ s.names, Rows.isName name = false then .error .notAvro
      else .ok ⟨format, s⟩ := by
  cases format with
  | arrow => simp [forFormat]
  | avro =>
    have haccepts : Rows.accepts s = true ↔ ¬ ∃ name ∈ s.names, Rows.isName name = false := by
      simp [Rows.accepts, hn]
    rw [forFormat, Rows.check]
    by_cases hname : ∃ name ∈ s.names, Rows.isName name = false
    · rw [if_neg (haccepts.not.2 (not_not.2 hname)), if_pos ⟨rfl, hname⟩]
      rfl
    · rw [if_pos (haccepts.2 hname), if_neg fun h => hname h.2]
      rfl

end Codec

/-- Settings with a worker lack at most the room for a record. -/
theorem EngineConfig.validate_eq {c : EngineConfig} (hp : c.parallelism ≠ 0) :
    c.validate = if c.channelCapacity = 0 then .error .noCapacity else .ok () := by
  rw [validate, if_neg hp]

namespace Ingestion

variable {c : EngineConfig}

/-- A run with a worker, on splits that can be read, is put together from
three parts, each of which may be refused: the settings, the layout and
the codec. -/
theorem ofSession_eq (hp : c.parallelism ≠ 0) (hs : Session.validateSplits s.splits = .ok ()) :
    ofSession c s selected =
      if c.channelCapacity = 0 then .error .noCapacity
      else (Layout.resolve selected s.schema).bind fun layout =>
        (Codec.forFormat s.format s.schema).map fun codec =>
          ⟨c, ⟨c.read, codec, layout⟩, Assignment.all s.splits c.parallelism.toNat⟩ := by
  simp only [ofSession, bind, Except.bind, pure, Except.pure, hs, EngineConfig.validate_eq hp]
  by_cases hc : c.channelCapacity = 0
  · simp only [if_pos hc]
  · simp only [if_neg hc]
    cases Layout.resolve selected s.schema with
    | error e => rfl
    | ok l => cases Codec.forFormat s.format s.schema <;> rfl

/-- A run on a schema that can be run is refused for want of room in the
channel, for a selected field, or for the name of a field. -/
theorem misfit_of_ofSession (hp : c.parallelism ≠ 0)
    (hs : Session.validateSplits s.splits = .ok ()) (hv : s.schema.validate = .ok ())
    (h : ofSession c s selected = .error e) :
    (e = .noCapacity ∧ c.channelCapacity = 0) ∨
      (∃ name, e = .requestedTwice name ∧ 2 ≤ selected.count name) ∨
      (∃ name ∈ selected, e = .noUniqueMatch name s.schema.names ∧ name ∉ s.schema.names) ∨
      (e = .notAvro ∧ s.format = .avro ∧
        ∃ name ∈ s.schema.names, Rows.isName name = false) := by
  rw [ofSession_eq hp hs] at h
  split at h
  · rename_i hc
    exact .inl ⟨(Except.error.inj h).symm, hc⟩
  refine .inr ?_
  cases hl : Layout.resolve selected s.schema with
  | error e' =>
    rw [hl] at h
    obtain rfl := Except.error.inj h
    rcases Layout.misfit_of_resolve hv hl with htwice | hunknown
    · exact .inl htwice
    · exact .inr (.inl hunknown)
  | ok l =>
    rw [hl] at h
    have hd := eq_error_of_map h
    rw [Codec.forFormat_eq (Schema.nodup_names hv)] at hd
    split at hd
    · rename_i hname
      exact .inr (.inr ⟨(Except.error.inj hd).symm, hname⟩)
    · cases hd

/-- It opens just when none of these is wanting. -/
theorem exists_ofSession_iff (hp : c.parallelism ≠ 0)
    (hs : Session.validateSplits s.splits = .ok ()) (hv : s.schema.validate = .ok ()) :
    (∃ g, ofSession c s selected = .ok g) ↔
      c.channelCapacity ≠ 0 ∧ selected.Nodup ∧ (∀ name ∈ selected, name ∈ s.schema.names) ∧
        (s.format = .avro → ∀ name ∈ s.schema.names, Rows.isName name = true) := by
  constructor
  · rintro ⟨g, hg⟩
    obtain ⟨-, -, -, hl, hd, -⟩ := ofSession_eq_ok hg
    obtain ⟨hn, hknown⟩ := (Layout.exists_resolve_iff hv).1 ⟨_, hl⟩
    refine ⟨fun hc => ?_, hn, hknown, fun hformat name hmem => ?_⟩
    · rw [ofSession_eq hp hs, if_pos hc] at hg
      cases hg
    · by_contra hname
      rw [Codec.forFormat_eq (Schema.nodup_names hv),
        if_pos ⟨hformat, name, hmem, by simpa using hname⟩] at hd
      cases hd
  · rintro ⟨hc, hn, hknown, hnames⟩
    cases h : ofSession c s selected with
    | ok g => exact ⟨g, rfl⟩
    | error e =>
      rcases misfit_of_ofSession hp hs hv h with ⟨-, h0⟩ | ⟨name, -, htwice⟩ |
        ⟨name, hmem, -, hnot⟩ | ⟨-, hformat, name, hmem, hname⟩
      · exact absurd h0 hc
      · have := List.nodup_iff_count_le_one.1 hn name
        omega
      · exact absurd (hknown name hmem) hnot
      · rw [hnames hformat name hmem] at hname
        cases hname

end Ingestion

/-! ## Requests -/

namespace ReadRequest

/-- A request that is accepted is consistent. -/
theorem validate_of_ofText (h : ofText text = .ok r) : r.validate = .ok () := by
  simp only [ofText, bind, Except.bind, pure, Except.pure] at h
  split at h
  · cases h
  · split at h
    · cases h
    · rename_i hv
      cases h
      exact hv

/-- A consistent request has a worker. -/
theorem parallelism_ne_zero (h : r.validate = .ok ()) : r.parallelism ≠ 0 := by
  simp only [validate, bind, Except.bind] at h
  intro h0
  split at h
  · cases h
  · split at h <;> cases h

/-- What a session that fits a request is known to satisfy. -/
theorem validate_of_verifySession (h : r.verifySession s = .ok ()) :
    Session.validateSplits s.splits = .ok () ∧ s.schema.validate = .ok () := by
  simp only [verifySession, bind, Except.bind] at h
  split at h
  · cases h
  · split at h
    · cases h
    · exact ⟨by assumption, h⟩

end ReadRequest

/-- **What a request leaves open.** The settings of a request that is
accepted can be run just when it gives the channel room for a record. A run
on a session that fits the request opens just when there is such room, the
selected fields are distinct fields of the schema and, for rows, the names
of the fields are identifiers; and a refusal says which of these fails. -/
theorem misfits_of_request (h : ReadRequest.ofText text = .ok r) :
    (r.engineConfig.validate = .ok () ↔ r.channelCapacity ≠ 0) ∧
    ∀ s, r.verifySession s = .ok () →
      ((∃ g, Ingestion.ofSession r.engineConfig s r.selectedFields = .ok g) ↔
        r.channelCapacity ≠ 0 ∧ r.selectedFields.Nodup ∧
          (∀ name ∈ r.selectedFields, name ∈ s.schema.names) ∧
          (s.format = .avro → ∀ name ∈ s.schema.names, Rows.isName name = true)) ∧
      ∀ e, Ingestion.ofSession r.engineConfig s r.selectedFields = .error e →
        (e = .noCapacity ∧ r.channelCapacity = 0) ∨
        (∃ name, e = .requestedTwice name ∧ 2 ≤ r.selectedFields.count name) ∨
        (∃ name ∈ r.selectedFields,
          e = .noUniqueMatch name s.schema.names ∧ name ∉ s.schema.names) ∨
        (e = .notAvro ∧ s.format = .avro ∧ ∃ name ∈ s.schema.names, Rows.isName name = false) := by
  have hp : r.engineConfig.parallelism ≠ 0 :=
    ReadRequest.parallelism_ne_zero (ReadRequest.validate_of_ofText h)
  constructor
  · rw [EngineConfig.validate_eq hp]
    by_cases hc : r.engineConfig.channelCapacity = 0
    · rw [if_pos hc]
      exact iff_of_false nofun fun hne => hne hc
    · rw [if_neg hc]
      exact iff_of_true rfl hc
  · intro s hfits
    obtain ⟨hs, hv⟩ := ReadRequest.validate_of_verifySession hfits
    exact ⟨Ingestion.exists_ofSession_iff hp hs hv, fun e => Ingestion.misfit_of_ofSession hp hs hv⟩

namespace Sample

/-- The text of a request for a field of a table, over a channel without
room. -/
def crampedText : String :=
  "\x7b\"table\": \"ds.t\", \"selectedFields\": \"a\", \"channelCapacity\": 0\x7d"

/-- The request that it spells. -/
def cramped : ReadRequest :=
  { table := some "ds.t", selectedFields := ["a"], channelCapacity := 0 }

/-- A session that fits it. -/
def scanned : Session := ⟨[⟨"s"⟩], ⟨[⟨"a", .int64, true⟩]⟩, .arrow⟩

theorem ofText_crampedText : ReadRequest.ofText crampedText = .ok cramped := by
  decide +kernel

end Sample

/-- A request that is accepted with a channel that has no room: its settings
cannot be run, and no run opens on a session that fits it. -/
theorem misfits_of_cramped :
    ReadRequest.ofText Sample.crampedText = .ok Sample.cramped ∧
      Sample.cramped.engineConfig.validate ≠ .ok () ∧
      Sample.cramped.verifySession Sample.scanned = .ok () ∧
      ¬ ∃ g, Ingestion.ofSession Sample.cramped.engineConfig Sample.scanned ["a"] = .ok g := by
  obtain ⟨hconfig, hopen⟩ := misfits_of_request Sample.ofText_crampedText
  have hfits : Sample.cramped.verifySession Sample.scanned = .ok () := by decide
  refine ⟨Sample.ofText_crampedText, fun h => hconfig.1 h rfl, hfits, fun h => ?_⟩
  exact ((hopen Sample.scanned hfits).1.1 h).1 rfl

end Intake
