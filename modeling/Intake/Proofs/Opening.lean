import Intake.Proofs.Pieces
import Intake.Proofs.Requests
/-!
# When a run opens

A run is opened behind four checks, of the settings, the splits, the
schema with the fields that are selected, and the codec. What they ask for
together is stated here without them (`Runnable`), and so is what each
refusal tells (`Lacks`). Main statement: a run opens just on what can be
run, a refusal tells something that is lacking, and the service has heard
of nothing until a worker moves (`Ingestion.opens_iff_runnable`).
-/

namespace Intake

variable {c : EngineConfig} {s : Session} {selected : List String} {e : Misfit}

/-! ## What can be run -/

/-- What a run needs to be opened: a worker, room for a record, splits that
are named apart, fields that are named apart, fields to select among them,
and for rows names that the row format takes. -/
structure Runnable (c : EngineConfig) (s : Session) (selected : List String) : Prop where
  worker : 1 ≤ c.parallelism.toNat
  room : 1 ≤ c.channelCapacity.toNat
  splitsNamed : ∀ x ∈ s.splits, Text.trim x.name ≠ ""
  splitsApart : (s.splits.map SplitId.name).Nodup
  fields : s.schema.fields ≠ []
  fieldsNamed : ∀ name ∈ s.schema.names, name ≠ ""
  fieldsApart : s.schema.names.Nodup
  selectedApart : selected.Nodup
  selectedKnown : ∀ name ∈ selected, name ∈ s.schema.names
  rowNames : s.format = .avro → ∀ name ∈ s.schema.names, Rows.isName name = true

/-- What is lacking where a run is refused, by the refusal that tells it. -/
inductive Lacks (c : EngineConfig) (s : Session) (selected : List String) : Misfit → Prop where
  | worker (h : c.parallelism.toNat = 0) : Lacks c s selected .noWorkers
  | room (h : c.channelCapacity.toNat = 0) : Lacks c s selected .noCapacity
  | splitName {x : SplitId} (hx : x ∈ s.splits) (h : Text.trim x.name = "") :
      Lacks c s selected .unnamedSplit
  | splitTwice {x : SplitId} (h : 2 ≤ s.splits.count x) :
      Lacks c s selected (.repeatedSplit x.name)
  | fields (h : s.schema.fields = []) : Lacks c s selected .emptySchema
  | fieldName (h : "" ∈ s.schema.names) : Lacks c s selected .unnamedField
  | fieldTwice {name : String} (h : 2 ≤ s.schema.names.count name) :
      Lacks c s selected (.repeatedField name)
  | selectedTwice {name : String} (h : 2 ≤ selected.count name) :
      Lacks c s selected (.requestedTwice name)
  | selectedUnknown {name : String} (hmem : name ∈ selected) (h : name ∉ s.schema.names) :
      Lacks c s selected (.noUniqueMatch name s.schema.names)
  | rowName {name : String} (hf : s.format = .avro) (hmem : name ∈ s.schema.names)
      (h : Rows.isName name = false) : Lacks c s selected .notAvro

theorem SplitId.name_injective : Function.Injective SplitId.name := by
  rintro ⟨x⟩ ⟨y⟩ rfl
  rfl

/-- Nothing is lacking where a run can be opened. -/
theorem Runnable.not_lacks (h : Runnable c s selected) : ¬ Lacks c s selected e := by
  intro hl
  cases hl with
  | worker h0 => exact absurd h.worker (by omega)
  | room h0 => exact absurd h.room (by omega)
  | splitName hx hblank => exact h.splitsNamed _ hx hblank
  | @splitTwice x htwice =>
    have := List.nodup_iff_count_le_one.1 (List.Nodup.of_map _ h.splitsApart) x
    omega
  | fields hnil => exact h.fields hnil
  | fieldName hmem => exact h.fieldsNamed _ hmem rfl
  | @fieldTwice name htwice =>
    have := List.nodup_iff_count_le_one.1 h.fieldsApart name
    omega
  | @selectedTwice name htwice =>
    have := List.nodup_iff_count_le_one.1 h.selectedApart name
    omega
  | selectedUnknown hmem hnot => exact hnot (h.selectedKnown _ hmem)
  | rowName hf hmem hname => simp [h.rowNames hf _ hmem] at hname

/-! ## The checks -/

/-- Settings are refused for want of a worker or of room. -/
theorem EngineConfig.lacks_of_validate (h : c.validate = .error e) : Lacks c s selected e := by
  rw [validate] at h
  split at h
  · rename_i h0
    cases h
    exact .worker (by rw [h0]; rfl)
  · split at h <;> cases h
    rename_i h0
    exact .room (by rw [h0]; rfl)

/-- And are taken where both are there. -/
theorem EngineConfig.one_le_of_validate (h : c.validate = .ok ()) :
    1 ≤ c.parallelism.toNat ∧ 1 ≤ c.channelCapacity.toNat := by
  have hpos : ∀ n : UInt64, n ≠ 0 → 1 ≤ n.toNat := fun n hn =>
    Nat.one_le_iff_ne_zero.2 fun h0 => hn (UInt64.toNat_inj.1 h0)
  rw [validate] at h
  split at h
  · cases h
  · split at h
    · cases h
    · exact ⟨hpos _ ‹_›, hpos _ ‹_›⟩

namespace Session

variable {seen xs : List SplitId}

/-- Splits are refused where one has no name or is told twice. -/
theorem misfit_of_checkSplits (h : checkSplits seen xs = .error e) :
    (e = .unnamedSplit ∧ ∃ x ∈ xs, Text.trim x.name = "") ∨
      ∃ x, e = .repeatedSplit x.name ∧ 2 ≤ (seen ++ xs).count x := by
  induction xs generalizing seen with
  | nil => cases h
  | cons x xs ih =>
    rw [checkSplits] at h
    split at h
    · rename_i hblank
      exact .inl ⟨(Except.error.inj h).symm, x, List.mem_cons_self,
        Text.trim_eq_empty_iff.2 hblank⟩
    split at h
    · rename_i hseen
      exact .inr ⟨x, (Except.error.inj h).symm, two_le_count_append hseen⟩
    · rcases ih h with ⟨he, y, hy, hblank⟩ | ⟨y, he, htwice⟩
      · exact .inl ⟨he, y, List.mem_cons_of_mem _ hy, hblank⟩
      · exact .inr ⟨y, he, by rwa [List.perm_middle.count_eq]⟩

/-- Splits that are taken have names. -/
theorem trim_ne_of_checkSplits (h : checkSplits seen xs = .ok ()) :
    ∀ x ∈ xs, Text.trim x.name ≠ "" := by
  induction xs generalizing seen with
  | nil => exact List.forall_mem_nil _
  | cons x xs ih =>
    rw [checkSplits] at h
    split at h
    · cases h
    rename_i hblank
    split at h
    · cases h
    · exact List.forall_mem_cons.2 ⟨fun he => hblank (Text.trim_eq_empty_iff.1 he), ih h⟩

end Session

namespace Schema

variable {seen : List String} {t : Schema}

/-- Fields are refused where one has no name or shares it. -/
theorem misfit_of_checkNames {fs : List Field} (h : checkNames seen fs = .error e) :
    (e = .unnamedField ∧ "" ∈ fs.map Field.name) ∨
      ∃ name, e = .repeatedField name ∧ 2 ≤ (seen ++ fs.map Field.name).count name := by
  induction fs generalizing seen with
  | nil => cases h
  | cons f fs ih =>
    rw [checkNames] at h
    rw [List.map_cons]
    split at h
    · rename_i hempty
      exact .inl ⟨(Except.error.inj h).symm, hempty ▸ List.mem_cons_self⟩
    split at h
    · rename_i hseen
      exact .inr ⟨f.name, (Except.error.inj h).symm, two_le_count_append hseen⟩
    · rcases ih h with ⟨he, hmem⟩ | ⟨name, he, htwice⟩
      · exact .inl ⟨he, List.mem_cons_of_mem _ hmem⟩
      · exact .inr ⟨name, he, by rwa [List.perm_middle.count_eq]⟩

/-- Fields that are taken have names. -/
theorem ne_empty_of_checkNames {fs : List Field} (h : checkNames seen fs = .ok ()) :
    ∀ name ∈ fs.map Field.name, name ≠ "" := by
  induction fs generalizing seen with
  | nil => exact List.forall_mem_nil _
  | cons f fs ih =>
    rw [checkNames] at h
    split at h
    · cases h
    rename_i hne
    split at h
    · cases h
    · exact List.forall_mem_cons.2 ⟨hne, ih h⟩

/-- A schema is refused where it has no field, or one without a name of its
own. -/
theorem misfit_of_validate (h : t.validate = .error e) :
    (e = .emptySchema ∧ t.fields = []) ∨ (e = .unnamedField ∧ "" ∈ t.names) ∨
      ∃ name, e = .repeatedField name ∧ 2 ≤ t.names.count name := by
  rw [validate] at h
  split at h
  · rename_i hnil
    exact .inl ⟨(Except.error.inj h).symm, List.isEmpty_iff.1 hnil⟩
  · exact .inr (misfit_of_checkNames h)

theorem fields_ne_nil_of_validate (h : t.validate = .ok ()) :
    t.fields ≠ [] ∧ ∀ name ∈ t.names, name ≠ "" := by
  rw [validate] at h
  split at h
  · cases h
  · rename_i hnil
    exact ⟨fun h0 => hnil (List.isEmpty_iff.2 h0), ne_empty_of_checkNames h⟩

end Schema

/-- A layout comes only of a schema that can be run. -/
theorem Layout.validate_of_resolve {t : Schema} {l : Layout} (h : resolve selected t = .ok l) :
    t.validate = .ok () := by
  simp only [resolve, bind, Except.bind] at h
  split at h
  · cases h
  · assumption

/-! ## The run -/

namespace Ingestion

variable {σ : Type} {g : Ingestion}

/-- **A refusal tells something that is lacking.** -/
theorem lacks_of_ofSession (h : ofSession c s selected = .error e) : Lacks c s selected e := by
  simp only [ofSession, bind, Except.bind, pure, Except.pure] at h
  split at h
  · rename_i hc
    cases h
    exact EngineConfig.lacks_of_validate hc
  split at h
  · rename_i hs
    cases h
    rcases Session.misfit_of_checkSplits hs with ⟨rfl, x, hx, hblank⟩ | ⟨x, rfl, htwice⟩
    · exact .splitName hx hblank
    · exact .splitTwice htwice
  split at h
  · rename_i hl
    cases h
    cases hv : s.schema.validate with
    | error e' =>
      simp only [Layout.resolve, bind, Except.bind, hv] at hl
      cases hl
      rcases Schema.misfit_of_validate hv with ⟨rfl, hnil⟩ | ⟨rfl, hmem⟩ | ⟨name, rfl, htwice⟩
      · exact .fields hnil
      · exact .fieldName hmem
      · exact .fieldTwice htwice
    | ok =>
      rcases Layout.misfit_of_resolve hv hl with ⟨name, rfl, htwice⟩ | ⟨name, hmem, rfl, hnot⟩
      · exact .selectedTwice htwice
      · exact .selectedUnknown hmem hnot
  rename_i l hl
  split at h
  · rename_i hd
    cases h
    rw [Codec.forFormat_eq (Schema.nodup_names (Layout.validate_of_resolve hl))] at hd
    split at hd <;> cases hd
    rename_i hnames
    obtain ⟨hformat, name, hmem, hname⟩ := hnames
    exact .rowName hformat hmem hname
  · cases h

/-- **Nothing is lacking where a run opens.** -/
theorem runnable_of_ofSession (h : ofSession c s selected = .ok g) : Runnable c s selected := by
  obtain ⟨hp, hapart, -, hl, -⟩ := ofSession_eq_ok h
  have hv := Layout.validate_of_resolve hl
  obtain ⟨hc, hs⟩ : c.validate = .ok () ∧ Session.validateSplits s.splits = .ok () := by
    simp only [ofSession, bind, Except.bind] at h
    split at h
    · cases h
    split at h
    · cases h
    · exact ⟨by assumption, by assumption⟩
  obtain ⟨hroom, hselected, hknown, hrows⟩ :=
    (exists_ofSession_iff (by rintro h0; simp [h0] at hp) hs hv).1 ⟨g, h⟩
  obtain ⟨hfields, hnamed⟩ := Schema.fields_ne_nil_of_validate hv
  exact ⟨hp, (EngineConfig.one_le_of_validate hc).2, Session.trim_ne_of_checkSplits hs,
    hapart.map SplitId.name_injective, hfields, hnamed, Schema.nodup_names hv, hselected, hknown,
    hrows⟩

end Ingestion

/-- What happens without a worker moving does not reach the service. -/
theorem Machine.service_run_of_no_step {σ α : Type} {p : Plan} {sink : Sink σ α} {m : Machine σ}
    {es : List (Event α)} (h : ∀ i, .step i ∉ es) :
    (m.run p sink es).shared.service = m.shared.service := by
  induction es generalizing m with
  | nil => rfl
  | cons e es ih =>
    have hrest : ∀ i, Event.step i ∉ es := fun i hi => h i (List.mem_cons_of_mem _ hi)
    cases e with
    | step i => exact absurd List.mem_cons_self (h i)
    | cancel => exact ih hrest
    | act a => exact ih hrest

namespace Ingestion

/-- **A run opens just on what can be run.** It takes a worker, room for a
record, splits with names of their own that are not blank, a schema of
fields with names of their own, selected fields that are distinct ones of
the schema, and for rows names that the row format takes. Otherwise the
settings are refused, and the refusal tells what is lacking. Opening makes
no call, and neither does whoever cancels the run or acts on its sink: the
service is as it was until a worker moves. -/
theorem opens_iff_runnable (c : EngineConfig) (s : Session) (selected : List String) :
    ((∃ g, ofSession c s selected = .ok g) ↔ Runnable c s selected) ∧
      (¬ Runnable c s selected →
        ∃ e, ofSession c s selected = .error e ∧ Lacks c s selected e) ∧
      ∀ g, ofSession c s selected = .ok g →
        ∀ {σ α : Type} (service : Service) (sink : Sink σ α) (y : σ) (es : List (Event α)),
          (∀ i, .step i ∉ es) → (g.run service sink y es).shared.service = service := by
  have hopens : (∃ g, ofSession c s selected = .ok g) ↔ Runnable c s selected := by
    constructor
    · rintro ⟨g, hg⟩
      exact runnable_of_ofSession hg
    · intro hr
      cases h : ofSession c s selected with
      | ok g => exact ⟨g, rfl⟩
      | error e => exact absurd (lacks_of_ofSession h) hr.not_lacks
  refine ⟨hopens, fun hr => ?_, fun g _ _ _ service sink y es hes =>
    Machine.service_run_of_no_step hes⟩
  cases h : ofSession c s selected with
  | ok g => exact absurd (hopens.1 ⟨g, h⟩) hr
  | error e => exact ⟨e, rfl, lacks_of_ofSession h⟩

end Ingestion

namespace Sample

/-- The session with a third split, whose name is a wide blank. -/
def blankSession : Session := { session with splits := session.splits ++ [⟨"\u2003"⟩] }

end Sample

/-- A session of two splits opens for two workers, and does not with a
split more whose name is blank. -/
theorem Ingestion.opens_without_blank :
    Runnable { parallelism := 2 } Sample.session ["id"] ∧
      (∃ g, ofSession { parallelism := 2 } Sample.session ["id"] = .ok g) ∧
      ¬ Runnable { parallelism := 2 } Sample.blankSession ["id"] ∧
      ∃ e, ofSession { parallelism := 2 } Sample.blankSession ["id"] = .error e ∧
        Lacks { parallelism := 2 } Sample.blankSession ["id"] e := by
  obtain ⟨hopens, -, -⟩ := opens_iff_runnable { parallelism := 2 } Sample.session ["id"]
  obtain ⟨-, hrefused, -⟩ := opens_iff_runnable { parallelism := 2 } Sample.blankSession ["id"]
  have hrunnable : Runnable { parallelism := 2 } Sample.session ["id"] := hopens.1 ⟨_, rfl⟩
  have hblank : ¬ Runnable { parallelism := 2 } Sample.blankSession ["id"] := fun h =>
    h.splitsNamed ⟨"\u2003"⟩ (by decide) (by decide +kernel)
  exact ⟨hrunnable, hopens.2 hrunnable, hblank, hrefused hblank⟩

end Intake
