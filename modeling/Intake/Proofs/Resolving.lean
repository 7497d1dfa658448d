import Intake.Proofs.Opening
/-!
# How fields are found for names

The names that a run asks for are looked up one by one, and none at all
stands for every field of the schema. The positions that are found carry
the names that were asked for (`Projection.names_of_resolve`), so that they
are told by the names alone: the output has the order of the wire just when
the names do (`Projection.isIdentity_iff`). Main statement: there is a layout
just for distinct names of a schema that can be run, and it takes each of
its fields once, in the order asked for, from where the schema has it
(`Layout.resolution_exact`).
-/

namespace Intake

variable {s : Schema} {selected : List String} {p : Projection} {l : Layout} {is js : List Nat}

namespace Schema

/-- A schema can be run when it has fields, and these have names of their
own. -/
theorem validate_eq_ok_iff :
    s.validate = .ok () ↔ s.fields ≠ [] ∧ (∀ name ∈ s.names, name ≠ "") ∧ s.names.Nodup := by
  constructor
  · intro h
    obtain ⟨hfields, hnamed⟩ := fields_ne_nil_of_validate h
    exact ⟨hfields, hnamed, nodup_names h⟩
  · rintro ⟨hfields, hnamed, hapart⟩
    cases h : s.validate with
    | ok => rfl
    | error e =>
      rcases misfit_of_validate h with ⟨-, hnil⟩ | ⟨-, hempty⟩ | ⟨name, -, htwice⟩
      · exact absurd hnil hfields
      · exact absurd rfl (hnamed _ hempty)
      · have := List.nodup_iff_count_le_one.1 hapart name
        omega

/-- The names that are asked for: those selected, or all there are. -/
def asked (s : Schema) (selected : List String) : List String :=
  if selected = [] then s.names else selected

@[simp] theorem asked_nil (s : Schema) : s.asked [] = s.names := if_pos rfl

theorem asked_of_ne_nil (h : selected ≠ []) : s.asked selected = selected := if_neg h

/-- The name of the field at a position, if there is one. -/
def nameAt (s : Schema) (i : Nat) : Option String := s.fields[i]?.map Field.name

theorem map_nameAt_range (s : Schema) : (List.range s.size).map s.nameAt = s.names.map some := by
  refine List.ext_getElem (by simp [size, names]) fun i hi _ => ?_
  have hlt : i < s.fields.length := by simpa [size] using hi
  simp [nameAt, names, hlt]

/-- Where names are distinct, a name is at one position only. -/
theorem nameAt_inj (hn : s.names.Nodup) {i j : Nat} (hi : i < s.size)
    (h : s.nameAt i = s.nameAt j) : i = j := by
  have hget : ∀ k, s.nameAt k = s.names[k]? := fun k => by simp [nameAt, names]
  rw [hget, hget] at h
  exact (List.getElem?_inj (by simpa [names, size] using hi) hn).1 h

end Schema

namespace Projection

/-- **The positions that are found carry the names asked for.** -/
theorem names_of_resolve (h : resolve selected s = .ok p) :
    p.wireIndices.map s.nameAt = (s.asked selected).map some := by
  rw [resolve] at h
  split at h
  · rename_i hnil
    cases h
    rw [List.isEmpty_iff.1 hnil, Schema.asked_nil]
    exact s.map_nameAt_range
  · rename_i hsome
    obtain ⟨is, his, rfl⟩ := exists_of_map_eq_ok h
    rw [Schema.asked_of_ne_nil fun hnil => hsome (List.isEmpty_iff.2 hnil)]
    exact (positions_eq_ok his).2.2

/-- Positions are told by their names. -/
theorem eq_of_map_nameAt (hn : s.names.Nodup) (hlt : ∀ i ∈ is, i < s.size)
    (h : is.map s.nameAt = js.map s.nameAt) : is = js := by
  induction is generalizing js with
  | nil => exact (List.map_eq_nil_iff.1 h.symm).symm
  | cons i is ih =>
    cases js with
    | nil => cases h
    | cons j js =>
      obtain ⟨hij, hrest⟩ := List.cons.inj h
      rw [Schema.nameAt_inj hn (hlt i List.mem_cons_self) hij,
        ih (fun k hk => hlt k (List.mem_cons_of_mem _ hk)) hrest]

/-- **The output has the order of the wire just when the names asked for
do.** -/
theorem isIdentity_iff (h : resolve selected s = .ok p) :
    p.isIdentity s = true ↔ selected = [] ∨ selected = s.names := by
  have hnames := names_of_resolve h
  rw [isIdentity, beq_iff_eq]
  constructor
  · intro hrange
    rw [hrange, s.map_nameAt_range] at hnames
    have hasked := List.map_injective_iff.2 (fun _ _ => Option.some.inj) hnames
    by_cases hnil : selected = []
    · exact .inl hnil
    · rw [Schema.asked_of_ne_nil hnil] at hasked
      exact .inr hasked.symm
  · rintro (rfl | rfl)
    · rw [resolve] at h
      cases h
      rfl
    · -- each of the names is found, so that they are distinct
      have hn : s.names.Nodup := by
        rw [resolve] at h
        split at h
        · rename_i hnil
          simp [List.isEmpty_iff.1 hnil]
        · obtain ⟨is, his, -⟩ := exists_of_map_eq_ok h
          exact (positions_eq_ok his).1
      have hasked : s.asked s.names = s.names := by simp [Schema.asked]
      rw [hasked, ← s.map_nameAt_range] at hnames
      exact eq_of_map_nameAt hn (wireIndices_of_resolve h).2 hnames

end Projection

namespace Layout

/-- The fields of a layout are those at its positions. -/
theorem fields_of_resolve (h : resolve selected s = .ok l) :
    l.fields.map some = l.wireIndices.map fun i => s.fields[i]? := by
  rw [← fst_columns_of_resolve h, ← snd_columns_of_resolve h, List.map_map, List.map_map]
  exact List.map_congr_left fun q hq => ((columns_of_resolve h).2 q hq).symm

/-- The fields of a layout have the names asked for. -/
theorem names_of_resolve (h : resolve selected s = .ok l) :
    l.fields.map Field.name = s.asked selected := by
  obtain ⟨p, hp, hl⟩ := exists_projection_of_resolve h
  have hnames : (l.fields.map some).map (Option.map Field.name) =
      (s.asked selected).map some := by
    rw [fields_of_resolve h, List.map_map, ← Projection.names_of_resolve hp, hl]
    rfl
  rw [List.map_map] at hnames
  refine List.map_injective_iff.2 (fun _ _ => Option.some.inj) ?_
  rw [List.map_map]
  exact hnames

/-- A layout over a schema for selected names: it takes distinct positions
of the schema, has for each the field that stands there, and the fields have
the names that were asked for, in this order. -/
structure Takes (l : Layout) (s : Schema) (selected : List String) : Prop where
  width : l.wireWidth = s.size
  apart : l.wireIndices.Nodup
  within : ∀ i ∈ l.wireIndices, i < l.wireWidth
  aligned : l.fields.length = l.wireIndices.length
  fields : ∀ k i : Nat, l.wireIndices[k]? = some i → l.fields[k]? = s.fields[i]?
  names : l.fields.map Field.name = if selected = [] then s.names else selected

theorem takes_of_resolve (h : resolve selected s = .ok l) : l.Takes s selected := by
  have hfields := fields_of_resolve h
  have hwidth : l.wireWidth = s.size := by
    obtain ⟨p, -, rfl⟩ := exists_projection_of_resolve h
    rfl
  refine ⟨hwidth, ?_, fun i hi => hwidth ▸ lt_size_of_resolve h i hi, ?_, fun k i hk => ?_,
    names_of_resolve h⟩
  · rw [← snd_columns_of_resolve h]
    exact (columns_of_resolve h).1
  · simpa using congrArg List.length hfields
  · have hget := congrArg (fun xs => xs[k]?) hfields
    rw [List.getElem?_map, List.getElem?_map, hk] at hget
    cases hf : l.fields[k]? with
    | none => simp [hf] at hget
    | some f =>
      rw [hf] at hget
      exact Option.some.inj hget

/-- **How fields are found for names.** There is a layout just for distinct
names that are all of the schema, where the schema has fields and these have
names of their own. It takes each of its positions once and from the schema,
and its fields are those that stand there and have the names asked for, all
names in wire order if none are. The projection keeps the order of the wire
just when nothing is asked for, or all names in this order. -/
theorem resolution_exact (selected : List String) (s : Schema) :
    ((∃ l, resolve selected s = .ok l) ↔
        (s.fields ≠ [] ∧ (∀ name ∈ s.names, name ≠ "") ∧ s.names.Nodup) ∧
          selected.Nodup ∧ ∀ name ∈ selected, name ∈ s.names) ∧
      (∀ l, resolve selected s = .ok l → l.Takes s selected) ∧
      ∀ p, Projection.resolve selected s = .ok p →
        (p.isIdentity s = true ↔ selected = [] ∨ selected = s.names) := by
  refine ⟨?_, fun _ => takes_of_resolve, fun _ => Projection.isIdentity_iff⟩
  rw [← Schema.validate_eq_ok_iff]
  constructor
  · rintro ⟨l, hl⟩
    have hv := validate_of_resolve hl
    exact ⟨hv, (exists_resolve_iff hv).1 ⟨l, hl⟩⟩
  · rintro ⟨hv, hselected⟩
    exact (exists_resolve_iff hv).2 hselected

/-- A name and a number are asked for in the other order than the wire has
them, which makes no identity. -/
theorem resolution_of_swapped :
    let swapped : Layout :=
      ⟨[⟨"name", .string, true⟩, ⟨"id", .int64, false⟩], [1, 0], 2⟩
    resolve ["name", "id"] Sample.named = .ok swapped ∧
      swapped.Takes Sample.named ["name", "id"] ∧
      Projection.resolve ["name", "id"] Sample.named = .ok ⟨[1, 0]⟩ ∧
      ¬ (["name", "id"] = [] ∨ ["name", "id"] = Sample.named.names) := by
  intro swapped
  have hl : resolve ["name", "id"] Sample.named = .ok swapped := by decide +kernel
  have hp : Projection.resolve ["name", "id"] Sample.named = .ok ⟨[1, 0]⟩ := by decide +kernel
  obtain ⟨-, htakes, hidentity⟩ := resolution_exact ["name", "id"] Sample.named
  exact ⟨hl, htakes _ hl, hp, (hidentity _ hp).not.1 (by decide)⟩

end Layout

end Intake
