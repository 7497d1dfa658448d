import Intake.Proofs.Pieces
import Intake.Proofs.Requests
/-!
# Names of tables

The name of a table is cut at its dots, and what stands between them is kept
as it is, blanks around it included. So nothing of a name is lost: its parts,
joined by dots, are the name again. Main statement: a name is accepted just
when it is two or three parts that are not blank, a table is what a name is
read as just when its parts hold no dots and, joined, are the name, and the
table of a request that is accepted has been read from its name
(`TableId.parse_exact`).
-/

namespace Intake

variable {s table : String} {t : TableId} {r : ReadRequest}

namespace TableId

/-- The parts of a table's name, in their order. -/
def parts (t : TableId) : List String := t.project.toList ++ [t.dataset, t.table]

/-- The name of a table: its parts between dots. -/
def name (t : TableId) : String := ".".intercalate t.parts

theorem length_parts (t : TableId) : t.parts.length = 2 ∨ t.parts.length = 3 := by
  rcases t with ⟨_ | project, dataset, table⟩
  · exact .inl rfl
  · exact .inr rfl

/-- So many parts are those of a table. -/
theorem exists_parts {ps : List String} (h : ps.length = 2 ∨ ps.length = 3) :
    ∃ t : TableId, t.parts = ps := by
  rcases h with h | h
  · obtain ⟨dataset, table, rfl⟩ := List.length_eq_two.1 h
    exact ⟨⟨none, dataset, table⟩, rfl⟩
  · obtain ⟨project, dataset, table, rfl⟩ := List.length_eq_three.1 h
    exact ⟨⟨some project, dataset, table⟩, rfl⟩

/-- A table that is read from a name has the pieces of the name for its
parts. -/
theorem parts_of_parse (h : parse s = .ok t) :
    t.parts = Text.pieces '.' s ∧ ∀ p ∈ t.parts, Text.trim p ≠ "" := by
  have hparts : t.parts = Text.pieces '.' s := by
    unfold parse at h
    dsimp only at h
    split at h
    · cases h
    · split at h
      · rename_i hpieces
        obtain rfl := Except.ok.inj h
        exact hpieces.symm
      · rename_i hpieces
        obtain rfl := Except.ok.inj h
        exact hpieces.symm
      · cases h
  refine ⟨hparts, fun p hp hblank => ?_⟩
  rw [hparts] at hp
  have hany : (Text.pieces '.' s).any Text.isBlankText = true :=
    List.any_eq_true.2 ⟨p, hp, Text.trim_eq_empty_iff.1 hblank⟩
  rw [parse, if_pos hany] at h
  cases h

/-- And one whose parts are those pieces is read, if none of them is blank. -/
theorem parse_of_parts (hparts : t.parts = Text.pieces '.' s)
    (hblank : ∀ p ∈ t.parts, Text.trim p ≠ "") : parse s = .ok t := by
  have hany : ¬ t.parts.any Text.isBlankText = true := by
    intro hany
    obtain ⟨p, hp, h⟩ := List.any_eq_true.1 hany
    exact hblank p hp (Text.trim_eq_empty_iff.2 h)
  rw [parse, ← hparts, if_neg hany]
  rcases t with ⟨_ | project, dataset, table⟩ <;> rfl

/-- **Reading a name and joining the parts of a table undo each other**, for
parts that can stand between dots. -/
theorem parse_eq_ok_iff :
    parse s = .ok t ↔ t.name = s ∧ ∀ p ∈ t.parts, '.' ∉ p.toList ∧ Text.trim p ≠ "" := by
  constructor
  · intro h
    obtain ⟨hparts, hblank⟩ := parts_of_parse h
    refine ⟨?_, fun p hp => ⟨Text.not_mem_of_mem_pieces (hparts ▸ hp), hblank p hp⟩⟩
    rw [name, hparts]
    exact Text.intercalate_pieces '.' s
  · rintro ⟨rfl, hp⟩
    have hne : t.parts ≠ [] := List.append_ne_nil_of_right_ne_nil _ (List.cons_ne_nil _ _)
    have hpieces : Text.pieces '.' t.name = t.parts :=
      Text.pieces_intercalate hne fun p hmem => (hp p hmem).1
    exact parse_of_parts hpieces.symm fun p hmem => (hp p hmem).2

end TableId

/-- The table of a consistent request can be read. -/
theorem ReadRequest.exists_parse_of_validate (h : r.validate = .ok ()) (ht : r.table = some table) :
    ∃ t, TableId.parse table = .ok t := by
  cases hparse : TableId.parse table with
  | ok t => exact ⟨t, rfl⟩
  | error e =>
    rw [validate, missing, ht] at h
    cases hq : r.query with
    | none =>
      rw [hq] at h
      dsimp only at h
      rw [hparse] at h
      cases h
    | some query =>
      rw [hq] at h
      cases h

/-- **The names of tables.** A name is accepted just when its dots cut it into
two or three pieces and none of them is blank. A table is what a name is read
as just when its parts can stand between dots and, joined by them, are the
name; so no two names are read as one table. And a request for a table that is
accepted has one, whose parts are those of the name it gives. -/
theorem TableId.parse_exact :
    (∀ s, (∃ t, parse s = .ok t) ↔
        ((Text.pieces '.' s).length = 2 ∨ (Text.pieces '.' s).length = 3) ∧
          ∀ p ∈ Text.pieces '.' s, Text.trim p ≠ "") ∧
      (∀ s t, parse s = .ok t ↔
        t.name = s ∧ ∀ p ∈ t.parts, '.' ∉ p.toList ∧ Text.trim p ≠ "") ∧
      (∀ a b t, parse a = .ok t → parse b = .ok t → a = b) ∧
      ∀ text r table, ReadRequest.ofText text = .ok r → r.table = some table →
        ∃ t, r.tableId? = some t ∧ t.name = table := by
  refine ⟨fun s => ⟨?_, ?_⟩, fun s t => parse_eq_ok_iff, fun a b t ha hb => ?_, ?_⟩
  · rintro ⟨t, h⟩
    obtain ⟨hparts, hblank⟩ := parts_of_parse h
    rw [← hparts]
    exact ⟨t.length_parts, hblank⟩
  · rintro ⟨hlength, hblank⟩
    obtain ⟨t, hparts⟩ := exists_parts hlength
    exact ⟨t, parse_of_parts hparts (hparts ▸ hblank)⟩
  · exact (parse_eq_ok_iff.1 ha).1.symm.trans (parse_eq_ok_iff.1 hb).1
  · intro text r table hr ht
    obtain ⟨t, h⟩ := ReadRequest.exists_parse_of_validate (ReadRequest.validate_of_ofText hr) ht
    refine ⟨t, ?_, (parse_eq_ok_iff.1 h).1⟩
    rw [ReadRequest.tableId?, ht, Option.map_some, h]

namespace Sample

/-- A name whose parts have blanks around them. -/
def looseName : String := " p.d\u3000.\tt"

/-- The table that it is read as. -/
def looseTable : TableId := ⟨some " p", "d\u3000", "\tt"⟩

/-- The text of a request for it. -/
def looseText : String :=
  "\x7b\"table\": \" p.d\u3000.\\tt\", \"selectedFields\": \"a\"\x7d"

/-- The request that it spells. -/
def loose : ReadRequest := { table := some looseName, selectedFields := ["a"] }

end Sample

/-- Blanks around the parts of a name are kept, so that the name can be had
back from the table, also in a request. -/
theorem TableId.parse_loose :
    TableId.parse Sample.looseName = .ok Sample.looseTable ∧
      Sample.looseTable.name = Sample.looseName ∧
      ReadRequest.ofText Sample.looseText = .ok Sample.loose ∧
      ∃ t, Sample.loose.tableId? = some t ∧ t.name = Sample.looseName := by
  obtain ⟨-, hiff, hinj, hrequest⟩ := TableId.parse_exact
  have hparse : TableId.parse Sample.looseName = .ok Sample.looseTable :=
    (hiff _ _).2 ⟨by decide, by decide⟩
  have htext : ReadRequest.ofText Sample.looseText = .ok Sample.loose := by decide +kernel
  exact ⟨hparse, hinj _ _ _ ((hiff _ _).2 ⟨rfl, by decide⟩) hparse, htext,
    hrequest _ _ _ htext rfl⟩

end Intake
