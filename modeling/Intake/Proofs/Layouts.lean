import Intake.Layout
import Intake.Record
import Mathlib.Data.List.Nodup
/-!
# The columns of a layout

A layout that was resolved over a schema takes every output field from
the position at which the schema has it, and no position twice
(`Layout.columns_of_resolve`). What it makes of the cells of a row is the
record of the cells at these positions.
-/

namespace Intake

variable {s : Schema} {selected names seen : List String} {l : Layout} {is : List Nat}

namespace Schema

/-- The position that is found for a name is one of a field of this name. -/
theorem indexOf?_eq_some {name : String} {i : Nat} (h : s.indexOf? name = some i) :
    ∃ f, s.fields[i]? = some f ∧ f.name = name := by
  unfold indexOf? at h
  split at h
  · rename_i f hf
    obtain rfl := Option.some.inj h
    have hmem : f ∈ s.fields.zipIdx.filter fun f => f.1.name == name := by simp [hf]
    obtain ⟨hmem, hname⟩ := List.mem_filter.1 hmem
    exact ⟨f.1, List.mem_zipIdx_iff_getElem?.1 hmem, by simpa using hname⟩
  · cases h

end Schema

namespace Projection

/-- Positions are found for names that are distinct, each at a field of its
name. -/
theorem positions_eq_ok (h : positions s seen names = .ok is) :
    names.Nodup ∧ seen.Disjoint names ∧
      is.map (fun i => s.fields[i]?.map Field.name) = names.map some := by
  induction names generalizing seen is with
  | nil =>
    cases h
    simp
  | cons name names ih =>
    rw [positions] at h
    split at h
    · cases h
    rename_i hseen
    split at h
    · cases h
    rename_i i hi
    cases hrest : positions s (name :: seen) names with
    | error e =>
      rw [hrest] at h
      cases h
    | ok js =>
      rw [hrest] at h
      cases h
      obtain ⟨hn, hd, hmap⟩ := ih hrest
      rw [List.disjoint_cons_left] at hd
      obtain ⟨f, hf, rfl⟩ := Schema.indexOf?_eq_some hi
      refine ⟨List.nodup_cons.2 ⟨hd.1, hn⟩, List.disjoint_cons_right.2 ⟨hseen, hd.2⟩, ?_⟩
      simp [hf, hmap]

/-- A projection takes each of its positions once, and from the schema. -/
theorem wireIndices_of_resolve {p : Projection} (h : resolve selected s = .ok p) :
    p.wireIndices.Nodup ∧ ∀ i ∈ p.wireIndices, i < s.size := by
  unfold resolve at h
  split at h
  · cases h
    exact ⟨List.nodup_range, fun i hi => List.mem_range.1 hi⟩
  · cases hpos : positions s [] selected with
    | error e =>
      rw [hpos] at h
      cases h
    | ok is =>
      rw [hpos] at h
      cases h
      obtain ⟨hn, -, hmap⟩ := positions_eq_ok hpos
      constructor
      · refine List.Nodup.of_map (fun i => s.fields[i]?.map Field.name) ?_
        rw [hmap]
        exact hn.map fun _ _ => Option.some.inj
      · intro i hi
        by_contra hge
        have hnone : s.fields[i]? = none := List.getElem?_eq_none (by simpa [Schema.size] using hge)
        have : none ∈ selected.map some := hmap ▸ List.mem_map.2 ⟨i, hi, by simp [hnone]⟩
        simp at this

end Projection

namespace Layout

/-- The record that a layout makes of the cells of a row. -/
def pick (l : Layout) (cells : List Cell) : Record :=
  ⟨l.columns.filterMap fun q => cells[q.2]?⟩

theorem zip_filterMap {fields : List Field} (h : ∀ i ∈ is, i < fields.length) :
    ((is.filterMap fun i => fields[i]?).zip is).map Prod.fst = is.filterMap (fun i => fields[i]?) ∧
      ((is.filterMap fun i => fields[i]?).zip is).map Prod.snd = is ∧
      ∀ q ∈ (is.filterMap fun i => fields[i]?).zip is, fields[q.2]? = some q.1 := by
  induction is with
  | nil => simp
  | cons i is ih =>
    obtain ⟨hfst, hsnd, hget⟩ := ih fun j hj => h j (List.mem_cons_of_mem _ hj)
    obtain ⟨f, hi⟩ : ∃ f, fields[i]? = some f :=
      ⟨_, List.getElem?_eq_getElem (h i List.mem_cons_self)⟩
    rw [List.filterMap_cons_some hi, List.zip_cons_cons]
    refine ⟨by rw [List.map_cons, hfst], by rw [List.map_cons, hsnd], fun q hq => ?_⟩
    rcases List.mem_cons.1 hq with rfl | hq
    · exact hi
    · exact hget q hq

/-- A layout that is resolved is one of a projection. -/
theorem exists_projection_of_resolve (h : resolve selected s = .ok l) :
    ∃ p, Projection.resolve selected s = .ok p ∧ l = ofProjection p s := by
  simp only [resolve, bind, Except.bind, pure, Except.pure] at h
  split at h
  · cases h
  split at h
  · cases h
  rename_i p hp
  cases h
  exact ⟨p, hp, rfl⟩

/-- A layout has a column for each of its wire positions. -/
theorem snd_columns_of_resolve (h : resolve selected s = .ok l) :
    l.columns.map Prod.snd = l.wireIndices := by
  obtain ⟨p, hp, rfl⟩ := exists_projection_of_resolve h
  exact (zip_filterMap (Projection.wireIndices_of_resolve hp).2).2.1

/-- And one for each of its fields. -/
theorem fst_columns_of_resolve (h : resolve selected s = .ok l) :
    l.columns.map Prod.fst = l.fields := by
  obtain ⟨p, hp, rfl⟩ := exists_projection_of_resolve h
  exact (zip_filterMap (Projection.wireIndices_of_resolve hp).2).1

/-- All of them are positions of the schema. -/
theorem lt_size_of_resolve (h : resolve selected s = .ok l) : ∀ i ∈ l.wireIndices, i < s.size := by
  obtain ⟨p, hp, rfl⟩ := exists_projection_of_resolve h
  exact (Projection.wireIndices_of_resolve hp).2

/-- **A layout takes every field from where the schema has it**, and no
position twice. -/
theorem columns_of_resolve (h : resolve selected s = .ok l) :
    (l.columns.map Prod.snd).Nodup ∧ ∀ q ∈ l.columns, s.fields[q.2]? = some q.1 := by
  obtain ⟨p, hp, rfl⟩ := exists_projection_of_resolve h
  obtain ⟨hn, hlt⟩ := Projection.wireIndices_of_resolve hp
  obtain ⟨-, hsnd, hget⟩ := zip_filterMap hlt
  exact ⟨by rw [columns, ofProjection, hsnd]; exact hn, hget⟩

/-- There is no layout over a schema without fields. -/
theorem fields_ne_nil_of_resolve (h : resolve selected s = .ok l) : s.fields ≠ [] := by
  intro hnil
  have hv : s.validate = .error .emptySchema := by simp [Schema.validate, hnil]
  simp [resolve, bind, Except.bind, hv] at h

end Layout

namespace Sample

/-- A number that is required and a name that may be null. -/
def named : Schema := ⟨[⟨"id", .int64, false⟩, ⟨"name", .string, true⟩]⟩

end Sample

end Intake
