import Intake.Text.Blank
import Mathlib.Data.List.TakeWhile
/-!
# Texts cut and joined

Cutting a text at a separator and joining texts by it undo each other: the
pieces of a text, joined, are the text (`intercalate_pieces`), and texts
without the separator, joined by it, are cut into themselves again
(`pieces_intercalate`). And a text is blank just when trimming leaves
nothing of it (`trim_eq_empty_iff`).
-/

namespace Intake.Text

variable {sep : Char} {s p : String}

/-- A text is blank when nothing is left of it after trimming. -/
theorem trim_eq_empty_iff {t : String} : trim t = "" ↔ isBlankText t = true := by
  have hchars : trim t = "" ↔ trimChars t.toList = [] := by
    rw [trim, ← String.toList_inj, String.toList_ofList, String.toList_empty]
  rw [hchars, trimChars, List.reverse_eq_nil_iff, List.dropWhile_eq_nil_iff, isBlankText,
    List.all_eq_true]
  constructor
  · intro h x hx
    -- what is cut off in front is blank, and so is what is left
    rw [← List.takeWhile_append_dropWhile (p := isBlank) (l := t.toList)] at hx
    rcases List.mem_append.1 hx with hx | hx
    · exact List.mem_takeWhile_imp hx
    · exact h x (List.mem_reverse.2 hx)
  · intro h x hx
    exact h x ((List.dropWhile_sublist _).subset (List.mem_reverse.1 hx))

/-- The pieces of a text around a separator. -/
theorem pieces_append (sep : Char) (a b : String) :
    pieces sep (a ++ String.singleton sep ++ b) = pieces sep a ++ pieces sep b := by
  simp [pieces, splitOn_append_cons]

/-- **Texts without the separator, joined by it, are cut into these texts
again.** -/
theorem pieces_intercalate {xs : List String} (hne : xs ≠ []) (hx : ∀ x ∈ xs, sep ∉ x.toList) :
    pieces sep ((String.singleton sep).intercalate xs) = xs := by
  induction xs with
  | nil => exact absurd rfl hne
  | cons x xs ih =>
    obtain ⟨hhead, htail⟩ := List.forall_mem_cons.1 hx
    by_cases hxs : xs = []
    · subst hxs
      simpa using pieces_of_not_mem hhead
    · rw [String.intercalate_cons_of_ne_nil hxs, pieces_append, pieces_of_not_mem hhead,
        ih hxs htail, List.singleton_append]

theorem join_eq_intercalate (sep : Char) (ps : List (List Char)) :
    join sep ps = [sep].intercalate ps := by
  induction ps with
  | nil => rfl
  | cons p ps ih =>
    cases ps with
    | nil => simp [join]
    | cons q ps =>
      rw [join, ih, List.intercalate_cons_cons, List.append_assoc, List.singleton_append]

/-- **The pieces of a text, joined by the separator, are the text.** -/
theorem intercalate_pieces (sep : Char) (s : String) :
    (String.singleton sep).intercalate (pieces sep s) = s := by
  have hchars : String.toList ∘ String.ofList = id := funext fun _ => String.toList_ofList
  rw [← String.toList_inj, String.toList_intercalate, String.toList_singleton, pieces,
    List.map_map, hchars, List.map_id, ← join_eq_intercalate, join_splitOn]

/-- No piece holds the separator. -/
theorem not_mem_of_mem_pieces (hp : p ∈ pieces sep s) : sep ∉ p.toList := by
  obtain ⟨cs, hcs, rfl⟩ := List.mem_map.1 hp
  rw [String.toList_ofList]
  exact not_mem_of_mem_splitOn hcs

end Intake.Text
