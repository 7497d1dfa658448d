/-!
# Blank text

The characters with the Unicode property White_Space, the trimming of a
text at both ends by them, and the cutting of a text at a separator. A
name is blank when nothing of it is left after trimming. The main
statements: cutting loses nothing (`join_splitOn`), no piece holds the
separator (`not_mem_of_mem_splitOn`), and a separator parts a text wherever
it stands (`splitOn_append_cons`).
-/

namespace Intake.Text

/-- Whether a character has the Unicode property White_Space. -/
def isBlank (c : Char) : Bool :=
  let n := c.toNat
  (0x9 ≤ n && n ≤ 0xD) || n == 0x20 || n == 0x85 || n == 0xA0 || n == 0x1680 ||
    (0x2000 ≤ n && n ≤ 0x200A) || n == 0x2028 || n == 0x2029 || n == 0x202F ||
    n == 0x205F || n == 0x3000

/-- The characters of `s` without the blank ones at either end. -/
def trimChars (s : List Char) : List Char :=
  ((s.dropWhile isBlank).reverse.dropWhile isBlank).reverse

/-- A text without the blank characters at either end. -/
def trim (s : String) : String := String.ofList (trimChars s.toList)

/-- Whether nothing but blank characters stands in a text. -/
def isBlankText (s : String) : Bool := s.toList.all isBlank

/-! ## Cutting at a separator -/

/-- The pieces of `s` between the occurrences of `sep`: one more than
there are occurrences. -/
def splitOn (sep : Char) : List Char → List (List Char)
  | [] => [[]]
  | c :: cs =>
    if c = sep then [] :: splitOn sep cs
    else
      match splitOn sep cs with
      | [] => [[c]]
      | p :: ps => (c :: p) :: ps

/-- Pieces joined by a separator. -/
def join (sep : Char) : List (List Char) → List Char
  | [] => []
  | [p] => p
  | p :: q :: ps => p ++ sep :: join sep (q :: ps)

theorem splitOn_ne_nil (sep : Char) (s : List Char) : splitOn sep s ≠ [] := by
  cases s with
  | nil => simp [splitOn]
  | cons c cs =>
    by_cases h : c = sep
    · simp [splitOn, h]
    · simp only [splitOn, if_neg h]
      split <;> simp

/-- **Cutting loses nothing.** The pieces, joined by the separator, are
the text again. -/
theorem join_splitOn (sep : Char) (s : List Char) : join sep (splitOn sep s) = s := by
  induction s with
  | nil => rfl
  | cons c cs ih =>
    by_cases h : c = sep
    · cases hs : splitOn sep cs with
      | nil => exact absurd hs (splitOn_ne_nil sep cs)
      | cons p ps =>
        rw [hs] at ih
        simp [splitOn, h, hs, join, ih]
    · cases hs : splitOn sep cs with
      | nil => exact absurd hs (splitOn_ne_nil sep cs)
      | cons p ps =>
        rw [hs] at ih
        cases ps with
        | nil => simpa [splitOn, h, hs, join] using ih
        | cons q qs => simpa [splitOn, h, hs, join] using ih

/-- No piece holds the separator. -/
theorem not_mem_of_mem_splitOn {sep : Char} {s p : List Char} (hp : p ∈ splitOn sep s) :
    sep ∉ p := by
  induction s generalizing p with
  | nil => simp_all [splitOn]
  | cons c cs ih =>
    by_cases h : c = sep
    · simp only [splitOn, if_pos h, List.mem_cons] at hp
      rcases hp with rfl | hp
      · simp
      · exact ih hp
    · cases hs : splitOn sep cs with
      | nil => exact absurd hs (splitOn_ne_nil sep cs)
      | cons q qs =>
        rw [hs] at ih
        simp only [splitOn, if_neg h, hs, List.mem_cons] at hp
        rcases hp with rfl | hp
        · have := ih (p := q) (by simp)
          simp [this, Ne.symm h]
        · exact ih (List.mem_cons_of_mem _ hp)

/-- **A separator parts a text wherever it stands**: what is in front of it
and what is behind it are cut on their own. -/
theorem splitOn_append_cons (sep : Char) (s t : List Char) :
    splitOn sep (s ++ sep :: t) = splitOn sep s ++ splitOn sep t := by
  induction s with
  | nil => simp [splitOn]
  | cons c cs ih =>
    by_cases h : c = sep
    · simp [splitOn, h, ih]
    · obtain ⟨p, ps, hp⟩ := List.exists_cons_of_ne_nil (splitOn_ne_nil sep cs)
      simp [splitOn, h, ih, hp]

/-- A text without a separator is one piece. -/
theorem splitOn_of_not_mem {sep : Char} {s : List Char} (h : sep ∉ s) : splitOn sep s = [s] := by
  induction s with
  | nil => rfl
  | cons c cs ih =>
    obtain ⟨hc, hcs⟩ : sep ≠ c ∧ sep ∉ cs := by simpa using h
    simp [splitOn, Ne.symm hc, ih hcs]

/-- The pieces of a text between the occurrences of `sep`, as texts. -/
def pieces (sep : Char) (s : String) : List String :=
  (splitOn sep s.toList).map String.ofList

/-- So is it as a text. -/
theorem pieces_of_not_mem {sep : Char} {a : String} (h : sep ∉ a.toList) : pieces sep a = [a] := by
  simp [pieces, splitOn_of_not_mem h]

end Intake.Text
