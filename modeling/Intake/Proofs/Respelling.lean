import Intake.Json.Reader
import Intake.Json.Writer
/-!
# A written text is read back

A value without numbers that is written as a text is read back from it. The
escapes of a string are undone one character at a time (`pieces_escaped`): a
control character without a letter is read as a code unit, which is no half
of a surrogate pair. The values of a list are read back one after the other,
with as much fuel as the list has characters, by what each of them is read
back as itself (`items_ended`, `members_ended`). Main statement:
`ofText?_written`.
-/

namespace Intake.Json

variable {v : Json}

/-! ## Strings -/

/-- The number of a control character has two digits. -/
theorem toList_fourDigits : ∀ n < 0x20, (fourDigits n).toList =
    ['0', '0', Nat.digitChar (n / 16), Nat.digitChar (n % 16)] := by
  decide

theorem hex?_digitChar : ∀ n < 16, hex? (Nat.digitChar n) = some n := by decide

theorem hex4_digits {n : Nat} (hn : n < 256) :
    hex4 '0' '0' (Nat.digitChar (n / 16)) (Nat.digitChar (n % 16)) = some n := by
  have hzero : hex? '0' = some 0 := rfl
  simp only [hex4, hzero, hex?_digitChar _ (show n / 16 < 16 by omega),
    hex?_digitChar _ (show n % 16 < 16 by omega), Option.bind_eq_bind, Option.bind_some,
    Option.pure_def]
  congr 1
  omega

/-- The characters that are written by a letter or by themselves after a
backslash. -/
def lettered : List Char := ['"', '\\', '\x08', '\x0c', '\n', '\r', '\t']

/-- The piece that a written character is read as: a control character
without a letter is a code unit. -/
def pieceOf (c : Char) : Piece :=
  if c.toNat < 0x20 ∧ c ∉ lettered then .unit c.toNat else .char c

/-- A written character is read as one piece. -/
theorem pieces_escaped (c : Char) (s : List Char) (acc : List Piece) :
    pieces ((escaped c).toList ++ s) acc = pieces s (pieceOf c :: acc) := by
  by_cases hletter : c ∈ lettered
  · simp only [lettered, List.mem_cons, List.not_mem_nil, or_false] at hletter
    rcases hletter with rfl | rfl | rfl | rfl | rfl | rfl | rfl <;> rfl
  · have hletter' := hletter
    simp only [lettered, List.mem_cons, List.not_mem_nil, or_false, not_or] at hletter'
    obtain ⟨hquote, hslash, h1, h2, h3, h4, h5⟩ := hletter'
    rw [escaped, if_neg hquote, if_neg hslash, if_neg h1, if_neg h2, if_neg h3, if_neg h4,
      if_neg h5]
    by_cases hcontrol : c.toNat < 0x20
    · rw [if_pos hcontrol, pieceOf, if_pos ⟨hcontrol, hletter⟩, String.toList_append,
        toList_fourDigits _ hcontrol]
      simp [pieces, hex4_digits (show c.toNat < 256 by omega)]
    · rw [if_neg hcontrol, pieceOf, if_neg fun h => hcontrol h.1]
      simp [pieces, hslash, hcontrol]

/-- A code unit that is no surrogate is a character. -/
theorem unite_unit {n : Nat} (hn : n < 0xD800) (ps : List Piece) (acc : List Char) :
    unite (.unit n :: ps) acc = unite ps (Char.ofNat n :: acc) := by
  rcases ps with _ | ⟨_ | _, ps⟩ <;> simp [unite, hn]

/-- The pieces of written characters make up these characters. -/
theorem unite_map_pieceOf (s acc : List Char) :
    unite (s.map pieceOf) acc = some (String.ofList (acc.reverse ++ s)) := by
  induction s generalizing acc with
  | nil => simp [unite]
  | cons c s ih =>
    have hstep : unite (pieceOf c :: s.map pieceOf) acc = unite (s.map pieceOf) (c :: acc) := by
      by_cases hunit : c.toNat < 0x20 ∧ c ∉ lettered
      · rw [pieceOf, if_pos hunit, unite_unit (by omega), Char.ofNat_toNat]
      · rw [pieceOf, if_neg hunit, unite]
    rw [List.map_cons, hstep, ih]
    simp

/-- The characters of a written string, behind its opening quote. -/
def textTail (s : String) : List Char := s.toList.flatMap (fun c => (escaped c).toList) ++ ['"']

theorem toList_writtenText (s : String) : (writtenText (some s)).toList = '"' :: textTail s := by
  have hfold (cs : List Char) (out : String) :
      (cs.foldl (fun out c => out ++ escaped c) out).toList =
        out.toList ++ cs.flatMap fun c => (escaped c).toList := by
    induction cs generalizing out with
    | nil => simp
    | cons c cs ih => simp [ih]
  simp [writtenText, textTail, hfold]

/-- A written string is read back. -/
theorem string_textTail (s : String) (rest : List Char) :
    string (textTail s ++ rest) = some (some s, rest) := by
  have hpieces (cs : List Char) (acc : List Piece) :
      pieces (cs.flatMap (fun c => (escaped c).toList) ++ '"' :: rest) acc =
        some ((cs.map pieceOf).reverse ++ acc, rest) := by
    induction cs generalizing acc with
    | nil => rfl
    | cons c cs ih => simp [pieces_escaped, ih]
  rw [string, textTail, List.append_assoc, List.singleton_append, hpieces]
  simp [unite_map_pieceOf]

/-! ## The text of a value -/

/-- Texts with commas between them, up to and with what closes their list. -/
def ended (close : Char) : List String → List Char
  | [] => [close]
  | [x] => x.toList ++ [close]
  | x :: y :: xs => x.toList ++ ',' :: ended close (y :: xs)

theorem toList_intercalate (close : Char) (xs : List String) :
    (",".intercalate xs).toList ++ [close] = ended close xs := by
  induction xs with
  | nil => rfl
  | cons x xs ih =>
    cases xs with
    | nil => simp [ended]
    | cons y ys =>
      rw [String.intercalate_cons_of_ne_nil (List.cons_ne_nil y ys), String.toList_append,
        String.toList_append, List.append_assoc, ih, ended]
      simp

/-- The first text stands in front. -/
theorem exists_ended (close : Char) (x : String) (xs : List String) :
    ∃ s, ended close (x :: xs) = x.toList ++ s := by
  cases xs with
  | nil => exact ⟨_, rfl⟩
  | cons y ys => exact ⟨_, rfl⟩

theorem toList_member (name : String) (v : Json) :
    (writtenText (some name) ++ ":" ++ written v).toList =
      '"' :: (textTail name ++ ':' :: v.written.toList) := by
  simp [toList_writtenText]

theorem toList_written_array (items : List Json) :
    (written (.array items)).toList = '[' :: ended ']' (writtenItems items) := by
  simp [written, ← toList_intercalate]

theorem toList_written_object (members : List (Text × Json)) :
    (written (.object members)).toList = '\x7b' :: ended '\x7d' (writtenMembers members) := by
  simp [written, ← toList_intercalate]

/-- A value without numbers, all of whose strings are texts. -/
inductive Wordy : Json → Prop
  | null : Wordy .null
  | bool (b : Bool) : Wordy (.bool b)
  | text (s : String) : Wordy (.text (some s))
  | array {items : List Json} (h : ∀ v ∈ items, Wordy v) : Wordy (.array items)
  | object {members : List (Text × Json)} (hnames : ∀ m ∈ members, m.1.isSome)
      (h : ∀ m ∈ members, Wordy m.2) : Wordy (.object members)

/-! ## Steps of the reader -/

section Steps

variable {fuel : Nat} {c : Char} {s r rest : List Char} {vs : List Json}
variable {ms : List (Text × Json)}

theorem skipSpace_cons (hc : isSpace c = false) : skipSpace (c :: s) = c :: s := by
  simp [skipSpace, hc]

theorem items_last (hv : value fuel s = some (v, ']' :: rest)) :
    items (fuel + 1) s = some ([v], rest) := by
  rw [items, hv]
  rfl

theorem items_more (hv : value fuel s = some (v, ',' :: r))
    (hvs : items fuel r = some (vs, rest)) : items (fuel + 1) s = some (v :: vs, rest) := by
  have hcomma : skipSpace (',' :: r) = ',' :: r := skipSpace_cons (by decide)
  simp only [items, hv, hcomma, hvs, Option.map_some]

theorem members_last (name : String) (hv : value fuel s = some (v, '\x7d' :: rest)) :
    members (fuel + 1) ('"' :: (textTail name ++ ':' :: s)) = some ([(some name, v)], rest) := by
  have hquote (s : List Char) : skipSpace ('"' :: s) = '"' :: s := skipSpace_cons (by decide)
  have hcolon : skipSpace (':' :: s) = ':' :: s := skipSpace_cons (by decide)
  have hclose : skipSpace ('\x7d' :: rest) = '\x7d' :: rest := skipSpace_cons (by decide)
  simp only [members, hquote, string_textTail, hcolon, hv, hclose]

theorem members_more (name : String) (hv : value fuel s = some (v, ',' :: r))
    (hms : members fuel r = some (ms, rest)) :
    members (fuel + 1) ('"' :: (textTail name ++ ':' :: s)) =
      some ((some name, v) :: ms, rest) := by
  have hquote (s : List Char) : skipSpace ('"' :: s) = '"' :: s := skipSpace_cons (by decide)
  have hcolon : skipSpace (':' :: s) = ':' :: s := skipSpace_cons (by decide)
  have hcomma : skipSpace (',' :: r) = ',' :: r := skipSpace_cons (by decide)
  simp only [members, hquote, string_textTail, hcolon, hv, hcomma, hms, Option.map_some]

theorem value_text (t : String) :
    value (fuel + 1) ('"' :: (textTail t ++ rest)) = some (.text (some t), rest) := by
  have hquote : skipSpace ('"' :: (textTail t ++ rest)) = '"' :: (textTail t ++ rest) :=
    skipSpace_cons (by decide)
  simp only [value, hquote, string_textTail, Option.map_some]

theorem value_array (hc : isSpace c = false) (hclose : c ≠ ']')
    (hvs : items fuel (c :: s) = some (vs, rest)) :
    value (fuel + 1) ('[' :: c :: s) = some (.array vs, rest) := by
  have hbracket : skipSpace ('[' :: c :: s) = '[' :: c :: s := skipSpace_cons (by decide)
  simp [value, hbracket, skipSpace_cons hc, hclose, hvs]

theorem value_object (hms : members fuel ('"' :: s) = some (ms, rest)) :
    value (fuel + 1) ('\x7b' :: '"' :: s) = some (.object ms, rest) := by
  have hbrace : skipSpace ('\x7b' :: '"' :: s) = '\x7b' :: '"' :: s := skipSpace_cons (by decide)
  have hquote : skipSpace ('"' :: s) = '"' :: s := skipSpace_cons (by decide)
  simp [value, hbrace, hquote, hms]

end Steps

/-! ## Values -/

/-- A value is read back with enough fuel, whatever comes after it. -/
def ReadsBack (v : Json) : Prop :=
  ∀ fuel rest, v.written.toList.length ≤ fuel →
    value fuel (v.written.toList ++ rest) = some (v, rest)

/-- A written value neither begins with a blank nor closes a list. -/
theorem Wordy.exists_head (h : Wordy v) :
    ∃ c cs, v.written.toList = c :: cs ∧ isSpace c = false ∧ c ≠ ']' := by
  cases h with
  | null => exact ⟨_, _, rfl, by decide, by decide⟩
  | bool b => cases b <;> exact ⟨_, _, rfl, by decide, by decide⟩
  | text s => exact ⟨_, _, toList_writtenText s, by decide, by decide⟩
  | array h => exact ⟨_, _, toList_written_array _, by decide, by decide⟩
  | object hnames h => exact ⟨_, _, toList_written_object _, by decide, by decide⟩

/-- The items of an array are read back as each of them is. -/
theorem items_ended {vs : List Json} (hvs : vs ≠ []) (h : ∀ v ∈ vs, ReadsBack v) {fuel : Nat}
    (rest : List Char) (hfuel : (ended ']' (writtenItems vs)).length ≤ fuel) :
    items fuel (ended ']' (writtenItems vs) ++ rest) = some (vs, rest) := by
  induction vs generalizing fuel with
  | nil => exact absurd rfl hvs
  | cons v vs ih =>
    obtain ⟨hv, hws⟩ := List.forall_mem_cons.1 h
    cases vs with
    | nil =>
      simp only [writtenItems, ended, List.length_append, List.length_singleton,
        List.append_assoc] at hfuel ⊢
      obtain ⟨fuel, rfl⟩ := Nat.exists_eq_add_of_le' (show 1 ≤ fuel by omega)
      exact items_last (hv _ _ (by omega))
    | cons w ws =>
      have hnext := @ih (List.cons_ne_nil w ws) hws
      simp only [writtenItems, ended, List.length_append, List.length_cons,
        List.append_assoc] at hfuel hnext ⊢
      obtain ⟨fuel, rfl⟩ := Nat.exists_eq_add_of_le' (show 1 ≤ fuel by omega)
      exact items_more (hv _ _ (by omega)) (hnext (by omega))

/-- So are the members of an object. -/
theorem members_ended {ms : List (Text × Json)} (hms : ms ≠ []) (hnames : ∀ m ∈ ms, m.1.isSome)
    (h : ∀ m ∈ ms, ReadsBack m.2) {fuel : Nat} (rest : List Char)
    (hfuel : (ended '\x7d' (writtenMembers ms)).length ≤ fuel) :
    members fuel (ended '\x7d' (writtenMembers ms) ++ rest) = some (ms, rest) := by
  induction ms generalizing fuel with
  | nil => exact absurd rfl hms
  | cons m ms ih =>
    obtain ⟨hv, hws⟩ := List.forall_mem_cons.1 h
    obtain ⟨hname, hnames'⟩ := List.forall_mem_cons.1 hnames
    obtain ⟨_ | name, v⟩ := m
    · cases hname
    cases ms with
    | nil =>
      simp only [writtenMembers, ended, toList_member, List.cons_append, List.append_assoc,
        List.length_cons, List.length_append] at hfuel ⊢
      obtain ⟨fuel, rfl⟩ := Nat.exists_eq_add_of_le' (show 1 ≤ fuel by omega)
      exact members_last name (hv _ _ (show v.written.toList.length ≤ fuel by omega))
    | cons w ws =>
      have hnext := @ih (List.cons_ne_nil w ws) hnames' hws
      simp only [writtenMembers, ended, toList_member, List.cons_append, List.append_assoc,
        List.length_cons, List.length_append] at hfuel hnext ⊢
      obtain ⟨fuel, rfl⟩ := Nat.exists_eq_add_of_le' (show 1 ≤ fuel by omega)
      exact members_more name (hv _ _ (show v.written.toList.length ≤ fuel by omega))
        (hnext (by omega))

/-- No value is written as an empty text, so that there is fuel for its
first character. -/
theorem ReadsBack.of_succ (hv : Wordy v)
    (h : ∀ fuel rest, v.written.toList.length ≤ fuel + 1 →
      value (fuel + 1) (v.written.toList ++ rest) = some (v, rest)) : ReadsBack v := by
  intro fuel rest hfuel
  obtain ⟨c, cs, hcs, -⟩ := hv.exists_head
  have hpos : 1 ≤ v.written.toList.length := by simp [hcs]
  obtain ⟨fuel, rfl⟩ := Nat.exists_eq_add_of_le' (Nat.le_trans hpos hfuel)
  exact h fuel rest hfuel

theorem Wordy.readsBack (h : Wordy v) : ReadsBack v := by
  induction h with
  | null => exact .of_succ .null fun _ _ _ => rfl
  | bool b =>
    refine .of_succ (.bool b) fun fuel rest _ => ?_
    cases b <;> rfl
  | text s =>
    refine .of_succ (.text s) fun fuel rest _ => ?_
    rw [written, toList_writtenText]
    exact value_text s
  | @array vs h ih =>
    refine .of_succ (.array h) fun fuel rest hfuel => ?_
    rw [toList_written_array] at hfuel ⊢
    cases vs with
    | nil => rfl
    | cons v ws =>
      have hitems := items_ended (List.cons_ne_nil v ws) ih rest (Nat.le_of_succ_le_succ hfuel)
      obtain ⟨c, cs, hcs, hspace, hclose⟩ := (h v List.mem_cons_self).exists_head
      obtain ⟨s, hs⟩ := exists_ended ']' v.written (writtenItems ws)
      rw [writtenItems, hs, hcs] at hitems ⊢
      exact value_array hspace hclose hitems
  | @object ms hnames h ih =>
    refine .of_succ (.object hnames h) fun fuel rest hfuel => ?_
    rw [toList_written_object] at hfuel ⊢
    cases ms with
    | nil => rfl
    | cons m ms =>
      have hmembers := members_ended (List.cons_ne_nil m ms) hnames ih rest
        (Nat.le_of_succ_le_succ hfuel)
      obtain ⟨s, hs⟩ := exists_ended '\x7d' (writtenText m.1 ++ ":" ++ m.2.written)
        (writtenMembers ms)
      obtain ⟨_ | name, v⟩ := m
      · exact absurd (hnames _ List.mem_cons_self) Bool.false_ne_true
      rw [writtenMembers, hs, toList_member] at hmembers ⊢
      exact value_object hmembers

/-- **A written value is read back.** -/
theorem ofText?_written (h : Wordy v) : ofText? v.written = some v := by
  have hread := h.readsBack (2 * v.written.toList.length + 2) [] (by omega)
  rw [List.append_nil] at hread
  simp [ofText?, hread, skipSpace]

end Intake.Json
