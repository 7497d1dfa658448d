import Intake.Json.Literal
/-!
# Reading a JSON text

The grammar of RFC 8259, by recursive descent. A text is refused for any
departure from it: a control character inside a string, an unknown
escape, a leading zero, a trailing comma, anything behind the value. The
depth of nesting is not bounded.
-/

namespace Intake.Json

/-- White space between tokens. -/
def isSpace (c : Char) : Bool := c = ' ' || c = '\n' || c = '\t' || c = '\r'

def skipSpace (s : List Char) : List Char := s.dropWhile isSpace

/-! ## Numbers -/

/-- The value of a decimal digit. -/
def digit? (c : Char) : Option Nat :=
  if '0' ≤ c ∧ c ≤ '9' then some (c.toNat - '0'.toNat) else none

/-- The digits at the front of a text, and what follows them. -/
def takeDigits : List Char → List Nat × List Char
  | [] => ([], [])
  | c :: cs =>
    match digit? c with
    | none => ([], c :: cs)
    | some d => let (ds, rest) := takeDigits cs; (d :: ds, rest)

/-- Digits, at least one. -/
def digits1 (s : List Char) : Option (List Nat × List Char) :=
  match takeDigits s with
  | ([], _) => none
  | r => some r

/-- The digits before the point: a zero stands alone. -/
def whole (s : List Char) : Option (List Nat × List Char) :=
  match digits1 s with
  | some (0 :: _ :: _, _) => none
  | r => r

/-- The fraction of a literal, if there is one. -/
def fraction : List Char → Option (Option (List Nat) × List Char)
  | '.' :: s => (digits1 s).map fun (ds, rest) => (some ds, rest)
  | s => some (none, s)

/-- The exponent of a literal, if there is one. -/
def exponent : List Char → Option (Option (Bool × List Nat) × List Char)
  | c :: s =>
    if c = 'e' ∨ c = 'E' then
      let (negative, s) :=
        match s with
        | '-' :: r => (true, r)
        | '+' :: r => (false, r)
        | r => (false, r)
      (digits1 s).map fun (ds, rest) => (some (negative, ds), rest)
    else some (none, c :: s)
  | [] => some (none, [])

/-- A number literal. -/
def literal (s : List Char) : Option (Literal × List Char) := do
  let (negative, s) :=
    match s with
    | '-' :: r => (true, r)
    | r => (false, r)
  let (w, s) ← whole s
  let (f, s) ← fraction s
  let (e, s) ← exponent s
  return (⟨negative, w, f, e⟩, s)

/-! ## Strings -/

/-- The value of a hexadecimal digit. -/
def hex? (c : Char) : Option Nat :=
  if '0' ≤ c ∧ c ≤ '9' then some (c.toNat - '0'.toNat)
  else if 'a' ≤ c ∧ c ≤ 'f' then some (c.toNat - 'a'.toNat + 10)
  else if 'A' ≤ c ∧ c ≤ 'F' then some (c.toNat - 'A'.toNat + 10)
  else none

/-- Four hexadecimal digits. -/
def hex4 (a b c d : Char) : Option Nat := do
  return (((← hex? a) * 16 + (← hex? b)) * 16 + (← hex? c)) * 16 + (← hex? d)

/-- What a letter after a backslash stands for. -/
def shortEscape? (c : Char) : Option Char :=
  if c = '"' then some '"'
  else if c = '\\' then some '\\'
  else if c = '/' then some '/'
  else if c = 'b' then some '\x08'
  else if c = 'f' then some '\x0c'
  else if c = 'n' then some '\n'
  else if c = 'r' then some '\r'
  else if c = 't' then some '\t'
  else none

/-- One piece of a string: a character, or a code unit written by number. -/
inductive Piece where
  | char (c : Char)
  | unit (n : Nat)

/-- The pieces of a string, read behind its opening quote, in reverse. -/
def pieces : List Char → List Piece → Option (List Piece × List Char)
  | '"' :: s, acc => some (acc, s)
  | '\\' :: 'u' :: a :: b :: c :: d :: s, acc =>
    match hex4 a b c d with
    | some n => pieces s (.unit n :: acc)
    | none => none
  | '\\' :: c :: s, acc =>
    match shortEscape? c with
    | some c => pieces s (.char c :: acc)
    | none => none
  | c :: s, acc => if c.toNat < 0x20 then none else pieces s (.char c :: acc)
  | [], _ => none

/-- The text of pieces, a pair of surrogates making one character. -/
def unite : List Piece → List Char → Text
  | [], acc => some (String.ofList acc.reverse)
  | .char c :: ps, acc => unite ps (c :: acc)
  | .unit n :: ps, acc =>
    if n < 0xD800 ∨ 0xE000 ≤ n then unite ps (Char.ofNat n :: acc)
    else if 0xDC00 ≤ n then none
    else
      match ps with
      | .unit low :: ps =>
        if 0xDC00 ≤ low ∧ low < 0xE000 then
          unite ps (Char.ofNat (0x10000 + (n - 0xD800) * 0x400 + (low - 0xDC00)) :: acc)
        else none
      | _ => none

/-- A string, read behind its opening quote. -/
def string (s : List Char) : Option (Text × List Char) :=
  (pieces s []).map fun (ps, rest) => (unite ps.reverse [], rest)

/-! ## Values -/

/-- Whether a fixed word opens a text, and what follows it. -/
def word (w : List Char) (s : List Char) : Option (List Char) :=
  if w.isPrefixOf s then some (s.drop w.length) else none

mutual

/-- A value; `fuel` bounds the number of values and separators read. -/
def value : Nat → List Char → Option (Json × List Char)
  | 0, _ => none
  | fuel + 1, s =>
    match skipSpace s with
    | '\x7b' :: r =>
      match skipSpace r with
      | '\x7d' :: r => some (.object [], r)
      | r => (members fuel r).map fun (ms, rest) => (.object ms, rest)
    | '[' :: r =>
      match skipSpace r with
      | ']' :: r => some (.array [], r)
      | r => (items fuel r).map fun (vs, rest) => (.array vs, rest)
    | '"' :: r => (string r).map fun (t, rest) => (.text t, rest)
    | 't' :: r => (word ['r', 'u', 'e'] r).map fun rest => (.bool true, rest)
    | 'f' :: r => (word ['a', 'l', 's', 'e'] r).map fun rest => (.bool false, rest)
    | 'n' :: r => (word ['u', 'l', 'l'] r).map fun rest => (.null, rest)
    | r => (literal r).map fun (l, rest) => (.number l.number, rest)

/-- The items of an array, up to and with its closing bracket. -/
def items : Nat → List Char → Option (List Json × List Char)
  | 0, _ => none
  | fuel + 1, s =>
    match value fuel s with
    | none => none
    | some (v, r) =>
      match skipSpace r with
      | ',' :: r => (items fuel r).map fun (vs, rest) => (v :: vs, rest)
      | ']' :: r => some ([v], r)
      | _ => none

/-- The members of an object, up to and with its closing brace. -/
def members : Nat → List Char → Option (List (Text × Json) × List Char)
  | 0, _ => none
  | fuel + 1, s =>
    match skipSpace s with
    | '"' :: r =>
      match string r with
      | none => none
      | some (name, r) =>
        match skipSpace r with
        | ':' :: r =>
          match value fuel r with
          | none => none
          | some (v, r) =>
            match skipSpace r with
            | ',' :: r => (members fuel r).map fun (ms, rest) => ((name, v) :: ms, rest)
            | '\x7d' :: r => some ([(name, v)], r)
            | _ => none
        | _ => none
    | _ => none

end

/-- The value that a whole text spells. -/
def ofText? (s : String) : Option Json :=
  let cs := s.toList
  match value (2 * cs.length + 2) cs with
  | some (v, rest) => if (skipSpace rest).isEmpty then some v else none
  | none => none

end Intake.Json
