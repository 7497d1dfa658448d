import Intake.Number.Binary64
/-!
# JSON values

A JSON value as far as a configuration needs it. An integer between
`-2 ^ 63` and `2 ^ 64 - 1` that is written without fraction and exponent
stays exact; any other number is a double, or beyond all doubles. A
string whose escapes leave half of a surrogate pair alone is no Unicode
text: it may stand where nothing reads it, so it has a place of its own.
-/

namespace Intake

/-- A number of a JSON text. -/
inductive Json.Number where
  /-- an integer written without fraction and exponent -/
  | int (n : Int)
  /-- any other number within the range of doubles -/
  | real (x : Binary64)
  /-- a number too large for a double -/
  | beyond
  deriving DecidableEq, Repr

/-- A string of a JSON text; `none` is a string with half a surrogate pair. -/
abbrev Json.Text := Option String

/-- A JSON value. The members of an object keep their order, and a name
may occur more than once. -/
inductive Json where
  | null
  | bool (b : Bool)
  | number (n : Json.Number)
  | text (s : Json.Text)
  | array (items : List Json)
  | object (members : List (Json.Text × Json))
  deriving Inhabited, Repr

namespace Json

mutual

/-- Whether two values are the same. -/
def decEq : (a b : Json) → Decidable (a = b)
  | .null, b => match b with
    | .null => isTrue rfl
    | .bool _ | .number _ | .text _ | .array _ | .object _ => isFalse nofun
  | .bool x, b => match b with
    | .bool y => decidable_of_iff (x = y) ⟨congrArg _, Json.bool.inj⟩
    | .null | .number _ | .text _ | .array _ | .object _ => isFalse nofun
  | .number x, b => match b with
    | .number y => decidable_of_iff (x = y) ⟨congrArg _, Json.number.inj⟩
    | .null | .bool _ | .text _ | .array _ | .object _ => isFalse nofun
  | .text x, b => match b with
    | .text y => decidable_of_iff (x = y) ⟨congrArg _, Json.text.inj⟩
    | .null | .bool _ | .number _ | .array _ | .object _ => isFalse nofun
  | .array x, b => match b with
    | .array y => have := decEqItems x y; decidable_of_iff (x = y) ⟨congrArg _, Json.array.inj⟩
    | .null | .bool _ | .number _ | .text _ | .object _ => isFalse nofun
  | .object x, b => match b with
    | .object y => have := decEqMembers x y; decidable_of_iff (x = y) ⟨congrArg _, Json.object.inj⟩
    | .null | .bool _ | .number _ | .text _ | .array _ => isFalse nofun

/-- Whether two lists of values are the same. -/
def decEqItems : (a b : List Json) → Decidable (a = b)
  | [], [] => isTrue rfl
  | [], _ :: _ => isFalse nofun
  | _ :: _, [] => isFalse nofun
  | v :: vs, w :: ws =>
    have := decEq v w
    have := decEqItems vs ws
    decidable_of_iff (v = w ∧ vs = ws) (by simp)

/-- Whether two lists of members are the same. -/
def decEqMembers : (a b : List (Text × Json)) → Decidable (a = b)
  | [], [] => isTrue rfl
  | [], _ :: _ => isFalse nofun
  | _ :: _, [] => isFalse nofun
  | (s, v) :: vs, (t, w) :: ws =>
    have := decEq v w
    have := decEqMembers vs ws
    decidable_of_iff ((s = t ∧ v = w) ∧ vs = ws) (by simp)

end

instance : DecidableEq Json := decEq

/-- A string value. -/
def str (s : String) : Json := .text (some s)

/-- A natural number. -/
def nat (n : Nat) : Json := .number (.int n)

/-- An integer. -/
def int (n : Int) : Json := .number (.int n)

/-- A double; one that is not finite has no JSON form and is written as null. -/
def real (x : Binary64) : Json := if x.isFinite then .number (.real x) else .null

/-- An optional value, null when absent. -/
def ofOption {α : Type} (f : α → Json) : Option α → Json
  | none => .null
  | some a => f a

/-- An object from names and values. -/
def record (members : List (String × Json)) : Json :=
  .object (members.map fun m => (some m.1, m.2))

end Json

end Intake
