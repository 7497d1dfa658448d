import Intake.Json.Basic
import Intake.Number.Text
import Intake.Text.Quoted
/-!
# Writing a JSON text

A value is written on one line without blanks. In a string the quote, the
backslash and the control characters are escaped and all else stands as
it is.
-/

namespace Intake.Json

/-- A hexadecimal number of two digits or fewer, with zeros in front up to
four digits. -/
def fourDigits (n : Nat) : String := (if n < 16 then "000" else "00") ++ Text.hexDigits n

/-- One character as it stands in a string. -/
def escaped (c : Char) : String :=
  if c = '"' then "\\\""
  else if c = '\\' then "\\\\"
  else if c = '\x08' then "\\b"
  else if c = '\x0c' then "\\f"
  else if c = '\n' then "\\n"
  else if c = '\r' then "\\r"
  else if c = '\t' then "\\t"
  else if c.toNat < 0x20 then "\\u" ++ fourDigits c.toNat
  else c.toString

/-- A string; one that is no text is written as if it were empty. -/
def writtenText (s : Text) : String :=
  "\"" ++ (s.getD "").toList.foldl (fun out c => out ++ escaped c) "" ++ "\""

/-- A number; one beyond all doubles has no written form and becomes null. -/
def writtenNumber : Number → String
  | .int n => toString n
  | .real x => x.text .json
  | .beyond => "null"

mutual

/-- The text of a value. -/
def written : Json → String
  | .null => "null"
  | .bool b => toString b
  | .number n => writtenNumber n
  | .text s => writtenText s
  | .array items => "[" ++ ",".intercalate (writtenItems items) ++ "]"
  | .object members => "\x7b" ++ ",".intercalate (writtenMembers members) ++ "\x7d"

def writtenItems : List Json → List String
  | [] => []
  | v :: vs => written v :: writtenItems vs

def writtenMembers : List (Text × Json) → List String
  | [] => []
  | (name, v) :: ms => (writtenText name ++ ":" ++ written v) :: writtenMembers ms

end

end Intake.Json
