import Intake.Text.Unseen
/-!
# Quoted text

A text between double quotes, on one line and free of characters a
reader could not see. The quote and the backslash are written after a
backslash, tab, line feed, carriage return and NUL by their letters, and
every other unseen character as its number in braces.
-/

namespace Intake.Text

/-- The lower-case hexadecimal digits of a number, at least one. -/
def hexDigits (n : Nat) : String := String.ofList (Nat.toDigits 16 n)

/-- One character as it stands between the quotes. -/
def quotedChar (c : Char) : String :=
  if c = '"' then "\\\""
  else if c = '\\' then "\\\\"
  else if c = '\t' then "\\t"
  else if c = '\n' then "\\n"
  else if c = '\r' then "\\r"
  else if c = '\x00' then "\\0"
  else if isUnseen c then "\\u\x7b" ++ hexDigits c.toNat ++ "\x7d"
  else c.toString

/-- A text between double quotes. -/
def quoted (s : String) : String :=
  "\"" ++ s.toList.foldl (fun out c => out ++ quotedChar c) "" ++ "\""

end Intake.Text
