import Intake.Layout
import Intake.Split
/-!
# Read sessions

A session is what the negotiation with the read service settled: the
splits to read, the schema of their batches and the encoding. Split
names have to be distinct and not blank.
-/

namespace Intake

/-- The splits of a session, the schema of their batches and the encoding. -/
structure Session where
  splits : List SplitId
  schema : Schema
  format : WireFormat := .arrow
  deriving DecidableEq, Repr

namespace Session

/-- Split names are not blank and repeat none of `seen` or of the names
before them. -/
def checkSplits : List SplitId → List SplitId → Except Misfit Unit
  | _, [] => .ok ()
  | seen, s :: ss =>
    if Text.isBlankText s.name then .error .unnamedSplit
    else if s ∈ seen then .error (.repeatedSplit s.name)
    else checkSplits (s :: seen) ss

/-- Split names are not blank and distinct. -/
def validateSplits (splits : List SplitId) : Except Misfit Unit := checkSplits [] splits

def toJson (s : Session) : Json :=
  .record [("splits", .array (s.splits.map SplitId.toJson)), ("schema", s.schema.toJson),
    ("format", s.format.toJson)]

def ofJson? (j : Json) : Option Session := do
  match ← j.fields? ["splits", "schema", "format"] with
  | [splits, schema, format] =>
    return ⟨← Json.required (Json.list? SplitId.ofJson?) splits,
      ← Json.required Schema.ofJson? schema, ← Json.fieldOr .arrow WireFormat.ofJson? format⟩
  | _ => none

end Session

end Intake
