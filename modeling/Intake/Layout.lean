import Intake.Schema
import Intake.Misfit
/-!
# Row layouts

A run asks for fields in an order of its own. A projection maps each
position of the output to a position on the wire; a layout adds to it
the fields found there and the number of fields on the wire.
-/

namespace Intake

namespace Schema

/-- The first field, if any, that is unnamed or repeats a name of `seen`
or of a field before it. -/
def checkNames : List String → List Field → Except Misfit Unit
  | _, [] => .ok ()
  | seen, f :: fs =>
    if f.name = "" then .error .unnamedField
    else if f.name ∈ seen then .error (.repeatedField f.name)
    else checkNames (f.name :: seen) fs

/-- A schema can be run when it has a field and its names are distinct and
not empty. -/
def validate (s : Schema) : Except Misfit Unit :=
  if s.fields.isEmpty then .error .emptySchema else checkNames [] s.fields

end Schema

/-- The wire position of each output position. -/
structure Projection where
  wireIndices : List Nat
  deriving DecidableEq, Repr

namespace Projection

/-- The wire positions of requested names, each of which has to be new
and to name exactly one field. -/
def positions (s : Schema) : List String → List String → Except Misfit (List Nat)
  | _, [] => .ok []
  | seen, name :: names =>
    if name ∈ seen then .error (.requestedTwice name)
    else
      match s.indexOf? name with
      | none => .error (.noUniqueMatch name s.names)
      | some i => (positions s (name :: seen) names).map (i :: ·)

/-- The projection to the requested names; no name at all asks for every
field in wire order. -/
def resolve (requested : List String) (s : Schema) : Except Misfit Projection :=
  if requested.isEmpty then .ok ⟨List.range s.size⟩
  else (positions s [] requested).map Projection.mk

/-- Whether the output order is the wire order over the whole schema. -/
def isIdentity (p : Projection) (s : Schema) : Bool :=
  p.wireIndices == List.range s.size

end Projection

/-- The fields of the output in output order and where each comes from. -/
structure Layout where
  fields : List Field
  wireIndices : List Nat
  /-- the number of fields on the wire -/
  wireWidth : Nat
  deriving DecidableEq, Repr

namespace Layout

/-- The layout a projection gives over a schema. -/
def ofProjection (p : Projection) (s : Schema) : Layout :=
  ⟨p.wireIndices.filterMap fun i => s.fields[i]?, p.wireIndices, s.size⟩

/-- The layout of the requested names over a schema that can be run. -/
def resolve (requested : List String) (s : Schema) : Except Misfit Layout := do
  s.validate
  return ofProjection (← Projection.resolve requested s) s

/-- The output fields, each with its wire position. -/
def columns (l : Layout) : List (Field × Nat) := l.fields.zip l.wireIndices

end Layout

end Intake
