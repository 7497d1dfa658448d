import Intake.Record
/-!
# Sinks

A sink takes the records of a run, each with the number of the worker it
comes from. It may take a record, refuse it, or have no room for it until
something outside the run acts on it.
-/

namespace Intake

/-- What becomes of a record offered to a sink. -/
inductive Reply (σ : Type) where
  | accepted (sink : σ)
  | refused (sink : σ)
  /-- no room at present -/
  | full

/-- A kind of sink with states `σ` on which the outside acts by `α`. -/
structure Sink (σ α : Type) where
  /-- offers a record of a worker, in a run that goes on or has stopped -/
  offer : σ → Bool → Nat → Record → Reply σ
  act : σ → α → σ

namespace Sink

/-- A sink that takes everything. -/
def collecting : Sink Unit Empty := ⟨fun _ _ _ _ => .accepted (), fun s _ => s⟩

/-- A sink that takes so many records and refuses all others; its state is
how many it has taken. -/
def upTo (limit : Option Nat) : Sink Nat Empty where
  offer held _ _ _ :=
    match limit with
    | none => .accepted (held + 1)
    | some n => if n ≤ held then .refused held else .accepted (held + 1)
  act held _ := held

end Sink

end Intake
