import Intake.Run.Outcome
import Intake.Run.Turns
import Intake.Session
/-!
# Opening a run

A run is opened on a session: the settings, the split names, the schema
with the fields asked for, and the codec are checked in this order, and
the splits are dealt to the workers. Nothing is read before the run
starts.
-/

namespace Intake

/-- A run that can start. -/
structure Ingestion where
  config : EngineConfig
  plan : Plan
  assignments : List Assignment

namespace Ingestion

/-- A run on a session for the selected fields, or why there can be none. -/
def ofSession (c : EngineConfig) (s : Session) (selected : List String) :
    Except Misfit Ingestion := do
  c.validate
  Session.validateSplits s.splits
  let layout ← Layout.resolve selected s.schema
  let codec ← Codec.forFormat s.format s.schema
  return ⟨c, ⟨c.read, codec, layout⟩, Assignment.all s.splits c.parallelism.toNat⟩

variable {σ α : Type}

/-- The run at its start, reading from a service into a sink. -/
def start (g : Ingestion) (service : Service) (sink : σ) : Machine σ :=
  ⟨{ service, sink }, g.assignments.map fun a => Worker.start a.worker a.splits⟩

end Ingestion

end Intake
