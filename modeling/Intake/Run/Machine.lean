import Intake.Run.Worker
/-!
# Runs as interleavings

The workers of a run move in any order, and between their steps the run
may be cancelled and the outside may act on the sink. A machine holds all
of a run, and a list of events says what happens to it. A worker that
is gone, or waits for the sink, stays as it is when its turn comes.
-/

namespace Intake

variable {σ α : Type}

/-- The run once it is asked to stop. -/
def Shared.cancel (sh : Shared σ) : Shared σ := { sh with run := sh.run.cancel }

/-- The run once the outside has acted on its sink. -/
def Shared.act (sink : Sink σ α) (a : α) (sh : Shared σ) : Shared σ :=
  { sh with sink := sink.act sh.sink a }

/-- Something that happens to a run. -/
inductive Event (α : Type) where
  /-- a worker moves by a step -/
  | step (worker : Nat)
  | cancel
  /-- the outside acts on the sink -/
  | act (a : α)
  deriving DecidableEq, Repr

/-- All of a run: its workers and what they share. -/
structure Machine (σ : Type) where
  shared : Shared σ
  workers : List Worker

namespace Machine

/-- The run after an event. -/
def apply (p : Plan) (sink : Sink σ α) (m : Machine σ) : Event α → Machine σ
  | .step i =>
    match m.workers[i]? with
    | none => m
    | some w =>
      match w.step p sink m.shared with
      | none => m
      | some (w, sh) => ⟨sh, m.workers.set i w⟩
  | .cancel => { m with shared := m.shared.cancel }
  | .act a => { m with shared := m.shared.act sink a }

/-- The run after a list of events. -/
def run (p : Plan) (sink : Sink σ α) (m : Machine σ) (events : List (Event α)) : Machine σ :=
  events.foldl (apply p sink) m

/-- Whether every worker is gone. -/
def isOver (m : Machine σ) : Bool := m.workers.all Worker.isGone

/-- Whether every worker has left with a result. -/
def allLeft (m : Machine σ) : Bool := m.workers.all Worker.hasLeft

def hasPanicked (m : Machine σ) : Bool := m.workers.any Worker.hasPanicked

/-- The workers have all left just when the run is over and none panicked. -/
theorem allLeft_eq (m : Machine σ) : m.allLeft = (m.isOver && !m.hasPanicked) := by
  rw [Bool.eq_iff_iff]
  simp only [allLeft, isOver, hasPanicked, Worker.isGone, Bool.and_eq_true, Bool.not_eq_true',
    List.all_eq_true, List.any_eq_false, Bool.or_eq_true]
  constructor
  · exact fun h => ⟨fun w hw => .inl (h w hw), fun w hw => by
      simp [Worker.hasPanicked, Worker.stage_of_hasLeft (h w hw)]⟩
  · exact fun h w hw => (h.1 w hw).resolve_right (h.2 w hw)

theorem run_append (p : Plan) (sink : Sink σ α) (m : Machine σ) (es fs : List (Event α)) :
    m.run p sink (es ++ fs) = (m.run p sink es).run p sink fs :=
  List.foldl_append

/-- A step of a worker that moves, as an event. -/
theorem apply_step {p : Plan} {sink : Sink σ α} {m : Machine σ} {i : Nat} {w w' : Worker}
    {sh : Shared σ} (hw : m.workers[i]? = some w) (h : w.step p sink m.shared = some (w', sh)) :
    m.apply p sink (.step i) = ⟨sh, m.workers.set i w'⟩ := by
  simp [apply, hw, h]

end Machine

end Intake
