/-!
# Whether a run goes on

A run leaves the running state once, by a failure or by a cancellation,
and the first of them decides how it is reported
(`stop_of_not_isRunning`).
-/

namespace Intake

/-- Whether a run goes on, and what stopped it. -/
inductive RunState where
  | running
  | failed
  | cancelled
  deriving DecidableEq, Repr, Inhabited

namespace RunState

def isRunning (s : RunState) : Bool := s == .running

def wasCancelled (s : RunState) : Bool := s == .cancelled

/-- A running run is stopped; one that is stopped stays as it is. -/
def stop (cause : RunState) : RunState → RunState
  | .running => cause
  | s => s

/-- **Only the first stop counts.** -/
theorem stop_of_not_isRunning {cause s : RunState} (h : s.isRunning = false) :
    stop cause s = s := by
  cases s <;> simp_all [isRunning, stop]

/-- What a call that is to stop a run answers, which is whether it is the
one that did, and the state it leaves. -/
def transition (cause : RunState) : RunState → Bool × RunState
  | .running => (true, cause)
  | s => (false, s)

theorem transition_eq (cause s : RunState) : transition cause s = (s.isRunning, stop cause s) := by
  cases s <;> rfl

/-- The state after a failure. -/
def fail : RunState → RunState := stop .failed

/-- The state after a request to cancel. -/
def cancel : RunState → RunState := stop .cancelled

end RunState

end Intake
