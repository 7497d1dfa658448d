import Intake.Run.Machine
/-!
# Outcomes

How a run that is over is reported. A cancelled run and one that was
completed come with a summary, the reports of its workers in the order
of their numbers; a failed run comes with the failure that a worker left
with first. Whether a run was cancelled is asked of its state, so that
a failure behind a cancellation is not reported. A run in which a worker
panicked panics itself when all are gone, and has no outcome.
-/

namespace Intake

/-- Where a run stands in its life. -/
inductive Lifecycle where
  | idle
  | opened
  | running
  | completed
  | failed
  | cancelled
  deriving DecidableEq, Repr

namespace Lifecycle

def name : Lifecycle → String
  | .idle => "idle"
  | .opened => "opened"
  | .running => "running"
  | .completed => "completed"
  | .failed => "failed"
  | .cancelled => "cancelled"

/-- Every stage of a life, in order. -/
def all : List Lifecycle := [.idle, .opened, .running, .completed, .failed, .cancelled]

def isTerminal : Lifecycle → Bool
  | .completed | .failed | .cancelled => true
  | _ => false

end Lifecycle

/-- What the workers of a run got through. -/
structure Summary where
  /-- a report for each worker, in the order of the workers -/
  workers : List Report
  deriving DecidableEq, Repr

namespace Summary

/-- What a count comes to over reports. -/
def total (count : Report → Nat) : List Report → Nat
  | [] => 0
  | r :: rs => count r + total count rs

def records (s : Summary) : Nat := total Report.records s.workers

def batches (s : Summary) : Nat := total Report.batches s.workers

def splits (s : Summary) : Nat := total Report.splits s.workers

def retries (s : Summary) : Nat := total Report.retries s.workers

/-- The summary of reports that came in in any order. -/
def ofReports (reports : List Report) : Summary :=
  ⟨reports.mergeSort fun a b => a.worker ≤ b.worker⟩

end Summary

/-- How a run ended. -/
inductive Outcome where
  | completed (summary : Summary)
  | failed (failure : Failure)
  | cancelled (summary : Summary)
  deriving DecidableEq, Repr

namespace Outcome

def lifecycle : Outcome → Lifecycle
  | .completed _ => .completed
  | .failed _ => .failed
  | .cancelled _ => .cancelled

/-- The summary of a run that did not fail, or the failure. -/
def result : Outcome → Except Failure Summary
  | .completed summary | .cancelled summary => .ok summary
  | .failed failure => .error failure

end Outcome

variable {σ : Type}

namespace Shared

/-- The reports of the workers that left without a failure, as they left. -/
def reports (sh : Shared σ) : List Report := sh.results.filterMap fun r => r.2.toOption

/-- The failure that a worker left with first. -/
def failure? (sh : Shared σ) : Option Failure :=
  sh.results.findSome? fun r =>
    match r.2 with
    | .error e => some e
    | .ok _ => none

/-- How a run that is over ended. -/
def conclude (sh : Shared σ) : Outcome :=
  let summary := Summary.ofReports sh.reports
  if sh.run.wasCancelled then .cancelled summary
  else
    match sh.failure? with
    | some e => .failed e
    | none => .completed summary

end Shared

/-- How a run ended, `none` while a worker has not left, which one that
panicked never does. -/
def Machine.outcome? (m : Machine σ) : Option Outcome :=
  if m.allLeft then some m.shared.conclude else none

end Intake
