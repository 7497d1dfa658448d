import Intake.Run.State
import Intake.Service
/-!
# Reading one split

A reader hands out the batches of one split. A failure that may pass is
met by another call behind the rows handed out so far, as often as the
options allow over the whole split; any other failure, and one too many,
ends the reader with an error. Before each batch and while it waits the
reader looks whether the run goes on, and ends without an error if not.
The rows of a batch, as told beside it, are added up in 64 bits before the
batch is handed out: where the sum does not fit, the reader panics.

A reader moves in steps, between which other parts of a run may move. The
main statement: a step that yields nothing brings the reader nearer to
one that does (`effort_step_lt`), so that asking for a batch ends.
-/

namespace Intake

/-- Where a reader stands. -/
inductive ReaderStage where
  /-- about to look whether the run goes on -/
  | ready
  /-- about to ask for a batch -/
  | fetching
  /-- waiting before another call -/
  | waiting
  /-- at its end, and whether because the run stopped -/
  | done (interrupted : Bool)
  deriving DecidableEq, Repr

/-- A reader of one split. -/
structure SplitReader where
  split : SplitId
  stream : Option Stream := none
  /-- rows handed out so far, as told beside the batches -/
  rows : UInt64 := 0
  retries : Nat := 0
  stage : ReaderStage := .ready
  deriving DecidableEq, Repr

/-- What a step of a reader yields. -/
inductive Signal where
  /-- nothing yet -/
  | working
  | batch (b : Batch)
  | failed (e : Failure)
  | ended
  /-- the rows handed out can no longer be counted; nothing is handed out -/
  | panicked
  deriving DecidableEq, Repr

namespace SplitReader

/-- Whether the reader ended because the run stopped. -/
def interrupted (r : SplitReader) : Bool := r.stage == .done true

/-- Whether the next step of the reader is a call. -/
def callsNext (r : SplitReader) : Bool := r.stage == .fetching && r.stream.isNone

/-- The call that opens the next stream. -/
def call (o : ReadOptions) (r : SplitReader) : ReadCall :=
  ⟨r.split, r.rows, o.parsingThreads, o.prefetch, o.endpoint, o.attemptTimeoutMs⟩

/-- The reader at its end. -/
def finish (r : SplitReader) (interrupted : Bool) : SplitReader :=
  { r with stream := none, stage := .done interrupted }

/-- What comes of a failure: another attempt, or the end. -/
def onFailure (o : ReadOptions) (r : SplitReader) (e : TransportError) : SplitReader × Signal :=
  if e.isTransient ∧ r.retries < o.maxRetries.toNat then
    ({ r with stream := none, retries := r.retries + 1, stage := .waiting }, .working)
  else (r.finish false, .failed (.stream r.split (r.retries + 1) e))

/-- Whether the rows of a batch can be added to those handed out so far. -/
def CanCount (r : SplitReader) (b : Batch) : Prop :=
  r.rows.toNat + b.rowCount.toNat < UInt64.size

instance (r : SplitReader) (b : Batch) : Decidable (r.CanCount b) :=
  inferInstanceAs (Decidable (_ < _))

/-- The next batch of an open stream. -/
def pull (o : ReadOptions) (r : SplitReader) (s : Service) (stream : Stream) :
    SplitReader × Service × Signal :=
  match stream.next with
  | .error e =>
    let (r, signal) := r.onFailure o e
    (r, s.release, signal)
  | .ok none => (r.finish false, s.release, .ended)
  | .ok (some (b, stream)) =>
    if r.CanCount b then
      ({ r with stream := some stream, rows := r.rows + b.rowCount, stage := .ready }, s, .batch b)
    else ({ r with stream := some stream, stage := .ready }, s, .panicked)

/-- One step of a reader, in a run that goes on or has stopped. -/
def step (o : ReadOptions) (running : Bool) (r : SplitReader) (s : Service) :
    SplitReader × Service × Signal :=
  match r.stage with
  | .done _ => (r, s, .ended)
  | .ready =>
    if running then ({ r with stage := .fetching }, s, .working)
    else (r.finish true, s.releaseIf r.stream, .ended)
  | .waiting =>
    if running then ({ r with stage := .ready }, s, .working)
    else (r.finish true, s.releaseIf r.stream, .ended)
  | .fetching =>
    match r.stream with
    | some stream => r.pull o s stream
    | none =>
      match s.read (r.call o) with
      | (s, .error e) =>
        let (r, signal) := r.onFailure o e
        (r, s, signal)
      | (s, .ok stream) => r.pull o s stream

/-! ## Steps that yield nothing -/

/-- How near a stage is to a call. -/
def rank (r : SplitReader) : Nat :=
  match r.stage with
  | .waiting => 3
  | .ready => 2
  | .fetching => 1
  | .done _ => 0

/-- How many steps a reader may still take without yielding anything. -/
def effort (o : ReadOptions) (r : SplitReader) : Nat :=
  3 * (o.maxRetries.toNat - r.retries) + r.rank

theorem effort_onFailure_lt {o : ReadOptions} {r r' : SplitReader} {e : TransportError}
    (hr : r.stage = .fetching) (h : r.onFailure o e = (r', .working)) :
    r'.effort o < r.effort o := by
  unfold onFailure at h
  split at h
  · rename_i hc
    simp only [Prod.mk.injEq, and_true] at h
    subst h
    have := hc.2
    simp only [effort, rank, hr]
    omega
  · simp at h

theorem effort_pull_lt {o : ReadOptions} {r r' : SplitReader} {s s' : Service} {t : Stream}
    (hr : r.stage = .fetching) (h : r.pull o s t = (r', s', .working)) :
    r'.effort o < r.effort o := by
  unfold pull at h
  split at h
  · rename_i e _
    cases hf : r.onFailure o e with
    | mk r₁ g =>
      rw [hf] at h
      simp only [Prod.mk.injEq] at h
      obtain ⟨rfl, -, rfl⟩ := h
      exact effort_onFailure_lt hr hf
  · simp at h
  · split at h <;> simp at h

/-- **A step that yields nothing brings the reader nearer to one that
does.** -/
theorem effort_step_lt {o : ReadOptions} {running : Bool} {r r' : SplitReader} {s s' : Service}
    (h : r.step o running s = (r', s', .working)) : r'.effort o < r.effort o := by
  unfold step at h
  split at h
  · simp at h
  · rename_i hr
    split at h
    · simp only [Prod.mk.injEq, and_true] at h
      obtain ⟨rfl, -⟩ := h
      simp [effort, rank, hr]
    · simp at h
  · rename_i hr
    split at h
    · simp only [Prod.mk.injEq, and_true] at h
      obtain ⟨rfl, -⟩ := h
      simp [effort, rank, hr]
    · simp at h
  · -- a call, or the next batch of a stream
    rename_i hr
    split at h
    · exact effort_pull_lt hr h
    · split at h
      · rename_i e _
        cases hf : r.onFailure o e with
        | mk r₁ g =>
          rw [hf] at h
          simp only [Prod.mk.injEq] at h
          obtain ⟨rfl, -, rfl⟩ := h
          exact effort_onFailure_lt hr hf
      · exact effort_pull_lt hr h

/-! ## Asking for a batch -/

/-- Whether this is the moment, call number `k`, at which a run is to be
cancelled. -/
def isCall (k : Option Nat) (r : SplitReader) (s : Service) : Bool :=
  r.callsNext && k == some (s.calls.length + 1)

/-- What a reader yields, if nothing else moves, when it is asked for a
batch; the run is cancelled as call number `k` arrives. -/
def next (o : ReadOptions) (k : Option Nat) (run : RunState) (r : SplitReader) (s : Service) :
    SplitReader × Service × RunState × Signal :=
  let run := if r.isCall k s then run.cancel else run
  match _h : r.step o run.isRunning s with
  | (r', s', .working) => r'.next o k run s'
  | (r', s', g) => (r', s', run, g)
termination_by r.effort o
decreasing_by exact effort_step_lt _h

end SplitReader

end Intake
