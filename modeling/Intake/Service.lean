import Intake.Codec
import Intake.Config.Options
/-!
# A scripted read service

The service that batches are read from, told in advance: the batches of
each split in wire order and, for each split, a queue of faults, one for
each call. A call asks for the batches of a split behind an offset in
rows, which has to fall between two batches, and opens a stream of them.
The service keeps every call and counts the streams it opened and those
that were given back.
-/

namespace Intake

/-- One call that opens a stream. -/
structure ReadCall where
  split : SplitId
  /-- the rows already received, behind which the stream starts -/
  offset : UInt64
  parsingThreads : UInt64
  prefetch : UInt64
  endpoint : Option String
  timeoutMs : Option UInt64
  deriving DecidableEq, Repr

/-- What is to go wrong with one call. -/
inductive Fault where
  /-- no stream is opened -/
  | onOpen (kind : TransportKind)
  /-- the stream fails behind so many batches -/
  | afterBatches (batches : Nat) (kind : TransportKind)
  deriving DecidableEq, Repr

/-! ## Streams -/

/-- An open stream. -/
structure Stream where
  split : SplitId
  /-- the batches still to come -/
  remaining : List Batch
  delivered : Nat
  /-- after how many batches the stream fails, and how -/
  failAfter : Option (Nat × TransportKind)
  deriving DecidableEq, Repr

/-- The next batch of a stream, `none` at its end. -/
def Stream.next (s : Stream) : Except TransportError (Option (Batch × Stream)) :=
  match s.failAfter.filter fun f => s.delivered == f.1 with
  | some (after, kind) => .error ⟨kind, .streamFault s.split after, none⟩
  | none =>
    match s.remaining with
    | [] => .ok none
    | b :: bs => .ok (some (b, { s with remaining := bs, delivered := s.delivered + 1 }))

/-- Batches without those in front that make up the rows before `offset`,
of which `skipped` are accounted for; and the rows skipped in the end. -/
def skipRows (offset : UInt64) : UInt64 → List Batch → UInt64 × List Batch
  | skipped, [] => (skipped, [])
  | skipped, b :: bs =>
    if skipped < offset then skipRows offset (skipped + b.rowCount) bs else (skipped, b :: bs)

theorem length_skipRows (offset skipped : UInt64) (bs : List Batch) :
    (skipRows offset skipped bs).2.length ≤ bs.length := by
  induction bs generalizing skipped with
  | nil => simp [skipRows]
  | cons b bs ih =>
    rw [skipRows]
    split
    · exact Nat.le_succ_of_le (ih _)
    · exact Nat.le_refl _

/-! ## The service -/

/-- A scripted read service. -/
structure Service where
  scripts : List (SplitId × List Batch) := []
  faults : List (SplitId × List Fault) := []
  /-- the calls received, in order -/
  calls : List ReadCall := []
  opened : Nat := 0
  released : Nat := 0
  deriving Inhabited

namespace Service

/-- The batches of a split. -/
def script? (s : Service) (split : SplitId) : Option (List Batch) := s.scripts.lookup split

/-- The faults queued for a split. -/
def faultsOf (s : Service) (split : SplitId) : List Fault := (s.faults.lookup split).getD []

/-- The service with other batches for a split. -/
def addSplit (s : Service) (split : SplitId) (batches : List Batch) : Service :=
  { s with scripts := (split, batches) :: s.scripts.filter fun e => e.1 != split }

/-- The service with other faults for a split. -/
def setFaults (s : Service) (split : SplitId) (faults : List Fault) : Service :=
  { s with faults := (split, faults) :: s.faults.filter fun e => e.1 != split }

/-- The service with one more fault at the end of the queue of a split. -/
def inject (s : Service) (split : SplitId) (fault : Fault) : Service :=
  s.setFaults split (s.faultsOf split ++ [fault])

/-- Whether a call was ever made for a split. -/
def wasCalled (s : Service) (split : SplitId) : Bool := s.calls.any fun c => c.split == split

/-- The streams that were opened and not given back, as two looks count
them: one at `s` for those opened, and one at what the service is later for
those given back. It is `none` when the subtraction underflows. -/
def live? (s later : Service) : Option Nat :=
  if later.released ≤ s.opened then some (s.opened - later.released) else none

/-- A stream is given back. -/
def release (s : Service) : Service := { s with released := s.released + 1 }

/-- A stream, if there is one, is given back. -/
def releaseIf (s : Service) (stream : Option Stream) : Service :=
  if stream.isSome then s.release else s

/-- The service once a call has been noted and the first fault of its split
is off the queue. -/
def note (s : Service) (c : ReadCall) : Service :=
  let noted := { s with calls := s.calls ++ [c] }
  match s.faultsOf c.split with
  | [] => noted
  | _ :: rest => noted.setFaults c.split rest

/-- The stream that a call opens, given the fault it meets. -/
def streamFor (s : Service) (c : ReadCall) : Option Fault → Except TransportError Stream
  | some (.onOpen kind) => .error ⟨kind, .openFault c.split, none⟩
  | fault =>
    match s.script? c.split with
    | none => .error ⟨.notFound, .unknownSplit c.split, none⟩
    | some batches =>
      let (skipped, remaining) := skipRows c.offset 0 batches
      if skipped ≠ c.offset then
        .error ⟨.invalidArgument, .offBoundary c.offset c.split, none⟩
      else
        let failAfter :=
          match fault with
          | some (.afterBatches n kind) => some (n, kind)
          | _ => none
        .ok ⟨c.split, remaining, 0, failAfter⟩

/-- A call: it is noted and uses up one fault of its split whatever comes
of it. -/
def read (s : Service) (c : ReadCall) : Service × Except TransportError Stream :=
  let fault := (s.faultsOf c.split).head?
  match s.streamFor c fault with
  | .error e => (s.note c, .error e)
  | .ok stream => ({ s.note c with opened := s.opened + 1 }, .ok stream)

@[simp] theorem scripts_setFaults (s : Service) (split : SplitId) (fs : List Fault) :
    (s.setFaults split fs).scripts = s.scripts := rfl

@[simp] theorem scripts_note (s : Service) (c : ReadCall) : (s.note c).scripts = s.scripts := by
  unfold note
  split <;> rfl

@[simp] theorem scripts_read (s : Service) (c : ReadCall) :
    (s.read c).1.scripts = s.scripts := by
  unfold read
  dsimp only
  split <;> simp

@[simp] theorem scripts_releaseIf (s : Service) (stream : Option Stream) :
    (s.releaseIf stream).scripts = s.scripts := by
  unfold releaseIf
  split <;> rfl

end Service

end Intake
