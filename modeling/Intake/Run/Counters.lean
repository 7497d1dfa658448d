import Intake.Json.Basic
/-!
# Counters of a run

What all workers of a run have got through so far. The counters count
modulo `2 ^ 64`.
-/

namespace Intake

/-- Counters shared by the workers of a run. -/
structure Counters where
  rows : UInt64 := 0
  batches : UInt64 := 0
  bytes : UInt64 := 0
  retries : UInt64 := 0
  splits : UInt64 := 0
  deriving DecidableEq, Repr, Inhabited

namespace Counters

/-- One more batch, of so many rows and bytes. -/
def addBatch (c : Counters) (rows bytes : UInt64) : Counters :=
  { c with batches := c.batches + 1, rows := c.rows + rows, bytes := c.bytes + bytes }

def addRetries (c : Counters) (n : UInt64) : Counters := { c with retries := c.retries + n }

/-- One more split read to its end. -/
def addSplit (c : Counters) : Counters := { c with splits := c.splits + 1 }

end Counters

end Intake
