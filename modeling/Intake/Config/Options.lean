import Intake.Config.Backoff
import Intake.Misfit
/-!
# Settings of a run

How one split is read: the retries allowed, the bound on a single call
and the hints that are passed on with it. How a run is set up: the number
of its workers, the capacity of its channel and the read options.
-/

namespace Intake

/-- How one split is read. -/
structure ReadOptions where
  /-- retries allowed on one split after the first attempt -/
  maxRetries : UInt32 := 5
  /-- the bound on a single call, in milliseconds -/
  attemptTimeoutMs : Option UInt64 := none
  parsingThreads : UInt64 := 5
  prefetch : UInt64 := 1
  endpoint : Option String := none
  backoff : Backoff := {}
  deriving DecidableEq, Repr, Inhabited

namespace ReadOptions

def toJson (o : ReadOptions) : Json :=
  .record [("maxReadRowsRetries", .nat o.maxRetries.toNat),
    ("attemptTimeoutMs", .ofOption (fun t => .nat t.toNat) o.attemptTimeoutMs),
    ("backgroundParsingThreads", .nat o.parsingThreads.toNat),
    ("prefetchResponses", .nat o.prefetch.toNat), ("endpoint", .ofOption .str o.endpoint),
    ("backoff", o.backoff.toJson)]

def ofJson? (j : Json) : Option ReadOptions := do
  let d : ReadOptions := {}
  match ← j.fields? ["maxReadRowsRetries", "attemptTimeoutMs", "backgroundParsingThreads",
    "prefetchResponses", "endpoint", "backoff"] with
  | [retries, timeout, threads, prefetch, endpoint, backoff] =>
    return ⟨← Json.fieldOr d.maxRetries Json.uint32? retries,
      ← Json.fieldOr d.attemptTimeoutMs (Json.optional? Json.uint64?) timeout,
      ← Json.fieldOr d.parsingThreads Json.uint64? threads,
      ← Json.fieldOr d.prefetch Json.uint64? prefetch,
      ← Json.fieldOr d.endpoint (Json.optional? Json.text?) endpoint,
      ← Json.fieldOr d.backoff Backoff.ofJson? backoff⟩
  | _ => none

/-- The options with a bound on a single call, given in microseconds and
cut to whole milliseconds. -/
def withAttemptTimeout (o : ReadOptions) (micros : Nat) : ReadOptions :=
  { o with attemptTimeoutMs := some (UInt64.ofNat (min (micros / 1000) (UInt64.size - 1))) }

end ReadOptions

/-- How a run is set up. -/
structure EngineConfig where
  /-- the number of workers -/
  parallelism : UInt64 := 1
  /-- how many records the channel of a streaming run holds -/
  channelCapacity : UInt64 := 1024
  read : ReadOptions := {}
  deriving DecidableEq, Repr, Inhabited

namespace EngineConfig

/-- A run needs a worker and room for a record. -/
def validate (c : EngineConfig) : Except Misfit Unit :=
  if c.parallelism = 0 then .error .noWorkers
  else if c.channelCapacity = 0 then .error .noCapacity
  else .ok ()

def toJson (c : EngineConfig) : Json :=
  .record [("parallelism", .nat c.parallelism.toNat),
    ("channelCapacity", .nat c.channelCapacity.toNat), ("read", c.read.toJson)]

def ofJson? (j : Json) : Option EngineConfig := do
  let d : EngineConfig := {}
  match ← j.fields? ["parallelism", "channelCapacity", "read"] with
  | [parallelism, capacity, read] =>
    return ⟨← Json.fieldOr d.parallelism Json.uint64? parallelism,
      ← Json.fieldOr d.channelCapacity Json.uint64? capacity,
      ← Json.fieldOr d.read ReadOptions.ofJson? read⟩
  | _ => none

end EngineConfig

end Intake
