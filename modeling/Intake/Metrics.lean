import Intake.Json.Reader
import Intake.Json.Writer
import Intake.Run.Counters
/-!
# Named metrics

A collector holds metrics by name, at most one under a name, and the
times at which a run started and ended. A counter counts modulo `2 ^ 64`;
a gauge is a single reading. To add to a counter replaces the metric of
that name by one without a description, which goes on from the count if
there was a counter and from zero otherwise. The main statements: a
metric is found under its name (`get?_register_self`) and changes none of
another name (`get?_register_of_ne`).
-/

namespace Intake

/-- What a metric measures. -/
inductive Reading where
  | counter (count : UInt64)
  | gauge (value : Binary64)
  deriving DecidableEq, Repr

/-- The value of a reading; a gauge that is not finite has none. -/
def Reading.toJson : Reading → Json
  | .counter n => .nat n.toNat
  | .gauge x => .real x

/-- A named reading. -/
structure Metric where
  name : String
  reading : Reading
  description : Option String := none
  deriving DecidableEq, Repr

namespace Metric

/-- A metric as one line of a report. -/
def line (m : Metric) : String :=
  m.name ++ ": " ++ m.reading.toJson.written ++
    match m.description with
    | none => ""
    | some d => " (" ++ d ++ ")"

/-- A metric without its name. -/
def toJson (m : Metric) : Json :=
  .record (("value", m.reading.toJson) ::
    match m.description with
    | none => []
    | some d => [("description", .str d)])

end Metric

/-- Metrics by name, and the times of a run in nanoseconds of one clock. -/
structure Collector where
  /-- the metrics, no two of one name -/
  metrics : List Metric := []
  startedAt : Option Nat := none
  endedAt : Option Nat := none
  deriving DecidableEq, Repr, Inhabited

namespace Collector

/-- The metric of a name. -/
def get? (c : Collector) (name : String) : Option Metric :=
  c.metrics.find? fun m => m.name == name

/-- A metric takes the place of the one of its name. -/
def register (c : Collector) (m : Metric) : Collector :=
  { c with metrics := (c.metrics.filter fun n => n.name != m.name) ++ [m] }

theorem get?_register_self (c : Collector) (m : Metric) :
    (c.register m).get? m.name = some m := by
  unfold get? register
  rw [List.find?_append, List.find?_eq_none.2]
  · simp
  · intro n hn
    simpa using (List.mem_filter.1 hn).2

/-- **Metrics of different names do not touch.** -/
theorem get?_register_of_ne (c : Collector) {m : Metric} {name : String} (h : name ≠ m.name) :
    (c.register m).get? name = c.get? name := by
  have hm : (m.name == name) = false := by simpa using Ne.symm h
  unfold get? register
  rw [List.find?_append, List.find?_filter]
  simp only [List.find?_cons, hm, List.find?_nil, Option.or_none]
  -- the metrics taken out have another name than the one looked for
  congr 1
  funext n
  by_cases hn : n.name = name
  · simp [hn, h]
  · simp [hn]

/-- The count of a name, zero if there is no counter of that name. -/
def count (c : Collector) (name : String) : UInt64 :=
  match (c.get? name).map Metric.reading with
  | some (.counter n) => n
  | _ => 0

/-- The counter of a name takes a value. -/
def set (c : Collector) (name : String) (n : UInt64) : Collector :=
  c.register ⟨name, .counter n, none⟩

/-- The counter of a name counts on. -/
def increment (c : Collector) (name : String) (n : UInt64) : Collector :=
  c.set name (c.count name + n)

/-- The time between start and end, zero if the end came first. -/
def elapsed (c : Collector) : Option Nat := do
  return (← c.endedAt) - (← c.startedAt)

/-! ## Reports -/

/-- The metrics in the order of their names. -/
def sorted (c : Collector) : List Metric := c.metrics.mergeSort fun a b => a.name ≤ b.name

/-- The values of all metrics. -/
def snapshot (c : Collector) : Json :=
  .record (c.sorted.map fun m => (m.name, m.reading.toJson))

/-- The entry of a report that tells how long a run took. -/
def timeEntry : String := "execution_time_ms"

/-- All metrics with their descriptions, and the time once it is known. -/
def toJson (c : Collector) : Json :=
  let entries := c.sorted.map fun m => (m.name, m.toJson)
  match c.elapsed with
  | none => .record entries
  | some t =>
    .record (entries.filter (fun e => e.1 != timeEntry) ++
      [(timeEntry, .record [("value", .nat (t / 1000000)),
        ("description", .str "Wall time of the run in milliseconds")])])

/-- The value that the saved report of a collector reads back as. -/
def saved? (c : Collector) : Option Json := Json.ofText? c.toJson.written

/-- A time in seconds with three places. -/
def seconds (t : Nat) : String :=
  let ms := (t + 500000) / 1000000
  let places := toString (ms % 1000)
  toString (ms / 1000) ++ "." ++ (if ms % 1000 < 10 then "00" else
    if ms % 1000 < 100 then "0" else "") ++ places

/-- The report of a collector, a line for each metric. -/
def text (c : Collector) : String :=
  let time :=
    match c.elapsed with
    | none => []
    | some t =>
      ["Execution Time: " ++ seconds t ++ "s (" ++ toString (t / 1000000) ++ " ms)",
        "---------------------------------------"]
  "\n".intercalate (["", "========== Ingestion Metrics =========="] ++ time ++
    c.sorted.map Metric.line ++ ["=======================================", "", ""])

/-! ## Counters of a run -/

/-- The counters of a run as metrics. -/
def ofCounters (n : Counters) : List Metric :=
  [⟨"rows_emitted", .counter n.rows, some "Records delivered to the sink"⟩,
    ⟨"batches_decoded", .counter n.batches, some "Wire batches decoded"⟩,
    ⟨"bytes_received", .counter n.bytes, some "Encoded bytes received"⟩,
    ⟨"read_retries", .counter n.retries, some "Transparent read retries"⟩,
    ⟨"splits_completed", .counter n.splits, some "Splits read to the end"⟩]

/-- The rows of a run per second of its time. -/
def rate (n : Counters) (t : Nat) : Metric :=
  ⟨"rows_per_second",
    .gauge (Binary64.ofFloat (n.rows.toFloat / (Float.ofNat t / 1000000000))),
    some "Sink throughput"⟩

/-- The collector with the counters of a run, and their rate when the run
took some time. -/
def addCounters (c : Collector) (n : Counters) : Collector :=
  let c := (ofCounters n).foldl register c
  match c.elapsed with
  | none | some 0 => c
  | some t => c.register (rate n t)

end Collector

end Intake
