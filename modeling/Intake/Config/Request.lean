import Intake.Config.Options
import Intake.Json.Reader
import Intake.Session
/-!
# Read requests

A request says what to read, a table or the result of a query, with which
fields and how. It is read from JSON, has to be consistent in itself, and
yields the settings of a run. A session that was negotiated for it is
checked against it before the run opens.
-/

namespace Intake

/-! ## Tables -/

/-- The name of a table, `[project.]dataset.table`. -/
structure TableId where
  project : Option String
  dataset : String
  table : String
  deriving DecidableEq, Repr

namespace TableId

/-- A table's name has two or three parts between dots, none of them blank. -/
def parse (name : String) : Except Misfit TableId :=
  let parts := Text.pieces '.' name
  if parts.any Text.isBlankText then .error (.blankTablePart name)
  else
    match parts with
    | [dataset, table] => .ok ⟨none, dataset, table⟩
    | [project, dataset, table] => .ok ⟨some project, dataset, table⟩
    | _ => .error (.tableParts name)

end TableId

/-! ## Requests -/

/-- What to read and how. -/
structure ReadRequest where
  parentProject : Option String := none
  table : Option String := none
  query : Option String := none
  /-- a row filter, passed on untouched -/
  filter : Option String := none
  selectedFields : List String := []
  parallelism : UInt64 := 1
  maxParallelism : Option UInt64 := none
  materializationProject : Option String := none
  materializationDataset : Option String := none
  /-- where credentials are kept -/
  credentialsFile : Option String := none
  format : WireFormat := .arrow
  channelCapacity : UInt64 := 1024
  read : ReadOptions := {}
  deriving DecidableEq, Repr, Inhabited

namespace ReadRequest

/-- Selected fields are given as one text with commas or as an array; the
items are trimmed, and those with nothing left are dropped. -/
def fieldList? (j : Json) : Option (List String) := do
  let items ←
    match j with
    | .text s => (Text.pieces ',') <$> s
    | j => j.list? Json.text?
  return (items.map Text.trim).filter fun s => s ≠ ""

/-- The names of the fields of a request in a JSON text. -/
def keys : List String :=
  ["parentProject", "table", "query", "filter", "selectedFields", "parallelism",
    "maxParallelism", "materializationProject", "materializationDataset", "credentialsFile",
    "format", "channelCapacity", "read"]

def toJson (r : ReadRequest) : Json :=
  let text := Json.ofOption Json.str
  .record [("parentProject", text r.parentProject), ("table", text r.table),
    ("query", text r.query), ("filter", text r.filter),
    ("selectedFields", .array (r.selectedFields.map .str)),
    ("parallelism", .nat r.parallelism.toNat),
    ("maxParallelism", .ofOption (fun n => .nat n.toNat) r.maxParallelism),
    ("materializationProject", text r.materializationProject),
    ("materializationDataset", text r.materializationDataset),
    ("credentialsFile", text r.credentialsFile), ("format", r.format.toJson),
    ("channelCapacity", .nat r.channelCapacity.toNat), ("read", r.read.toJson)]

def ofJson? (j : Json) : Option ReadRequest := do
  let d : ReadRequest := {}
  let text := Json.fieldOr none (Json.optional? Json.text?)
  match ← j.fields? keys with
  | [parent, table, query, filter, selected, parallelism, limit, project, dataset, credentials,
      format, capacity, read] =>
    return ⟨← text parent, ← text table, ← text query, ← text filter,
      ← Json.fieldOr d.selectedFields fieldList? selected,
      ← Json.fieldOr d.parallelism Json.uint64? parallelism,
      ← Json.fieldOr d.maxParallelism (Json.optional? Json.uint64?) limit,
      ← text project, ← text dataset, ← text credentials,
      ← Json.fieldOr d.format WireFormat.ofJson? format,
      ← Json.fieldOr d.channelCapacity Json.uint64? capacity,
      ← Json.fieldOr d.read ReadOptions.ofJson? read⟩
  | _ => none

/-! ## Consistency -/

/-- The options a request lacks: a table read needs fields, a query read
needs a project and a dataset to put its result in. -/
def missing (r : ReadRequest) : Except Misfit (List String) :=
  match r.table, r.query with
  | some _, some _ => .error .tableAndQuery
  | none, none => .ok ["table or query"]
  | some table, none =>
    (TableId.parse table).map fun _ => if r.selectedFields.isEmpty then ["selectedFields"] else []
  | none, some _ =>
    .ok ((if r.materializationProject.isNone then ["materializationProject"] else []) ++
      if r.materializationDataset.isNone then ["materializationDataset"] else [])

/-- A request asks for one thing, lacks nothing that thing needs, and keeps
the number of workers between one and its own limit. -/
def validate (r : ReadRequest) : Except Misfit Unit := do
  let missing ← r.missing
  if !missing.isEmpty then .error (.missingOptions missing)
  else if r.parallelism = 0 then .error .noWorkers
  else
    match r.maxParallelism with
    | none => .ok ()
    | some limit =>
      if limit < r.parallelism then
        .error (.parallelismAbove r.parallelism.toNat limit.toNat)
      else .ok ()

/-- The request that a JSON text spells, once it is consistent. -/
def ofText (s : String) : Except Misfit ReadRequest := do
  match (Json.ofText? s).bind ofJson? with
  | none => .error .malformedRequest
  | some r =>
    r.validate
    return r

/-- The table a request reads. -/
def tableId? (r : ReadRequest) : Option TableId :=
  match r.table.map TableId.parse with
  | some (.ok t) => some t
  | _ => none

/-- The settings of a run for a request. -/
def engineConfig (r : ReadRequest) : EngineConfig :=
  ⟨r.parallelism, r.channelCapacity, r.read⟩

/-- A session fits a request when it has the format asked for, and splits
and a schema that can be run. -/
def verifySession (r : ReadRequest) (s : Session) : Except Misfit Unit := do
  if s.format ≠ r.format then .error (.otherFormat s.format.name r.format.name)
  else
    Session.validateSplits s.splits
    s.schema.validate

/-! ## Files -/

/-- Why a file yields no request: its text cannot be had, or is refused. -/
inductive LoadError where
  | unreadable
  | refused (cause : Misfit)
  deriving DecidableEq, Repr

/-- What was being done to the file at `path`. -/
def LoadError.context (path : String) : LoadError → String
  | .unreadable => "read " ++ path
  | .refused _ => "parse read request " ++ path

/-- The request in a file, given by its bytes, `none` for a missing file. -/
def load (content : Option ByteArray) : Except LoadError ReadRequest :=
  match content.bind String.fromUTF8? with
  | none => .error .unreadable
  | some text => (ofText text).mapError .refused

end ReadRequest

end Intake
