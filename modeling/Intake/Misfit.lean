/-!
# Settings that cannot be run

Why a request, a session or an engine setting is refused before any
split is read, and how each reason is put into words.
-/

namespace Intake

/-- Why settings are refused. -/
inductive Misfit where
  | noWorkers
  | noCapacity
  | unnamedSplit
  | repeatedSplit (name : String)
  | emptySchema
  | unnamedField
  | repeatedField (name : String)
  | requestedTwice (name : String)
  | noUniqueMatch (name : String) (known : List String)
  /-- a part of a table's name is blank -/
  | blankTablePart (table : String)
  /-- a table's name has not two or three parts -/
  | tableParts (table : String)
  | tableAndQuery
  | missingOptions (names : List String)
  | parallelismAbove (parallelism limit : Nat)
  | otherFormat (negotiated requested : String)
  /-- the text of a request is not JSON of the right form -/
  | malformedRequest
  /-- a field's name is not one of the row format -/
  | notAvro
  /-- a reason given in words -/
  | told (reason : String)
  deriving DecidableEq, Repr

namespace Misfit

/-- The reason in words. What a reader of JSON or of a row schema says
itself is left out, a star in its place. -/
def reason : Misfit → String
  | .noWorkers => "parallelism must be at least 1"
  | .noCapacity => "channel capacity must be at least 1"
  | .unnamedSplit => "split names must not be empty"
  | .repeatedSplit name => "split `" ++ name ++ "` listed twice"
  | .emptySchema => "wire schema has no fields"
  | .unnamedField => "wire schema has an unnamed field"
  | .repeatedField name => "wire schema declares field `" ++ name ++ "` more than once"
  | .requestedTwice name => "field `" ++ name ++ "` is requested more than once"
  | .noUniqueMatch name known =>
    "requested field `" ++ name ++ "` has no unique match in the wire schema [" ++
      ", ".intercalate known ++ "]"
  | .blankTablePart table => "invalid table `" ++ table ++ "`"
  | .tableParts table =>
    "invalid table `" ++ table ++ "`, expected [project.]dataset.table"
  | .tableAndQuery => "`table` and `query` are mutually exclusive"
  | .missingOptions names => "missing required options: " ++ ", ".intercalate names
  | .parallelismAbove parallelism limit =>
    "parallelism " ++ toString parallelism ++ " exceeds maxParallelism " ++ toString limit
  | .otherFormat negotiated requested =>
    "session negotiated " ++ negotiated ++ " but the request asked for " ++ requested
  | .malformedRequest => "malformed read request: *"
  | .notAvro => "wire schema is not valid avro: *"
  | .told reason => reason

end Misfit

end Intake
