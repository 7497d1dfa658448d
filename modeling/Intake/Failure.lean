import Intake.Misfit
import Intake.Schema
import Intake.Split
/-!
# Failures

What can go wrong while splits are read: the transport of batches, the
decoding of one, and the failures of a run that these lead to. A failure
is kept as its cause; the words for it come from one function each. What
a reader of a wire format says itself is left out of the words, a star in
its place.
-/

namespace Intake

/-! ## Transport -/

/-- The kind of a transport failure. -/
inductive TransportKind where
  | network
  | timeout
  | serviceUnavailable
  | rateLimited
  | aborted
  | notFound
  | permissionDenied
  | invalidArgument
  | internal
  | other
  deriving DecidableEq, Repr, Inhabited

namespace TransportKind

def title : TransportKind → String
  | .network => "Network"
  | .timeout => "Timeout"
  | .serviceUnavailable => "ServiceUnavailable"
  | .rateLimited => "RateLimited"
  | .aborted => "Aborted"
  | .notFound => "NotFound"
  | .permissionDenied => "PermissionDenied"
  | .invalidArgument => "InvalidArgument"
  | .internal => "Internal"
  | .other => "Other"

def all : List TransportKind :=
  [.network, .timeout, .serviceUnavailable, .rateLimited, .aborted, .notFound,
    .permissionDenied, .invalidArgument, .internal, .other]

def ofTitle? (s : String) : Option TransportKind := all.find? fun k => k.title == s

/-- Whether a read that failed so may be tried again from where it stopped. -/
def isTransient : TransportKind → Bool
  | .network | .timeout | .serviceUnavailable | .rateLimited | .aborted => true
  | _ => false

end TransportKind

/-- Why a call to the read service failed. -/
inductive TransportCause where
  /-- a fault queued for the opening of a stream -/
  | openFault (split : SplitId)
  /-- a fault queued for a stream, met after `delivered` batches -/
  | streamFault (split : SplitId) (delivered : Nat)
  | unknownSplit (split : SplitId)
  /-- an offset inside a batch, or behind the last -/
  | offBoundary (offset : UInt64) (split : SplitId)
  /-- a cause given in words -/
  | told (text : String)
  deriving DecidableEq, Repr

def TransportCause.text : TransportCause → String
  | .openFault s => "injected open failure on " ++ s.name
  | .streamFault s n =>
    "injected stream failure on " ++ s.name ++ " after " ++ toString n ++ " batch(es)"
  | .unknownSplit s => "no such read stream: " ++ s.name
  | .offBoundary offset s =>
    "offset " ++ toString offset.toNat ++ " does not fall on a batch boundary of " ++ s.name
  | .told text => text

/-- A failed call to the read service. -/
structure TransportError where
  kind : TransportKind
  cause : TransportCause
  /-- what lay behind the failure, in words -/
  source : Option String := none
  deriving DecidableEq, Repr

namespace TransportError

def isTransient (e : TransportError) : Bool := e.kind.isTransient

def message (e : TransportError) : String :=
  e.kind.title ++ ": " ++ e.cause.text ++
    match e.source with
    | none => ""
    | some s => " (" ++ s ++ ")"

end TransportError

/-! ## Decoding -/

/-- Why a row of a row batch cannot be made a record. -/
inductive RowFault where
  /-- the bytes are no row of the schema -/
  | malformed
  /-- the layout refers to a field that the row does not have -/
  | noSuchColumn (index : Nat)
  | projectedTwice (field : String)
  | nullRequired (field : String)
  /-- the row holds a value of another type, which is shown -/
  | otherType (field : String) (declared : FieldType) (carried : String)
  deriving DecidableEq, Repr

def RowFault.message : RowFault → String
  | .malformed => "*"
  | .noSuchColumn index => "column " ++ toString index ++ " is not on the wire"
  | .projectedTwice field => "field `" ++ field ++ "` projected twice"
  | .nullRequired field => "null in required field `" ++ field ++ "`"
  | .otherType field declared carried =>
    "field `" ++ field ++ "` is declared " ++ declared.title ++ " but the row carries " ++ carried

/-- Why a batch cannot be decoded. -/
inductive DecodeCause where
  | otherFormat (got expected : WireFormat)
  /-- the batch declares another number of rows than it holds -/
  | rowCount (declared : UInt64) (decoded : Nat)
  /-- a row batch ends before its last declared row -/
  | rowsMissing (declared : UInt64) (found : Nat)
  | trailingBytes (count : Nat) (declared : UInt64)
  | row (index : Nat) (fault : RowFault)
  | emptyStream
  /-- bytes behind the mark that ends a stream -/
  | bytesAfterEnd (count : Nat)
  | cutMarker
  | metadataLength (message declared remaining : Nat)
  | invalidMessage (message : Nat)
  | bodyLength (message : Nat) (declared : Int) (remaining : Nat)
  | compressed
  | implausibleRows (message body : Nat)
  /-- a message of a kind that no stream of batches has -/
  | unsupported (kind : String)
  | corruptBlock (block : Nat)
  | corruptMetadata
  | cutStream
  | noSchema
  | otherFields (carried expected : List String)
  /-- a column holds values of another type, which is named -/
  | otherType (field : String) (declared : FieldType) (carried : String)
  | nullRequired (field : String) (row : Nat)
  /-- a cause given in words -/
  | told (text : String)
  deriving DecidableEq, Repr

def DecodeCause.message : DecodeCause → String
  | .otherFormat got expected =>
    "received a " ++ got.name ++ " batch on a " ++ expected.name ++ " session"
  | .rowCount declared decoded =>
    "batch declares " ++ toString declared.toNat ++ " rows but decodes to " ++ toString decoded
  | .rowsMissing declared found =>
    "batch declares " ++ toString declared.toNat ++ " rows but ends after " ++ toString found
  | .trailingBytes count declared =>
    toString count ++ " trailing byte(s) after " ++ toString declared.toNat ++ " rows"
  | .row index fault => "row " ++ toString index ++ ": " ++ fault.message
  | .emptyStream => "empty arrow batch"
  | .bytesAfterEnd count => toString count ++ " bytes follow the end of the arrow stream"
  | .cutMarker => "truncated arrow message prefix"
  | .metadataLength message declared remaining =>
    "arrow message " ++ toString message ++ " declares " ++ toString declared ++
      " metadata bytes, " ++ toString remaining ++ " remain"
  | .invalidMessage message => "invalid arrow message " ++ toString message ++ ": *"
  | .bodyLength message declared remaining =>
    "arrow message " ++ toString message ++ " declares a body of " ++ toString declared ++
      " bytes, " ++ toString remaining ++ " remain"
  | .compressed => "compressed arrow batches are not supported"
  | .implausibleRows message body =>
    "arrow message " ++ toString message ++ " claims more rows than its " ++ toString body ++
      " byte body holds"
  | .unsupported kind => "unsupported arrow message " ++ kind
  | .corruptBlock block => "corrupt arrow block " ++ toString block ++ ": *"
  | .corruptMetadata => "corrupt arrow stream metadata"
  | .cutStream => "truncated arrow stream: *"
  | .noSchema => "arrow stream carries no schema message"
  | .otherFields carried expected =>
    "arrow batch fields [" ++ ", ".intercalate carried ++
      "] do not match the wire schema [" ++ ", ".intercalate expected ++ "]"
  | .otherType field declared carried =>
    "field `" ++ field ++ "` is declared " ++ declared.title ++ " but the batch carries " ++
      carried
  | .nullRequired field index =>
    "null in required field `" ++ field ++ "` at row " ++ toString index
  | .told text => text

/-- A batch that cannot be decoded, with the place in its bytes when the
format tells one. -/
structure DecodeError where
  cause : DecodeCause
  offset : Option Nat := none
  deriving DecidableEq, Repr

/-- The message of a decode error with its place. -/
def DecodeError.shown (e : DecodeError) : String :=
  e.cause.message ++
    match e.offset with
    | none => ""
    | some offset => " (at byte " ++ toString offset ++ ")"

/-! ## Runs -/

/-- The step of reading a split that failed. -/
inductive Phase where
  | read
  | decode
  deriving DecidableEq, Repr

def Phase.name : Phase → String
  | .read => "read"
  | .decode => "decode"

/-- Why a run cannot be opened, or failed. -/
inductive Failure where
  | configuration (misfit : Misfit)
  /-- reading a split failed for good after so many attempts -/
  | stream (split : SplitId) (attempts : Nat) (source : TransportError)
  /-- a batch of a split, counted from zero, cannot be decoded -/
  | decode (split : SplitId) (batch : Nat) (source : DecodeError)
  /-- the run could not be started in the background -/
  | thread (text : String)
  deriving DecidableEq, Repr

namespace Failure

def message : Failure → String
  | .configuration misfit => "invalid configuration: " ++ misfit.reason
  | .stream split attempts source =>
    "stream failure on split " ++ split.name ++ " after " ++ toString attempts ++
      " attempt(s): " ++ source.message
  | .decode split batch source =>
    "decode failure on split " ++ split.name ++ ", batch " ++ toString batch ++ ": " ++
      source.shown
  | .thread text => "failed to start engine thread: " ++ text

/-- The split a failure is tied to. -/
def split? : Failure → Option SplitId
  | .stream split .. | .decode split .. => some split
  | _ => none

def phase? : Failure → Option Phase
  | .stream .. => some .read
  | .decode .. => some .decode
  | _ => none

def isConfiguration : Failure → Bool
  | .configuration _ => true
  | _ => false

end Failure

end Intake
