import Intake.Ingestion
import Intake.Metrics
import Intake.Config.Request
import Intake.Run.Consumer
import Intake.Sample
import Intake.Proofs.Delivery
import Intake.Proofs.Progress
import Intake.Proofs.Transparency
import Intake.Proofs.Layouts
import Intake.Proofs.Rows.RoundTrip
import Intake.Proofs.Rows.Truncation
import Intake.Proofs.Rows.Batches
import Intake.Proofs.Rows.Composition
import Intake.Proofs.Columns.Cells
import Intake.Proofs.Columns.Tables
import Intake.Proofs.Columns.Messages
import Intake.Proofs.Columns.Blocks
import Intake.Proofs.Columns.RoundTrip
import Intake.Proofs.Columns.Values
import Intake.Proofs.Columns.Reading
import Intake.Proofs.Columns.Truncation
import Intake.Proofs.Columns.Places
import Intake.Proofs.Columns.Framing
import Intake.Proofs.Columns.FlatStreams
import Intake.Proofs.Conformance
import Intake.Proofs.Expansion
import Intake.Proofs.Formats
import Intake.Proofs.Boundaries
import Intake.Proofs.Resumption
import Intake.Proofs.Tallies
import Intake.Proofs.Offsets
import Intake.Proofs.RowsCounted
import Intake.Proofs.Cancellation
import Intake.Proofs.RowCounts
import Intake.Proofs.Budget
import Intake.Proofs.Outcomes
import Intake.Proofs.FirstFailure
import Intake.Proofs.Alone
import Intake.Proofs.Contiguity
import Intake.Proofs.Parallelism
import Intake.Proofs.Requests
import Intake.Proofs.Projections
import Intake.Proofs.Streams
import Intake.Proofs.Agreement
import Intake.Proofs.Dealing
import Intake.Proofs.Opening
import Intake.Proofs.Resolving
import Intake.Proofs.Spellings
import Intake.Proofs.Doubles
import Intake.Proofs.Respelling
import Intake.Proofs.Rereading
import Intake.Proofs.Sending
import Intake.Proofs.Draining
import Intake.Proofs.Serving
import Intake.Proofs.TableNames
import Intake.Proofs.Collecting
