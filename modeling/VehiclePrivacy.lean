import VehiclePrivacy.Main
import VehiclePrivacy.Sample.Installation
import VehiclePrivacy.Sample.Message
import VehiclePrivacy.Proofs.Json.Hearing
import VehiclePrivacy.Proofs.Json.Reading
import VehiclePrivacy.Proofs.Screening.Sightings
import VehiclePrivacy.Proofs.Json.Edits
import VehiclePrivacy.Proofs.Json.Stripping
import VehiclePrivacy.Proofs.Screening.Knowledge
import VehiclePrivacy.Proofs.Redaction.Rules
import VehiclePrivacy.Proofs.Screening.Review
import VehiclePrivacy.Proofs.Sanitizer.Receipt
import VehiclePrivacy.Proofs.Binary64.Rounding
import VehiclePrivacy.Proofs.Binary64.Value
import VehiclePrivacy.Proofs.Binary64.Arithmetic
import VehiclePrivacy.Proofs.Geo.Quarters
import VehiclePrivacy.Proofs.Geofence.Growth
import VehiclePrivacy.Proofs.Geofence.Scan
import VehiclePrivacy.Proofs.Json.Grammar
import VehiclePrivacy.Proofs.Json.Acceptance
import VehiclePrivacy.Proofs.Screening.Interruption
import VehiclePrivacy.Proofs.Sanitizer.Refusal
import VehiclePrivacy.Proofs.Json.Printing
import VehiclePrivacy.Proofs.Sanitizer.Calls
import VehiclePrivacy.Proofs.Sanitizer.Forgetting
import VehiclePrivacy.Proofs.Feed.Accounts
import VehiclePrivacy.Proofs.Redaction.Records
import VehiclePrivacy.Proofs.Screening.Retention
import VehiclePrivacy.Proofs.Sanitizer.Retention
import VehiclePrivacy.Proofs.Screening.Opacity
import VehiclePrivacy.Proofs.Sanitizer.Opacity
import VehiclePrivacy.Proofs.Json.Reordering
import VehiclePrivacy.Proofs.Screening.Reordering
import VehiclePrivacy.Proofs.Sanitizer.Reordering
import VehiclePrivacy.Proofs.Json.Numerals
import VehiclePrivacy.Proofs.Json.Scanning
import VehiclePrivacy.Proofs.Binary64.Conversion
import VehiclePrivacy.Proofs.Decimal.Shortest
import VehiclePrivacy.Proofs.Json.Floats
import VehiclePrivacy.Proofs.Binary64.Closeness
import VehiclePrivacy.Proofs.Json.Drift
import VehiclePrivacy.Proofs.Json.Rereading
import VehiclePrivacy.Proofs.Sanitizer.Reemission
import VehiclePrivacy.Proofs.Redaction.Settled
import VehiclePrivacy.Proofs.Sanitizer.PartII
import VehiclePrivacy.Proofs.Json.Prefixes
import VehiclePrivacy.Proofs.Sanitizer.Decision
import VehiclePrivacy.Proofs.Json.Pointers
import VehiclePrivacy.Proofs.Screening.Trail
import VehiclePrivacy.Proofs.Sanitizer.Places
import VehiclePrivacy.Proofs.Sanitizer.Overwriting
import VehiclePrivacy.Proofs.Json.Readability
import VehiclePrivacy.Proofs.Redaction.Repetition
import VehiclePrivacy.Proofs.Sanitizer.Repetition
import VehiclePrivacy.Proofs.Sanitizer.Agreement
import VehiclePrivacy.Proofs.Binary64.Monotone
import VehiclePrivacy.Proofs.Geo.Padding
import VehiclePrivacy.Proofs.Geofence.Splitting
import VehiclePrivacy.Proofs.Geofence.Leaves
import VehiclePrivacy.Proofs.Geofence.Storage
import VehiclePrivacy.Proofs.Geofence.Buffers
import VehiclePrivacy.Proofs.Json.Pruning
import VehiclePrivacy.Proofs.Sanitizer.Blocks
import VehiclePrivacy.Proofs.Feed.Failures
import VehiclePrivacy.Proofs.Json.Outlines
import VehiclePrivacy.Proofs.Json.Literals
import VehiclePrivacy.Proofs.Binary64.Identity
import VehiclePrivacy.Proofs.Decimal.Nearest
import VehiclePrivacy.Proofs.Json.Decimals
import VehiclePrivacy.Proofs.Json.Readings
import VehiclePrivacy.Proofs.Screening.Quoting
import VehiclePrivacy.Proofs.Sanitizer.Quoting
import VehiclePrivacy.Proofs.Text.Trimming
import VehiclePrivacy.Proofs.Geo.Subdivision
import VehiclePrivacy.Proofs.Settings.Validity
import VehiclePrivacy.Proofs.Settings.Writing
import VehiclePrivacy.Proofs.Settings.Words
import VehiclePrivacy.Proofs.Settings.Keys
import VehiclePrivacy.Proofs.Redaction.Supply
import VehiclePrivacy.Proofs.Settings.Members
import VehiclePrivacy.Proofs.Binary64.Truncation
import VehiclePrivacy.Proofs.Redaction.Dimensions
import VehiclePrivacy.Proofs.Sanitizer.Dimensions
