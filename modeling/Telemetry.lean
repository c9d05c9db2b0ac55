import Telemetry.Codec.Config
import Telemetry.Codec.Index
import Telemetry.Codec.Record
import Telemetry.Config.Flags
import Telemetry.Config.Search
import Telemetry.Json.Parser
import Telemetry.Main
import Telemetry.Service.Request
import Telemetry.Source.Memory
import Telemetry.Tool.Run
import Telemetry.Proofs.Delivery
import Telemetry.Proofs.Parse
import Telemetry.Proofs.Placement
import Telemetry.Proofs.Framing
import Telemetry.Proofs.Emission
import Telemetry.Proofs.Course
import Telemetry.Proofs.Checkpoints
import Telemetry.Proofs.EmittedTime
import Telemetry.Proofs.RandomAccess
import Telemetry.Proofs.SplitReads
import Telemetry.Proofs.Accounting
import Telemetry.Proofs.RoundTrip
import Telemetry.Proofs.TrueTime
import Telemetry.Proofs.Interruption
import Telemetry.Proofs.Retrying
import Telemetry.Proofs.History
import Telemetry.Proofs.StreamOrder
import Telemetry.Proofs.Appending
import Telemetry.Proofs.Corruption
import Telemetry.Proofs.Exchange
import Telemetry.Proofs.ClockAccount
import Telemetry.Proofs.Requests
import Telemetry.Proofs.Lookup
import Telemetry.Proofs.Statistics
import Telemetry.Proofs.Synthetic
import Telemetry.Proofs.Answers
import Telemetry.Proofs.Paging
import Telemetry.Proofs.Consumption
import Telemetry.Proofs.Termination
import Telemetry.Proofs.TimeBound
import Telemetry.Proofs.Access
import Telemetry.Proofs.Cursor
import Telemetry.Proofs.Guarded
import Telemetry.Proofs.GuardedFetch
import Telemetry.Proofs.TickOrigin
import Telemetry.Proofs.Limit
import Telemetry.Proofs.Mirror
import Telemetry.Proofs.Splitting
import Telemetry.Proofs.Rearrangement
import Telemetry.Proofs.Tabulation
import Telemetry.Proofs.Recency
import Telemetry.Proofs.Tracking
import Telemetry.Proofs.Restoration
import Telemetry.Proofs.CommandLine
import Telemetry.Proofs.Legibility
import Telemetry.Proofs.Listing
import Telemetry.Proofs.Overriding
import Telemetry.Proofs.Finality
import Telemetry.Proofs.Placeholders
import Telemetry.Proofs.Summaries
