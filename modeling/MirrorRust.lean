import MirrorRust.Foundation.OrderedMap
import MirrorRust.Foundation.Outcome
import MirrorRust.Foundation.Utf8
import MirrorRust.Foundation.Worklist
import MirrorRust.Json
import MirrorRust.JsonRender
import MirrorRust.JsonGrammar
import MirrorRust.JsonCursor
import MirrorRust.JsonTokens
import MirrorRust.JsonParsing
import MirrorRust.JsonPanics
import MirrorRust.JsonSpelling
import MirrorRust.Value
import MirrorRust.ValueCodec
import MirrorRust.CanonicalState
import MirrorRust.Schedule
import MirrorRust.Artifact
import MirrorRust.Admission
import MirrorRust.Enumeration
import MirrorRust.Execution.World
import MirrorRust.Execution.Regions
import MirrorRust.Execution.Moves
import MirrorRust.Execution.Coordination
import MirrorRust.Execution.Frame
import MirrorRust.Execution.SingleRunner
import MirrorRust.Execution.Progress
import MirrorRust.Execution.Completion
import MirrorRust.Execution.FailStop
import MirrorRust.Execution.Lookups
import MirrorRust.Execution.Custody
import MirrorRust.Execution.Teardown
import MirrorRust.Execution.Ledger
import MirrorRust.Framing
import MirrorRust.SpecFiles
import MirrorRust.Protocol
import MirrorRust.Decoding
import MirrorRust.Transport
import MirrorRust.Client
import MirrorRust.Jobs
import MirrorRust.Stepping
import MirrorRust.Contract
import MirrorRust.Negotiation
import MirrorRust.Authorization
import MirrorRust.NegotiatedRunner
import MirrorRust.Lifecycle
import MirrorRust.Equivalence
import MirrorRust.Itf
import MirrorRust.Deserialize
import MirrorRust.BareNumbers
import MirrorRust.Exploration
import MirrorRust.Declaration
import MirrorRust.Evaluation
import MirrorRust.Coverage
import MirrorRust.Campaign
import MirrorRust.Verdict
import MirrorRust.Atomicity
import MirrorRust.NumberRange
import MirrorRust.LineSync
import MirrorRust.Attribution
import MirrorRust.Conformance
import MirrorRust.Trivia
import MirrorRust.Tally
import MirrorRust.Literals
import MirrorRust.ModelTypes
import MirrorRust.Metering
import MirrorRust.EntryOrder
import MirrorRust.Foundation.Failover
import MirrorRust.Registry
import MirrorRust.ModuleNames
import MirrorRust.JsonWatch
import MirrorRust.Execution.Receipt
import MirrorRust.JsonBytes
import MirrorRust.Execution.Evidence
import MirrorRust.Execution.Pace
import MirrorRust.Execution.Plan
import MirrorRust.Execution.RunSchedule
import MirrorRust.Execution.Cooperation
import MirrorRust.Execution.Harmony
import MirrorRust.Execution.Passing
import MirrorRust.Execution.Overrun
import MirrorRust.Binding.Session
import MirrorRust.Binding.Ledger
import MirrorRust.Binding.Moves
import MirrorRust.Binding.Bytes
import MirrorRust.Binding.Barrier
import MirrorRust.Binding.Completed
import MirrorRust.Replay
import MirrorRust.Refusals
import MirrorRust.ReplayVerdict
