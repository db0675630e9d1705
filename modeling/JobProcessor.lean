import JobProcessor.Proofs.StatusGraph
import JobProcessor.Proofs.SyncFlag
import JobProcessor.Proofs.Idempotency
import JobProcessor.Proofs.Dispatch
import JobProcessor.Proofs.Promotion
import JobProcessor.Proofs.Isolation
import JobProcessor.Proofs.Stranded
import JobProcessor.Proofs.Attempts
import JobProcessor.Proofs.Coherence
import JobProcessor.Proofs.Cancellation
import JobProcessor.Proofs.EarlyStart
import JobProcessor.Proofs.CancelAnswers
import JobProcessor.Model.Auth
import JobProcessor.Proofs.Auth
import JobProcessor.Proofs.Priority
import JobProcessor.Proofs.OneMessage
import JobProcessor.Store.PendingList
import JobProcessor.Proofs.ReaperPass
import JobProcessor.Store.ScoreRange
import JobProcessor.Proofs.Reconcile
import JobProcessor.Proofs.Drain
import JobProcessor.Proofs.Allowlist
import JobProcessor.Proofs.RetryLadder
import JobProcessor.Proofs.BatchSummary
import JobProcessor.Interleave.Among
import JobProcessor.Proofs.LateItems
import JobProcessor.Proofs.Polling
import JobProcessor.Codec.JsonOrder
import JobProcessor.Model.Idempotency
import JobProcessor.Proofs.Cursor
import JobProcessor.Proofs.Fingerprint
import JobProcessor.Proofs.Pagination
import JobProcessor.Codec.Integer
import JobProcessor.Interleave.Stream
import JobProcessor.Model.Middleware
import JobProcessor.Proofs.BodyLimit
import JobProcessor.Store.Backlog
import JobProcessor.Proofs.Parts
import JobProcessor.Proofs.References
import JobProcessor.Proofs.Faults
import JobProcessor.Proofs.Slots
import JobProcessor.Proofs.Chronology
import JobProcessor.Proofs.Completion
import JobProcessor.Proofs.Recovery
import JobProcessor.Store.Groups
import JobProcessor.Store.GroupStates
import JobProcessor.Model.Startup
import JobProcessor.Interleave.Simulation
import JobProcessor.Proofs.Startup
import JobProcessor.Proofs.Answered
import JobProcessor.Interleave.Beside
import JobProcessor.Model.Observability
import JobProcessor.Proofs.Observability
import JobProcessor.Proofs.Sessions
import JobProcessor.Proofs.Progress
