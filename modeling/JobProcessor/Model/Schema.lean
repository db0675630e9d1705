import JobProcessor.Store.Table
import Mathlib.Algebra.GroupWithZero.Nat
import Mathlib.Order.Fin.Basic

/-! The data of the job processor: the `jobs` row, its enumerations, and the
settings. Instants and durations are whole microseconds. The trace context and
the user's display name are left out: only telemetry reads them. -/

namespace JobProcessor

abbrev Uuid := Fin (2 ^ 128)

instance Uuid.neZero : NeZero (2 ^ 128) := ⟨by decide⟩

instance Uuid.lawfulBEq : LawfulBEq Uuid := inferInstance

abbrev Time := Int

/-- A JSON value; floats are kept by their `repr`. -/
inductive Json where
  | null
  | bool (b : Bool)
  | int (i : Int)
  | float (repr : String)
  | str (s : String)
  | arr (xs : List Json)
  | obj (members : List (String × Json))

inductive JobType where
  | email | webhook | report | batch
deriving DecidableEq, Repr

inductive JobStatus where
  | scheduled | pending | processing | completed | failed | cancelled
deriving DecidableEq, Repr

inductive JobPriority where
  | high | normal | low
deriving DecidableEq, Repr

namespace JobStatus

/-- What `claim_job` accepts. -/
def claimable : JobStatus → Bool
  | .pending | .scheduled => true
  | _ => false

def terminal : JobStatus → Bool
  | .completed | .failed | .cancelled => true
  | _ => false

theorem claimable_iff {s : JobStatus} :
    s.claimable = true ↔ s ≠ .processing ∧ s.terminal = false := by
  cases s <;> decide

theorem terminal_iff {s : JobStatus} :
    s.terminal = true ↔ s = .cancelled ∨ s = .completed ∨ s = .failed := by
  cases s <;> decide

end JobStatus

structure Job where
  id : Uuid
  userId : Option Uuid
  type : JobType
  payload : Json
  status : JobStatus
  priority : JobPriority
  result : Option Json
  error : Option Json
  attempts : Nat
  maxAttempts : Int
  createdAt : Time
  startedAt : Option Time
  completedAt : Option Time
  scheduledAt : Option Time
  isSyncedToRedis : Bool
  progress : Option Int
  cancelRequestedAt : Option Time
  idempotencyKey : Option String
  idempotencyHash : Option String

namespace Job

/-- The columns of the partial unique index `uq_jobs_user_idempotency_key`. A null
`user_id` is distinct from every other. -/
def uqUserIdempotencyKey (r : Job) : Option (Uuid × String) :=
  match r.userId, r.idempotencyKey with
  | some u, some k => some (u, k)
  | _, _ => none

end Job

abbrev Jobs := Store.Table Job.id Job.uqUserIdempotencyKey

/-- Settings as the constructor accepts them. -/
structure Settings where
  streamHigh : String := "jobs:stream:high"
  streamNormal : String := "jobs:stream:normal"
  streamLow : String := "jobs:stream:low"
  tickerBatchSize : Nat := 100
  reconcileIntervalS : Time := 60000000
  reconcileGraceS : Time := 10000000
  reconcileBatchSize : Nat := 500
  jobHandlerTimeoutS : Time := 45000000
  visibilityTimeoutS : Time := 60000000
  reaperIntervalS : Time := 30000000
  reaperBatchSize : Nat := 100
  maxAttempts : Int := 4
  retryBackoffSchedule : List Int := [0, 30, 120]
  cancelPollIntervalS : Time := 2000000
  workerConcurrency : Nat := 10
  checkTimeoutInvariant : jobHandlerTimeoutS < visibilityTimeoutS

namespace Settings

theorem default_timeouts : (45000000 : Time) < 60000000 := by decide

def orderedStreams (s : Settings) : List String := [s.streamHigh, s.streamNormal, s.streamLow]

def streamForPriority (s : Settings) : JobPriority → String
  | .high => s.streamHigh
  | .normal => s.streamNormal
  | .low => s.streamLow

end Settings

end JobProcessor
