import JobProcessor.Model.Cursor
import JobProcessor.Model.Idempotency
import JobProcessor.Store.Binary64

/-! The worker: `app/retry.py`, `app/worker/context.py`, `app/jobs/handlers.py`,
`app/queue/consumer.py` and `app/worker/runner.py`. -/

namespace JobProcessor

open Interleave

/-- The settings and the database driver, with the pure functions the programs call. -/
structure App where
  settings : Settings
  validatePayload : JobType → Json → Except PayloadExc Payload
  sha256 : List Nat → String
  driver : Driver
  showSeconds : Time → String

def App.canonicalHash (app : App) : JobType → Json → String := JobProcessor.canonicalHash app.sha256

def errorJson (type message : String) : Json :=
  .obj [("type", .str type), ("message", .str message)]

/-! ### Retry -/

/-- `schedule[min(attempts - 1, len(schedule) - 1)]`. The index is `-1` only on the
empty list, where Python raises `IndexError`. -/
def backoffDelay (attempts : Nat) (schedule : List Int) : Option Int :=
  schedule[min (attempts - 1) (schedule.length - 1)]?

/-- `datetime.max`, 9999-12-31T23:59:59.999999Z: adding a delay that leads past it raises
`OverflowError`. -/
def maxInstant : Time := 253402300799999999

/-- Retry with backoff, or permanently fail at `max_attempts`. Returns whether this
actor won the guarded transition. -/
def scheduleRetryOrFail (app : App) (job : Job) (error : Json) : Prg (Except Exc Bool) :=
  let n := job.attempts + 1
  if job.maxAttempts ≤ n then do
    let won : Bool ← perform (.failJob job.id error)
    pure (.ok won)
  else
    match backoffDelay n app.settings.retryBackoffSchedule with
    | none => pure (.error .indexError)
    | some delay =>
      if delay ≤ 0 then do
        let won : Bool ← perform (.retryToPending job.id)
        if won then do
          perform (.xadd (app.settings.streamForPriority job.priority) job.id)
          perform (.markSynced job.id)
          pure (.ok true)
        else pure (.ok false)
      else do
        let now : Time ← perform .now
        let scheduledAt := now + delay * 1000000
        if maxInstant < scheduledAt then pure (.error .overflowError)
        else do
          let won : Bool ← perform (.retryToScheduled job.id scheduledAt)
          if won then do
            perform (.zadd job.id scheduledAt)
            perform (.markSynced job.id)
            pure (.ok true)
          else pure (.ok false)

/-! ### The cancel and progress channel of a handler -/

structure PgJobContext where
  jobId : Uuid
  interval : Time
  pendingPct : Int := 0
  lastWrittenPct : Option Int := none
  lastPoll : Option Time := none
  cached : Bool := false

namespace PgJobContext

def setProgress (ctx : PgJobContext) (pct : Int) : PgJobContext := { ctx with pendingPct := pct }

/-- `(alive, requested)` of `_write`. -/
def write (ctx : PgJobContext) (pct : Int) : Prg (Bool × Bool) := do
  let row : Option (Option Time) ← perform (.writeProgress ctx.jobId pct)
  match row with
  | none => pure (false, false)
  | some c => pure (true, c.isSome)

def read (ctx : PgJobContext) : Prg (Bool × Bool) := do
  let row : Option (Option Time × JobStatus) ← perform (.readFlags ctx.jobId)
  match row with
  | none => pure (false, false)
  | some (c, s) => if s = .processing then pure (true, c.isSome) else pure (false, false)

def due (ctx : PgJobContext) (now : Time) : Bool :=
  match ctx.lastPoll with
  | none => true
  | some t => ctx.interval ≤ now - t

def cancelled (ctx : PgJobContext) : Prg (PgJobContext × Bool) := do
  let now : Time ← perform .now
  if ctx.due now then
    if some ctx.pendingPct ≠ ctx.lastWrittenPct then do
      let (alive, requested) ← ctx.write ctx.pendingPct
      let c := requested || !alive
      pure ({ ctx with lastWrittenPct := some ctx.pendingPct, lastPoll := some now, cached := c }, c)
    else do
      let (alive, requested) ← ctx.read
      let c := requested || !alive
      pure ({ ctx with lastPoll := some now, cached := c }, c)
  else pure (ctx, ctx.cached)

end PgJobContext

/-! ### Handlers -/

structure Summary where
  total : Nat
  succeeded : Nat := 0
  failed : Nat := 0
  results : List (Nat × Json) := []
  errors : List (Nat × String) := []

/-- How item `i` ended goes into the summary. -/
def Summary.record (s : Summary) (i : Nat) : Except (String × String) Json → Summary
  | .ok v => { s with succeeded := s.succeeded + 1, results := s.results ++ [(i, v)] }
  | .error exc => { s with failed := s.failed + 1, errors := s.errors ++ [(i, exc.2)] }

def Summary.json (s : Summary) : Json :=
  .obj [("total", .int s.total), ("succeeded", .int s.succeeded), ("failed", .int s.failed),
    ("results", .arr (s.results.map fun r => .obj [("index", .int r.1), ("result", r.2)])),
    ("errors", .arr (s.errors.map fun e => .obj [("index", .int e.1), ("error", .str e.2)]))]

inductive HandlerExc where
  | cancelled (summary : Json)
  | timeout
  | raised (type message : String)

/-- `int(done / n * 100)`, in floating point. -/
def percent (done n : Nat) : Nat := ((Binary64.quot done n).mul 100).toNat

/-- The loop of `handle_batch` over the items from index `i` on; `n` is their number. -/
def handleBatch (n : Nat) :
    Nat → List PayloadItem → PgJobContext → Summary → Prg (Except HandlerExc Json)
  | _, [], _, s => pure (.ok s.json)
  | i, item :: items, ctx, s => do
    let (ctx, c) ← ctx.cancelled
    if c then pure (.error (.cancelled s.json))
    else do
      perform (.startHandler ctx.jobId item.type)
      let r : Except (String × String) Json ← perform (.finishHandler item.type)
      handleBatch n (i + 1) items (ctx.setProgress (percent (i + 1) n)) (s.record i r)

/-- `HANDLERS[job_type](payload, ctx)` for the job itself. -/
def runHandler (type : JobType) (payload : Payload) (ctx : PgJobContext) :
    Prg (Except HandlerExc Json) := do
  perform (.startHandler ctx.jobId type)
  match type, payload with
  | .batch, .batch items => handleBatch items.length 0 items ctx { total := items.length }
  | .batch, .item _ => pure (.error (.raised "AttributeError" "items"))
  | type, _ => do
    let r : Except (String × String) Json ← perform (.finishHandler type)
    match r with
    | .ok v => pure (.ok v)
    | .error exc => pure (.error (.raised exc.1 exc.2))

/-- `asyncio.wait_for`: before any action of the handler it may be given up. -/
def runWithTimeout : Prg (Except HandlerExc Json) → Prg (Except HandlerExc Json)
  | .pure a => .pure a
  | .act o k => .act .timedOut fun fired =>
    if fired = true then .pure (.error .timeout) else .act o fun r => runWithTimeout (k r)

/-! ### One message -/

inductive Label where
  | skipped | droppedOwnerless | cancelled | timeout | policyRejected | retried | lost
  | completed | poison
deriving DecidableEq, Repr

structure Outcome where
  ack : Bool
  label : Label
deriving DecidableEq, Repr

def retry (app : App) (job : Job) (error : Json) (label : Label) : Prg (Except Exc Outcome) := do
  match ← scheduleRetryOrFail app job error with
  | .error exc => pure (.error exc)
  | .ok won => pure (.ok ⟨won, label⟩)

/-- The branches of `process_job` after the handler. -/
def settle (app : App) (job : Job) : Except HandlerExc Json → Prg (Except Exc Outcome)
  | .error (.cancelled summary) => do
    let won : Bool ← perform (.cancelJob job.id summary)
    pure (.ok ⟨won, .cancelled⟩)
  | .error .timeout =>
    retry app job
      (errorJson "HandlerTimeout" (">" ++ app.showSeconds app.settings.jobHandlerTimeoutS ++ "s"))
      .timeout
  | .error (.raised type message) => retry app job (errorJson type message) .retried
  | .ok result => do
    let won : Bool ← perform
      (.completeJob job.id result (if job.type = .batch then some 100 else none))
    if won then pure (.ok ⟨true, .completed⟩) else pure (.ok ⟨false, .lost⟩)

/-- The part of `process_job` inside its `try`. -/
def runClaimed (app : App) (job : Job) : Prg (Except Exc Outcome) :=
  match app.validatePayload job.type job.payload with
  | .error (.policy message) => do
    let won : Bool ← perform (.failJob job.id (errorJson "PayloadPolicyError" message))
    pure (.ok ⟨won, .policyRejected⟩)
  | .error (.invalid type message) => retry app job (errorJson type message) .retried
  | .ok payload => do
    let r ← runWithTimeout
      (runHandler job.type payload { jobId := job.id, interval := app.settings.cancelPollIntervalS })
    settle app job r

def processJob (app : App) (jobId : Uuid) : Prg (Except Exc Outcome) := do
  let claimed : Bool ← perform (.claimJob jobId)
  if claimed then do
    let row : Option Job ← perform (.getJob jobId none)
    match row with
    | none => pure (.error .attributeError)
    | some job =>
      if job.userId.isNone then do
        let won : Bool ← perform (.failJob job.id (.obj [("reason", .str "ownerless job dropped")]))
        pure (.ok ⟨won, .droppedOwnerless⟩)
      else if job.type = .batch then do
        let _ : Bool ← perform (.initProgress job.id)
        runClaimed app job
      else runClaimed app job
  else pure (.ok ⟨true, .skipped⟩)

def handleMessage (app : App) (m : Message) : Prg (Except Exc Outcome) :=
  match m.jobId with
  | none => do
    perform (.xack m.stream m.messageId)
    pure (.ok ⟨true, .poison⟩)
  | some jobId => do
    let r ← processJob app jobId
    match r with
    | .error exc => pure (.error exc)
    | .ok outcome =>
      if outcome.ack then do
        perform (.xack m.stream m.messageId)
        pure (.ok outcome)
      else pure (.ok outcome)

/-- The task of one message: the slot is given back however it ends. -/
def runOne (app : App) (consumer : String) (m : Message) : Prg (Except Exc Outcome) := do
  let r ← handleMessage app m
  perform (.semRelease consumer)
  pure r

/-! ### The pull loop -/

/-- Probe each stream alone, highest first. -/
def probe (consumer : String) (count : Nat) : List String → Prg (List Message)
  | [] => pure []
  | s :: ss => do
    let msgs : List Message ← perform (.xreadgroup consumer [s] count)
    if msgs.isEmpty then probe consumer count ss else pure msgs

/-- Strict priority; when every probe is empty, one blocking read over all streams.
The streams of that read are the keys of a dict. -/
def readPriority (consumer : String) (streams : List String) (count : Nat) :
    Prg (List Message) := do
  let msgs ← probe consumer count streams
  if msgs.isEmpty then
    perform (.xreadgroup consumer streams.eraseDups count)
  else pure msgs

/-- `run_forever`, at most `fuel` rounds. It dispatches `batch[0]`. -/
def workerLoop (app : App) (consumer : String) : Nat → Prg Unit
  | 0 => pure ()
  | fuel + 1 => do
    let stop : Bool ← perform .shouldStop
    if stop then pure ()
    else do
      perform (.semAcquire consumer)
      let batch ← readPriority consumer app.settings.orderedStreams 1
      match batch with
      | [] => do
        perform (.semRelease consumer)
        workerLoop app consumer fuel
      | m :: _ => do
        perform (.createTask (.runOne consumer m))
        workerLoop app consumer fuel

end JobProcessor
