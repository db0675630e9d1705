import JobProcessor.Model.Ticker

/-! The job routes of `app/api/routes.py`, for requests that have passed
authentication and rate limiting. -/

namespace JobProcessor

open Interleave

structure JobAccepted where
  id : Uuid
  type : JobType
  status : JobStatus
  priority : JobPriority
  createdAt : Time
  scheduledAt : Option Time

structure JobOut where
  id : Uuid
  type : JobType
  status : JobStatus
  priority : JobPriority
  payload : Json
  result : Option Json
  error : Option Json
  createdAt : Time
  startedAt : Option Time
  completedAt : Option Time
  scheduledAt : Option Time
  attempts : Nat
  maxAttempts : Int
  progress : Option Int
  cancelRequestedAt : Option Time

inductive Body where
  | accepted (a : JobAccepted)
  | job (j : JobOut)
  | jobs (items : List JobOut) (nextCursor : Option String)
  | detail (message : String)

structure Response where
  status : Nat
  body : Body

def accepted (job : Job) : JobAccepted :=
  ⟨job.id, job.type, job.status, job.priority, job.createdAt, job.scheduledAt⟩

def JobOut.ofJob (job : Job) : JobOut where
  id := job.id
  type := job.type
  status := job.status
  priority := job.priority
  payload := job.payload
  result := job.result
  error := job.error
  createdAt := job.createdAt
  startedAt := job.startedAt
  completedAt := job.completedAt
  scheduledAt := job.scheduledAt
  attempts := job.attempts
  maxAttempts := job.maxAttempts
  progress := job.progress
  cancelRequestedAt := job.cancelRequestedAt

def notFound : Response := ⟨404, .detail "job not found"⟩

/-! ### Submission -/

def createJob (n : Repository.NewJob) : Prg (Except Exc Job) := do
  let inserted : Bool ← perform (.createJob n)
  if inserted then do
    let row : Option Job ← perform (.getJob n.id none)
    match row with
    | some job => pure (.ok job)
    | none => pure (.error .invalidRequest)
  else pure (.error .integrityError)

/-- The row of a submission; batch jobs get a single attempt. -/
def newJob (app : App) (user newId : Uuid) (sub : JobSubmission) (key hash : Option String) :
    Repository.NewJob where
  id := newId
  type := sub.type
  payload := sub.payload
  priority := sub.priority
  maxAttempts := if sub.type = .batch then 1 else app.settings.maxAttempts
  idempotencyKey := key
  idempotencyHash := hash
  userId := some user

/-- The branch of `_create_and_handoff` for a job that is due. -/
def createPending (app : App) (n : Repository.NewJob) : Prg (Except Exc Job) := do
  match ← createJob n with
  | .error exc => pure (.error exc)
  | .ok job => do
    perform (.xadd (app.settings.streamForPriority n.priority) job.id)
    perform (.markSynced job.id)
    pure (.ok job)

def createScheduled (n : Repository.NewJob) (scheduledAt : Time) : Prg (Except Exc Job) := do
  match ← createJob { n with status := .scheduled, scheduledAt := some scheduledAt } with
  | .error exc => pure (.error exc)
  | .ok job => do
    perform (.zadd job.id scheduledAt)
    perform (.markSynced job.id)
    pure (.ok job)

def createAndHandoff (app : App) (user newId : Uuid) (sub : JobSubmission)
    (key hash : Option String) : Prg (Except Exc Job) :=
  match sub.scheduledAt with
  | none => createPending app (newJob app user newId sub key hash)
  | some scheduledAt => do
    let now : Time ← perform .now
    if now < scheduledAt then createScheduled (newJob app user newId sub key hash) scheduledAt
    else createPending app (newJob app user newId sub key hash)

def replayOrConflict (existing : Option Job) (reqHash : String) : Response :=
  match existing with
  | some job =>
    if job.idempotencyHash = some reqHash then ⟨200, .accepted (accepted job)⟩
    else ⟨409, .detail "idempotency key reused with a different payload"⟩
  | none => ⟨409, .detail "idempotency key reused with a different payload"⟩

def payloadExcMessage : PayloadExc → String
  | .policy message => message
  | .invalid _ message => message

/-- A submission with a key: replay, conflict, or create; the loser of a race looks
the key up again. -/
def submitKeyed (app : App) (user newId : Uuid) (sub : JobSubmission) (key : String) :
    Prg (Except Exc Response) := do
  let reqHash := app.canonicalHash sub.type sub.payload
  let existing : Option Job ← perform (.getByIdempotencyKey key user)
  if existing.isSome then pure (.ok (replayOrConflict existing reqHash))
  else do
    match ← createAndHandoff app user newId sub (some key) (some reqHash) with
    | .ok job => pure (.ok ⟨202, .accepted (accepted job)⟩)
    | .error .integrityError => do
      let existing : Option Job ← perform (.getByIdempotencyKey key user)
      pure (.ok (replayOrConflict existing reqHash))
    | .error exc => pure (.error exc)

def submitJob (app : App) (user newId : Uuid) (sub : JobSubmission) : Prg (Except Exc Response) :=
  match app.validatePayload sub.type sub.payload with
  | .error exc => pure (.ok ⟨422, .detail (payloadExcMessage exc)⟩)
  | .ok _ =>
    match sub.idempotencyKey with
    | none => do
      match ← createAndHandoff app user newId sub none none with
      | .ok job => pure (.ok ⟨202, .accepted (accepted job)⟩)
      | .error exc => pure (.error exc)
    | some key => submitKeyed app user newId sub key

/-! ### The routes of one job -/

def getJobRoute (user jobId : Uuid) : Prg (Except Exc Response) := do
  let row : Option Job ← perform (.getJob jobId (some user))
  match row with
  | none => pure (.ok notFound)
  | some job => pure (.ok ⟨200, .job (.ofJob job)⟩)

def retryJob (app : App) (user jobId : Uuid) : Prg (Except Exc Response) := do
  let row : Option Job ← perform (.getJob jobId (some user))
  match row with
  | none => pure (.ok notFound)
  | some job => do
    let won : Bool ← perform (.resetFailedToPending jobId)
    if won then do
      perform (.xadd (app.settings.streamForPriority job.priority) jobId)
      perform (.markSynced jobId)
      let fresh : Option Job ← perform (.getJob jobId none)
      match fresh with
      | none => pure (.error .invalidRequest)
      | some job => pure (.ok ⟨200, .job (.ofJob job)⟩)
    else
      pure (.ok ⟨409, .detail "job is not retryable (not failed, or cancel was requested)"⟩)

/-! The cancel route keeps the row of one round in a variable, and with it the
instance stays in the identity map of its session (`expire_on_commit=False`). Later
statements of the session are also applied to that instance, matched in memory and
whatever rows they hit (`synchronize_session`), and `session.get` returns it without
a query. The instance of the first, scoped read is held by nobody. -/

/-- An `UPDATE` as the session applies it to the instance it holds. -/
def synchronize (held : Option Job) (criteria : Job → Bool) (values : Time → Job → Job) :
    Prg (Option Job) :=
  match held with
  | none => pure none
  | some job =>
    if criteria job then do
      let now : Time ← perform .now
      pure (some (values now job))
    else pure (some job)

def cancelPendingOrScheduled (jobId : Uuid) (held : Option Job) : Prg (Bool × Option Job) := do
  let won : Bool ← perform (.cancelPendingOrScheduled jobId)
  let held ← synchronize held (fun job => job.status.claimable)
    fun now job => { job with status := .cancelled, completedAt := some now }
  pure (won, held)

def requestCancel (jobId : Uuid) (held : Option Job) : Prg (Bool × Option Job) := do
  let won : Bool ← perform (.requestCancel jobId)
  let held ← synchronize held (fun job => job.status = .processing)
    fun now job => { job with cancelRequestedAt := some now }
  pure (won, held)

def sessionGet (jobId : Uuid) : Option Job → Prg (Option Job)
  | some job => pure (some job)
  | none => perform (.getJob jobId none)

def answerJob (status : Nat) (jobId : Uuid) (held : Option Job) : Prg (Except Exc Response) := do
  match ← sessionGet jobId held with
  | none => pure (.error .validationError)
  | some job => pure (.ok ⟨status, .job (.ofJob job)⟩)

/-- The re-resolve loop of `cancel_job_route`. -/
def cancelRounds (jobId : Uuid) : Nat → Option Job → Prg (Except Exc Response)
  | 0, _ => pure (.ok ⟨409, .detail "job state is changing; retry"⟩)
  | rounds + 1, held => do
    let (cancelled, held) ← cancelPendingOrScheduled jobId held
    if cancelled then do
      perform (.zrem [jobId])
      answerJob 200 jobId held
    else do
      let (requested, held) ← requestCancel jobId held
      if requested then answerJob 202 jobId held
      else do
        match ← sessionGet jobId held with
        | none => pure (.ok notFound)
        | some job =>
          if job.status = .cancelled then pure (.ok ⟨200, .job (.ofJob job)⟩)
          else if job.status = .completed ∨ job.status = .failed then
            pure (.ok ⟨409, .detail "job cannot be cancelled in its current state"⟩)
          else cancelRounds jobId rounds (some job)

def cancelJobRoute (user jobId : Uuid) : Prg (Except Exc Response) := do
  let row : Option Job ← perform (.getJob jobId (some user))
  match row with
  | none => pure (.ok notFound)
  | some _ => cancelRounds jobId 3 none

/-! ### Listing -/

/-- The page and the cursor behind it, out of the `limit + 1` rows read. -/
def page (app : App) (rows : List Job) (limit : Nat) : List Job × Option String :=
  if limit < rows.length then
    (rows.take limit, (rows.take limit).getLast?.map fun r =>
      encodeCursor (app.driver.toDatetime r.createdAt) r.id)
  else (rows, none)

/-- The bound that a cursor puts on the rows; the driver binds it as an instant. -/
def cursorBound (app : App) : Option String → Except Exc (Option (Time × Uuid))
  | none => .ok none
  | some cursor => (decodeCursor cursor).map fun c => some (app.driver.toTime c.1, c.2)

def listJobsRoute (app : App) (user : Uuid) (status : Option JobStatus) (type : Option JobType)
    (priority : Option JobPriority) (limit : Nat) (cursor : Option String) :
    Prg (Except Exc Response) :=
  match cursorBound app cursor with
  | .error .valueError => pure (.ok ⟨422, .detail "invalid cursor"⟩)
  | .error exc => pure (.error exc)
  | .ok before => do
    let rows : List Job ← perform (.listJobs ⟨status, type, priority, some user, before⟩ limit)
    let p := page app rows limit
    pure (.ok ⟨200, .jobs (p.1.map JobOut.ofJob) p.2⟩)

end JobProcessor
