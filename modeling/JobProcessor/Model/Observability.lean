import JobProcessor.Model.Startup

/-! What `/stats` and the gauges of the ticker show: `app/observability.py` and the
observation callbacks of `app/ticker/runner.py`. They read both stores and write nothing. -/

namespace JobProcessor

open Interleave Store

/-! ### What is asked -/

inductive RedisResult (α : Type) where
  | ok (a : α)
  | responseError (message : String)
  | connectionError

structure GroupInfo where
  name : String
  pending : Nat
  lag : Option Nat

structure ConsumerInfo where
  name : String
  idle : Int

inductive StatOp where
  | xinfoGroups (stream : String)
  | xinfoConsumers (stream group : String)
  | zcard
  /-- `SELECT status, count(*) FROM jobs GROUP BY status`. -/
  | countByStatus
  /-- `SELECT min(created_at) FROM jobs WHERE status = 'pending'`. -/
  | minPendingCreatedAt
  | now

/-- A query is answered with `none` when Postgres fails. -/
@[reducible] def StatOp.Res : StatOp → Type
  | .xinfoGroups _ => RedisResult (List GroupInfo)
  | .xinfoConsumers _ _ => RedisResult (List ConsumerInfo)
  | .zcard => RedisResult Nat
  | .countByStatus => Option (List (JobStatus × Nat))
  | .minPendingCreatedAt => Option (Option Time)
  | .now => Time

/-- Which of the two stores answer. -/
structure Up where
  redis : Bool := true
  postgres : Bool := true

def JobStatus.all : List JobStatus :=
  [.scheduled, .pending, .processing, .completed, .failed, .cancelled]

def rowsWith (jobs : Jobs) (status : JobStatus) : List Job :=
  jobs.rows.filter fun r => r.status = status

/-- The answer of the world in which the streams have the one group `group`. Nothing is
ever deleted from a stream, so the lag of a group is what it has not been given. -/
def look (group : String) (o : StatOp) (up : Up) (w : BootWorld) : o.Res :=
  match o with
  | .xinfoGroups s =>
    if !up.redis then .connectionError
    else match w.log.groups s with
      | some g => .ok [⟨group, g.pel.length, some (w.log.behind s g).length⟩]
      | none =>
        if w.log.records.any fun r => r.stream = s then .ok []
        else .responseError "no such key"
  | .xinfoConsumers s g =>
    if !up.redis then .connectionError
    else match w.log.groups s with
      | some known =>
        if g = group then .ok (known.consumers.items.map fun q => ⟨q.1, millis w.clock - q.2⟩)
        else .responseError ("NOGROUP No such consumer group '" ++ g ++ "' for key name '" ++ s ++ "'")
      | none =>
        if w.log.records.any fun r => r.stream = s then
          .responseError ("NOGROUP No such consumer group '" ++ g ++ "' for key name '" ++ s ++ "'")
        else .responseError "no such key"
  | .zcard => if up.redis then .ok w.delayed.items.length else .connectionError
  | .countByStatus =>
    if up.postgres then
      some ((JobStatus.all.map fun status => (status, (rowsWith w.jobs status).length)).filter
        fun q => q.2 ≠ 0)
    else none
  | .minPendingCreatedAt =>
    if up.postgres then some ((rowsWith w.jobs .pending).map Job.createdAt).min? else none
  | .now => w.clock

abbrev StatPrg := Prog StatOp StatOp.Res

abbrev ask (o : StatOp) : StatPrg o.Res := Prog.op o

/-! ### Reading the answers -/

/-- What `gather_stats` raises: `redis.RedisError` or `SQLAlchemyError`. -/
inductive StatsExc where
  | redis (message : String)
  | sqlalchemy

def mentions (needle hay : String) : Bool := decide (needle.toList <:+: hay.toList)

def tolerateNogroup {α : Type} (result : RedisResult α) (empty : α) : Except StatsExc α :=
  match result with
  | .ok a => .ok a
  | .responseError message =>
    if mentions "NOGROUP" message then .ok empty else .error (.redis message)
  | .connectionError => .error (.redis "")

/-- The least idle time known of a consumer, with one more row. -/
def noteIdle (minIdle : Dict String Int) (row : ConsumerInfo) : Dict String Int :=
  match minIdle.get? row.name with
  | none => minIdle.set row.name row.idle
  | some idle => if row.idle < idle then minIdle.set row.name row.idle else minIdle

def liveWorkerCount (consumerRowsPerStream : List (List ConsumerInfo)) (cutoffMs : Int) : Nat :=
  let minIdle : Dict String Int := consumerRowsPerStream.foldl (List.foldl noteIdle) .empty
  (minIdle.filter fun q => q.2 < cutoffMs).size

def zeroFillStatusCounts (rows : List (JobStatus × Nat)) : Dict JobStatus Nat :=
  let counts : Dict JobStatus Nat := JobStatus.all.foldl (fun d status => d.set status 0) .empty
  rows.foldl (fun d row => d.set row.1 row.2) counts

def pendingAge (minCreatedAt : Option Time) (now : Time) : Option Time :=
  minCreatedAt.map fun created => now - created

structure StreamStat where
  depth : Option Nat
  inFlight : Nat
deriving DecidableEq, Repr

structure QueueStats where
  streams : List (JobPriority × StreamStat)
  scheduled : Nat
  workers : Nat

structure JobStats where
  byStatus : Dict JobStatus Nat
  oldestPendingAge : Option Time

structure StatsResponse where
  queue : QueueStats
  jobs : JobStats

def Settings.priorityStreams (s : Settings) : List (JobPriority × String) :=
  [(.high, s.streamHigh), (.normal, s.streamNormal), (.low, s.streamLow)]

def streamStat (group : String) (groups : List GroupInfo) : StreamStat :=
  match groups.find? fun g => g.name = group with
  | none => ⟨some 0, 0⟩
  | some g => ⟨g.lag, g.pending⟩

/-- The replies to some commands of a pipeline; `none` when the connection is lost. -/
def execute {α : Type} : List (StatPrg (RedisResult α)) → StatPrg (Option (List (RedisResult α)))
  | [] => pure (some [])
  | command :: commands => do
    match ← command with
    | .connectionError => pure none
    | reply => do
      let replies ← execute commands
      pure (replies.map (reply :: ·))

/-- `gather_stats` from the results of its pipeline on. -/
def queueStats (app : App) (group : String) (groups : List (RedisResult (List GroupInfo)))
    (consumers : List (RedisResult (List ConsumerInfo))) (card : RedisResult Nat) :
    Except StatsExc QueueStats := do
  let groups ← groups.mapM (tolerateNogroup · [])
  let consumers ← consumers.mapM fun res => do
    return (← tolerateNogroup res []).filter fun row => row.name ≠ reaperName
  let scheduled ← tolerateNogroup card 0
  let streams := (app.settings.priorityStreams.zip groups).map fun q =>
    (q.1.1, streamStat group q.2)
  return ⟨streams, scheduled, liveWorkerCount consumers app.settings.visibilityMs⟩

/-- The first half of `gather_stats`, on Redis. -/
def gatherQueue (app : App) (group : String) : StatPrg (Except StatsExc QueueStats) := do
  let streamNames := app.settings.orderedStreams
  match ← execute (streamNames.map fun s => ask (.xinfoGroups s)) with
  | none => pure (.error (.redis ""))
  | some groups =>
    match ← execute (streamNames.map fun s => ask (.xinfoConsumers s group)) with
    | none => pure (.error (.redis ""))
    | some consumers => do
      let card : RedisResult Nat ← ask .zcard
      pure (queueStats app group groups consumers card)

/-- The second half, on Postgres. -/
def gatherJobs : StatPrg (Except StatsExc JobStats) := do
  let statusRows : Option (List (JobStatus × Nat)) ← ask .countByStatus
  match statusRows with
  | none => pure (.error .sqlalchemy)
  | some statusRows => do
    let minCreated : Option (Option Time) ← ask .minPendingCreatedAt
    match minCreated with
    | none => pure (.error .sqlalchemy)
    | some minCreated => do
      let now : Time ← ask .now
      pure (.ok ⟨zeroFillStatusCounts statusRows, pendingAge minCreated now⟩)

def gatherStats (app : App) (group : String) : StatPrg (Except StatsExc StatsResponse) := do
  match ← gatherQueue app group with
  | .error exc => pure (.error exc)
  | .ok queue =>
    match ← gatherJobs with
    | .error exc => pure (.error exc)
    | .ok jobs => pure (.ok ⟨queue, jobs⟩)

/-- The answer of the route: the status code, and the body of a 200. -/
structure StatsAnswer where
  status : Nat
  body : StatsResponse ⊕ String

/-- The route `stats`, past rate limiting. -/
def statsRoute (app : App) (group : String) : StatPrg StatsAnswer := do
  match ← gatherStats app group with
  | .ok r => pure ⟨200, .inl r⟩
  | .error _ => pure ⟨503, .inr "stats unavailable"⟩

/-! ### The gauges -/

/-- `queue_depth_observations`: a stream that cannot be asked is left out, and a lost
connection leaves out all of them. -/
def queueDepthObservations (group : String) : List (JobPriority × String) →
    List (JobPriority × Nat) → StatPrg (List (JobPriority × Nat))
  | [], out => pure out
  | (priority, stream) :: streams, out => do
    let reply : RedisResult (List GroupInfo) ← ask (.xinfoGroups stream)
    match reply with
    | .connectionError => pure []
    | .responseError _ => queueDepthObservations group streams out
    | .ok groups =>
      match (groups.find? fun g => g.name = group).bind GroupInfo.lag with
      | none => queueDepthObservations group streams out
      | some lag => queueDepthObservations group streams (out ++ [(priority, lag)])

def queueScheduledObservations : StatPrg (List Nat) := do
  let reply : RedisResult Nat ← ask .zcard
  match reply with
  | .ok n => pure [n]
  | _ => pure []

def jobStatusObservations : StatPrg (List (JobStatus × Nat)) := do
  let rows : Option (List (JobStatus × Nat)) ← ask .countByStatus
  match rows with
  | none => pure []
  | some rows => pure (zeroFillStatusCounts rows).items

end JobProcessor
