import JobProcessor.Interleave.Pool
import JobProcessor.Store.Broker
import JobProcessor.Model.Repository

/-! The shared world (Postgres, Redis, one clock) and its atomic actions: one
committed SQL statement or one Redis command each, plus the few things a process
asks of its own event loop. -/

namespace JobProcessor

open Interleave Store

/-- A delivered message: the stream, the entry id, and `UUID(fields["job_id"])`,
`none` when the field is missing or malformed. -/
structure Message where
  stream : String
  messageId : Nat
  jobId : Option Uuid
deriving DecidableEq, Repr

def Message.ofEntry (e : Entry (Option Uuid)) : Message := ⟨e.stream, e.id, e.fields⟩

inductive PayloadItem where
  | email (payload : Json)
  | webhook (payload : Json)
  | report (payload : Json)

inductive Payload where
  | item (i : PayloadItem)
  | batch (items : List PayloadItem)

def PayloadItem.type : PayloadItem → JobType
  | .email _ => .email
  | .webhook _ => .webhook
  | .report _ => .report

def Payload.type : Payload → JobType
  | .item i => i.type
  | .batch _ => .batch

/-- What `validate_payload` raises: a violated allowlist, or anything else. -/
inductive PayloadExc where
  | policy (message : String)
  | invalid (type message : String)

inductive Exc where
  | indexError
  | overflowError
  | keyError
  | valueError
  | typeError
  | attributeError
  | integrityError
  | invalidRequest
  | validationError
deriving DecidableEq, Repr

/-- The body of `POST /jobs`. -/
structure JobSubmission where
  type : JobType
  payload : Json
  priority : JobPriority := .normal
  scheduledAt : Option Time := none
  idempotencyKey : Option String := none

/-- The processes of the system: the five job routes (past authentication and rate
limiting), a worker's pull loop and its message tasks, the ticker, and a single
call of `promote_due`. Loops without a bound of their own carry one, so that a
run of any length is a run with a large enough bound. -/
inductive Proc where
  | submitJob (user : Uuid) (newId : Uuid) (submission : JobSubmission)
  | getJob (user : Uuid) (jobId : Uuid)
  | retryJob (user : Uuid) (jobId : Uuid)
  | cancelJobRoute (user : Uuid) (jobId : Uuid)
  | listJobs (user : Uuid) (status : Option JobStatus) (type : Option JobType)
      (priority : Option JobPriority) (limit : Nat) (cursor : Option String)
  | workerLoop (consumer : String) (fuel : Nat)
  | runOne (consumer : String) (m : Message)
  | ticker (fuel : Nat)
  | promoteDue

def Proc.isTicker : Proc → Bool
  | .ticker _ => true
  | .promoteDue => true
  | _ => false

inductive Op where
  | createJob (n : Repository.NewJob)
  | getJob (id : Uuid) (userId : Option Uuid)
  | listJobs (f : Repository.Filter) (limit : Nat)
  | markSynced (id : Uuid)
  | claimJob (id : Uuid)
  | completeJob (id : Uuid) (result : Json) (progress : Option Int)
  | failJob (id : Uuid) (error : Json)
  | retryToPending (id : Uuid)
  | retryToScheduled (id : Uuid) (scheduledAt : Time)
  | resetFailedToPending (id : Uuid)
  | promoteScheduledToPending (ids : List Uuid)
  | listUnsynced (olderThan : Time) (limit : Nat)
  | getPromotionInfo (ids : List Uuid)
  | initProgress (id : Uuid)
  | cancelPendingOrScheduled (id : Uuid)
  | requestCancel (id : Uuid)
  | cancelJob (id : Uuid) (summary : Json)
  | getByIdempotencyKey (key : String) (userId : Uuid)
  | writeProgress (id : Uuid) (pct : Int)
  | readFlags (id : Uuid)
  | xadd (stream : String) (id : Uuid)
  | xreadgroup (consumer : String) (streams : List String) (count : Nat)
  | xautoclaim (stream : String) (minIdle : Int) (start count : Nat)
  | xack (stream : String) (messageId : Nat)
  | zadd (id : Uuid) (score : Time)
  | zrangebyscore (max : Time) (limit : Nat)
  | zrem (ids : List Uuid)
  /-- Read the clock. -/
  | now
  /-- Ask `_should_stop` and the memory recycler. -/
  | shouldStop
  /-- Has `asyncio.wait_for` given up on the handler? -/
  | timedOut
  /-- The handler of a job of this type begins. -/
  | startHandler (id : Uuid) (type : JobType)
  /-- A handler ends with a result or an exception `(type, message)`. -/
  | finishHandler (type : JobType)
  /-- The ticker logs the exception that a tick ended in. -/
  | tickFailed (exc : Exc)
  | semAcquire (consumer : String)
  | semRelease (consumer : String)
  | createTask (p : Proc)

@[reducible] def Op.Res : Op → Type
  | .createJob _ => Bool
  | .getJob _ _ => Option Job
  | .listJobs _ _ => List Job
  | .markSynced _ => Unit
  | .claimJob _ => Bool
  | .completeJob _ _ _ => Bool
  | .failJob _ _ => Bool
  | .retryToPending _ => Bool
  | .retryToScheduled _ _ => Bool
  | .resetFailedToPending _ => Bool
  | .promoteScheduledToPending _ => Nat
  | .listUnsynced _ _ => List Job
  | .getPromotionInfo _ => List (Uuid × JobPriority)
  | .initProgress _ => Bool
  | .cancelPendingOrScheduled _ => Bool
  | .requestCancel _ => Bool
  | .cancelJob _ _ => Bool
  | .getByIdempotencyKey _ _ => Option Job
  | .writeProgress _ _ => Option (Option Time)
  | .readFlags _ => Option (Option Time × JobStatus)
  | .xadd _ _ => Unit
  | .xreadgroup _ _ _ => List Message
  | .xautoclaim _ _ _ _ => Option Nat × List Message
  | .xack _ _ => Unit
  | .zadd _ _ => Unit
  | .zrangebyscore _ _ => List Uuid
  | .zrem _ => Unit
  | .now => Time
  | .shouldStop => Bool
  | .timedOut => Bool
  | .startHandler _ _ => Unit
  | .finishHandler _ => Except (String × String) Json
  | .tickFailed _ => Unit
  | .semAcquire _ => Unit
  | .semRelease _ => Unit
  | .createTask _ => Unit

structure World where
  clock : Time
  jobs : Jobs
  streams : Streams (Option Uuid)
  delayed : ZSet Uuid
  /-- Semaphore slots taken, for each worker. -/
  inUse : String → Nat

def World.init : World := ⟨0, .empty, .empty, .empty, fun _ => 0⟩

/-- The clock of Redis, in whole milliseconds. -/
def millis (t : Time) : Int := t / 1000

/-- What the outside world decides at one step: the time that has passed since the
step before, and the answers no program computes. -/
structure Env where
  elapsed : Nat := 0
  answer : Bool := false
  finish : Except (String × String) Json := .ok .null

def reaperName : String := "reaper"

/-- One atomic action. `none` means that it blocks: only `sem.acquire` does. -/
def exec (concurrency : Nat) (o : Op) (e : Env) (w₀ : World) : Option (World × o.Res) :=
  let w := { w₀ with clock := w₀.clock + e.elapsed }
  let sql {α : Type} (r : Jobs × α) : World × α := ({ w with jobs := r.1 }, r.2)
  match o with
  | .createJob n =>
    match Repository.createJob w.jobs n w.clock with
    | some t => some ({ w with jobs := t }, true)
    | none => some (w, false)
  | .getJob id u => some (w, Repository.getJob w.jobs id u)
  | .listJobs f n => some (w, Repository.listJobs w.jobs f n)
  | .markSynced id => some ({ w with jobs := (Repository.markSynced w.jobs id).1 }, ())
  | .claimJob id => some (sql (Repository.claimJob w.jobs id w.clock))
  | .completeJob id r p => some (sql (Repository.completeJob w.jobs id r p w.clock))
  | .failJob id err => some (sql (Repository.failJob w.jobs id err w.clock))
  | .retryToPending id => some (sql (Repository.retryToPending w.jobs id))
  | .retryToScheduled id at_ => some (sql (Repository.retryToScheduled w.jobs id at_))
  | .resetFailedToPending id => some (sql (Repository.resetFailedToPending w.jobs id))
  | .promoteScheduledToPending ids => some (sql (Repository.promoteScheduledToPending w.jobs ids))
  | .listUnsynced t n => some (w, Repository.listUnsynced w.jobs t n)
  | .getPromotionInfo ids => some (w, Repository.getPromotionInfo w.jobs ids)
  | .initProgress id => some (sql (Repository.initProgress w.jobs id))
  | .cancelPendingOrScheduled id =>
    some (sql (Repository.cancelPendingOrScheduled w.jobs id w.clock))
  | .requestCancel id => some (sql (Repository.requestCancel w.jobs id w.clock))
  | .cancelJob id s => some (sql (Repository.cancelJob w.jobs id s w.clock))
  | .getByIdempotencyKey k u => some (w, Repository.getByIdempotencyKey w.jobs k u)
  | .writeProgress id pct => some (sql (Repository.writeProgress w.jobs id pct))
  | .readFlags id => some (w, Repository.readFlags w.jobs id)
  | .xadd s id => some ({ w with streams := w.streams.xadd s (some id) }, ())
  | .xreadgroup c ss n =>
    let r := w.streams.xreadgroup c ss n (millis w.clock)
    some ({ w with streams := r.1 }, r.2.map Message.ofEntry)
  | .xautoclaim s idle start n =>
    let r := w.streams.xautoclaim s reaperName idle start n (millis w.clock)
    some ({ w with streams := r.1 }, (r.2.1, r.2.2.map Message.ofEntry))
  | .xack s i => some ({ w with streams := w.streams.xack s i }, ())
  | .zadd id sc => some ({ w with delayed := w.delayed.zadd id sc }, ())
  | .zrangebyscore hi n => some (w, w.delayed.zrangebyscore 0 hi n)
  | .zrem ids => some ({ w with delayed := w.delayed.zrem ids }, ())
  | .now => some (w, w.clock)
  | .shouldStop => some (w, e.answer)
  | .timedOut => some (w, e.answer)
  | .startHandler _ _ => some (w, ())
  | .finishHandler _ => some (w, e.finish)
  | .tickFailed _ => some (w, ())
  | .semAcquire c =>
    if w.inUse c < concurrency then
      some ({ w with inUse := Function.update w.inUse c (w.inUse c + 1) }, ())
    else none
  | .semRelease c => some ({ w with inUse := Function.update w.inUse c (w.inUse c - 1) }, ())
  | .createTask _ => some (w, ())

abbrev Prg := Prog Op Op.Res

abbrev perform (o : Op) : Prg o.Res := Prog.op o

end JobProcessor
