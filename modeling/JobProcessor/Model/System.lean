import JobProcessor.Model.Api

/-! The whole system: any number of requests, workers and their tasks, and one
ticker, interleaved action by action over the shared world. -/

namespace JobProcessor

open Interleave

inductive Out where
  | response (r : Except Exc Response)
  | outcome (r : Except Exc Outcome)
  | count (n : Nat)
  | stopped

def body (app : App) : Proc → Prg Out
  | .submitJob user newId sub => do pure (.response (← submitJob app user newId sub))
  | .getJob user id => do pure (.response (← getJobRoute user id))
  | .retryJob user id => do pure (.response (← retryJob app user id))
  | .cancelJobRoute user id => do pure (.response (← cancelJobRoute user id))
  | .listJobs user status type priority limit cursor => do
    pure (.response (← listJobsRoute app user status type priority limit cursor))
  | .workerLoop consumer fuel => do
    workerLoop app consumer fuel
    pure .stopped
  | .runOne consumer m => do pure (.outcome (← runOne app consumer m))
  | .ticker fuel => do
    tickerLoop app fuel 0 0
    pure .stopped
  | .promoteDue => do pure (.count (← promoteDue app))

abbrev Ev := Event Op Op.Res Proc Out

abbrev State := Shared World Op Op.Res Proc Out

abbrev Cfg := Config World Op Op.Res Proc Out

/-- The processes started so far, newest first. -/
def started : List Ev → List (Nat × Proc)
  | [] => []
  | .start pid p :: l => (pid, p) :: started l
  | _ :: l => started l

/-- A fresh id of `uuid.uuid4` is one no earlier submission was given, and one
ticker runs at a time. Message tasks are created by worker loops only. -/
def allows (σ : State) : Proc → Bool
  | .submitJob _ newId _ => (started σ.log).all fun p =>
    match p.2 with
    | .submitJob _ id _ => id ≠ newId
    | _ => true
  | .runOne _ _ => false
  | .ticker _ => (started σ.log).all fun p => !(p.2.isTicker && live p.1 σ.log)
  | .promoteDue => (started σ.log).all fun p => !(p.2.isTicker && live p.1 σ.log)
  | _ => true

def forks : Op → Option Proc
  | .createTask p => some p
  | _ => none

def system (app : App) : Sys World Op Op.Res Env Proc Out where
  init := World.init
  exec := exec app.settings.workerConcurrency
  body := body app
  forks := forks
  allows := allows

def firstMinute (t : Time) : Codec.Datetime.Fields :=
  ⟨1970, 1, 1, 0, 0, t.toNat / 1000000 % 60, t.toNat % 1000000, some 0⟩

theorem firstMinute_ok (t : Time) : (firstMinute t).ok = true := by
  have hs : t.toNat / 1000000 % 60 < 60 := Nat.mod_lt _ (by decide)
  have hus : t.toNat % 1000000 < 1000000 := Nat.mod_lt _ (by decide)
  simp [firstMinute, Codec.Datetime.Fields.ok, hs, hus, Codec.Datetime.daysInMonth,
    Codec.Datetime.dayLength]

def firstMinuteDriver : Driver where
  toDatetime t := ⟨firstMinute t, firstMinute_ok t⟩
  toTime d := d.fields.second * 1000000 + d.fields.microsecond

/-- The default settings, with pure functions simple enough to replay schedules. -/
def defaultApp : App where
  settings := { checkTimeoutInvariant := Settings.default_timeouts }
  validatePayload type payload :=
    match type with
    | .email => .ok (.item (.email payload))
    | .webhook => .ok (.item (.webhook payload))
    | .report => .ok (.item (.report payload))
    | .batch => .ok (.batch [])
  sha256 bytes := String.ofList (bytes.map Char.ofNat)
  driver := firstMinuteDriver
  showSeconds _ := "45.0"

end JobProcessor
