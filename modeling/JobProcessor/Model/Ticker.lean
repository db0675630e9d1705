import JobProcessor.Model.Worker

/-! The ticker: `app/ticker/runner.py` and `app/queue/delayed.py`. -/

namespace JobProcessor

open Interleave

/-! ### Promotion -/

/-- The non-transactional pipeline of `delayed.promote`: its commands one by one. -/
def xaddAll : List (String × Uuid) → Prg Unit
  | [] => pure ()
  | (stream, id) :: routed => do
    perform (.xadd stream id)
    xaddAll routed

/-- The ids that have a row, each with the stream of its priority. -/
def route (app : App) (ids : List Uuid) (info : List (Uuid × JobPriority)) :
    List (String × Uuid) :=
  ids.filterMap fun i => (info.lookup i).map fun p => (app.settings.streamForPriority p, i)

def promoteDue (app : App) : Prg Nat := do
  let nowEpoch : Time ← perform .now
  let ids : List Uuid ← perform (.zrangebyscore nowEpoch app.settings.tickerBatchSize)
  if ids.isEmpty then pure 0
  else do
    let info : List (Uuid × JobPriority) ← perform (.getPromotionInfo ids)
    xaddAll (route app ids info)
    perform (.zrem ids)
    let _ : Nat ← perform (.promoteScheduledToPending ids)
    pure ids.length

/-- The promotions of `run_forever` up to the next sleep: a full batch is followed by
another at once. `false` when the rounds allowed by the bound are used up. -/
def drainDue (app : App) : Nat → Prg Bool
  | 0 => pure false
  | fuel + 1 => do
    let promoted ← promoteDue app
    if app.settings.tickerBatchSize ≤ promoted then drainDue app fuel else pure true

/-! ### Reconciliation -/

def handoffRows (app : App) : List Job → Nat → Prg Nat
  | [], total => pure total
  | job :: rows, total =>
    if job.status = .scheduled then
      match job.scheduledAt with
      | none => handoffRows app rows total
      | some scheduledAt => do
        perform (.zadd job.id scheduledAt)
        perform (.markSynced job.id)
        handoffRows app rows (total + 1)
    else do
      perform (.xadd (app.settings.streamForPriority job.priority) job.id)
      perform (.markSynced job.id)
      handoffRows app rows (total + 1)

/-- What the session returns for a row: the instance it holds, as it was when it was loaded. -/
def identityMap (instances : List Job) (row : Job) : Job :=
  (instances.find? fun job => job.id = row.id).getD row

theorem mem_identityMap {instances page : List Job} {job : Job}
    (h : job ∈ page.map (identityMap instances)) : job ∈ instances ∨ job ∈ page := by
  obtain ⟨row, hrow, rfl⟩ := List.mem_map.1 h
  unfold identityMap
  cases hf : instances.find? fun job => job.id = row.id with
  | none => exact .inr hrow
  | some job => exact .inl (List.mem_of_find?_eq_some hf)

/-- The page loop; `none` when the rounds allowed by the bound are used up. The session still
holds the instances of the page before. -/
def reconcileLoop (app : App) (cutoff : Time) : Nat → List Job → Nat → Prg (Option Nat)
  | 0, _, _ => pure none
  | fuel + 1, instances, total => do
    let page : List Job ← perform (.listUnsynced cutoff app.settings.reconcileBatchSize)
    let rows := page.map (identityMap instances)
    if rows.isEmpty then pure (some total)
    else do
      let total ← handoffRows app rows total
      if rows.length < app.settings.reconcileBatchSize then pure (some total)
      else reconcileLoop app cutoff fuel rows total

def reconcileOrphans (app : App) (fuel : Nat) : Prg (Option Nat) := do
  let now : Time ← perform .now
  reconcileLoop app (now - app.settings.reconcileGraceS) fuel [] 0

/-! ### The reaper -/

def reapOne (app : App) (m : Message) (jobId : Uuid) : Prg (Except Exc Unit) := do
  let row : Option Job ← perform (.getJob jobId none)
  match row with
  | none => do
    perform (.xack m.stream m.messageId)
    pure (.ok ())
  | some job =>
    if job.status.terminal then do
      perform (.xack m.stream m.messageId)
      pure (.ok ())
    else if job.status = .processing then do
      match ← scheduleRetryOrFail app job (errorJson "WorkerLost" "reclaimed by reaper") with
      | .error exc => pure (.error exc)
      | .ok _ => do
        perform (.xack m.stream m.messageId)
        pure (.ok ())
    else if job.isSyncedToRedis then do
      perform (.xack m.stream m.messageId)
      pure (.ok ())
    else
      match job.status, job.scheduledAt with
      | .scheduled, some scheduledAt => do
        perform (.zadd job.id scheduledAt)
        perform (.markSynced job.id)
        perform (.xack m.stream m.messageId)
        pure (.ok ())
      | _, _ => do
        perform (.xadd (app.settings.streamForPriority job.priority) job.id)
        perform (.markSynced job.id)
        perform (.xack m.stream m.messageId)
        pure (.ok ())

/-- Why a pass of the ticker ends early: an exception, or the bound on its rounds. -/
inductive Stop where
  | raised (exc : Exc)
  | outOfFuel

def reapMessages (app : App) : List Message → Nat → Prg (Except Stop Nat)
  | [], handled => pure (.ok handled)
  | m :: ms, handled =>
    match m.jobId with
    | none => do
      perform (.xack m.stream m.messageId)
      reapMessages app ms (handled + 1)
    | some jobId => do
      match ← reapOne app m jobId with
      | .error exc => pure (.error (.raised exc))
      | .ok () => reapMessages app ms (handled + 1)

/-- `int(visibility_timeout_s * 1000)`, in floating point. -/
def Settings.visibilityMs (s : Settings) : Int :=
  s.visibilityTimeoutS.sign *
    ((Binary64.quot s.visibilityTimeoutS.natAbs 1000000).mul 1000).toNat

def reapStream (app : App) (stream : String) : Nat → Nat → Nat → Prg (Except Stop Nat)
  | 0, _, _ => pure (.error .outOfFuel)
  | fuel + 1, cursor, handled => do
    let resp : Option Nat × List Message ← perform
      (.xautoclaim stream app.settings.visibilityMs cursor app.settings.reaperBatchSize)
    match ← reapMessages app resp.2 handled with
    | .error s => pure (.error s)
    | .ok handled =>
      match resp.1 with
      | none => pure (.ok handled)
      | some cursor => reapStream app stream fuel cursor handled

def reapStreams (app : App) (fuel : Nat) : List String → Nat → Prg (Except Stop Nat)
  | [], handled => pure (.ok handled)
  | s :: ss, handled => do
    match ← reapStream app s fuel 0 handled with
    | .error e => pure (.error e)
    | .ok handled => reapStreams app fuel ss handled

def reapStale (app : App) (fuel : Nat) : Prg (Except Stop Nat) :=
  reapStreams app fuel app.settings.orderedStreams 0

/-! ### The tick loop -/

/-- The reaper part of a tick: what to put into `last_reap`, or `none` to stop. An
exception leaves it unchanged. -/
def reapTick (app : App) (fuel : Nat) (now lastReap : Time) : Prg (Option Time) :=
  if app.settings.reaperIntervalS ≤ now - lastReap then do
    match ← reapStale app fuel with
    | .ok _ => pure (some now)
    | .error (.raised exc) => do
      perform (.tickFailed exc)
      pure (some lastReap)
    | .error .outOfFuel => pure none
  else pure (some lastReap)

def reconcileTick (app : App) (fuel : Nat) (now lastReconcile : Time) : Prg (Option Time) :=
  if app.settings.reconcileIntervalS ≤ now - lastReconcile then do
    match ← reconcileOrphans app fuel with
    | some _ => pure (some now)
    | none => pure none
  else pure (some lastReconcile)

/-- `run_forever`, at most `fuel` ticks. Sleeping is the passing of time between
two actions. -/
def tickerLoop (app : App) : Nat → Time → Time → Prg Unit
  | 0, _, _ => pure ()
  | fuel + 1, lastReconcile, lastReap => do
    let stop : Bool ← perform .shouldStop
    if stop then pure ()
    else do
      let _ ← promoteDue app
      let now : Time ← perform .now
      match ← reconcileTick app fuel now lastReconcile with
      | none => pure ()
      | some lastReconcile =>
        match ← reapTick app fuel now lastReap with
        | none => pure ()
        | some lastReap => tickerLoop app fuel lastReconcile lastReap

end JobProcessor
