import JobProcessor.Model.System
import JobProcessor.Store.Groups

/-! The system from an empty Redis on, with the consumer groups of its streams:
`ensure_group` of `app/queue/consumer.py`, the lifespan of `app/main.py`, and the start
of the two `run_forever`. A server that keeps groups answers a read without one with
`NOGROUP`, and a group created late starts behind what its stream already holds. -/

namespace JobProcessor

open Interleave Store

inductive BootOp where
  | ensureGroup (stream : String)
  | op (o : Op)

@[reducible] def BootOp.Res : BootOp → Type
  | .ensureGroup _ => Unit
  | .op o => o.Res

structure BootWorld where
  clock : Time
  jobs : Jobs
  log : Log (Option Uuid)
  delayed : ZSet Uuid
  inUse : String → Nat
  /-- A command has been answered with `NOGROUP`. -/
  noGroup : Bool

namespace BootWorld

def init : BootWorld := ⟨0, .empty, .empty, .empty, fun _ => 0, false⟩

/-- The same world with the delivery states in place of the groups. -/
def view (w : BootWorld) : World := ⟨w.clock, w.jobs, w.log.view, w.delayed, w.inUse⟩

end BootWorld

def Message.ofRecord (r : Record (Option Uuid)) : Message := ⟨r.stream, r.id, r.fields⟩

/-- One atomic action. `ensure_group` passes over `BUSYGROUP`; the time it takes counts
for the next action. -/
def bootExec (concurrency : Nat) (o : BootOp) (e : Env) (w₀ : BootWorld) :
    Option (BootWorld × o.Res) :=
  let w := { w₀ with clock := w₀.clock + e.elapsed }
  match o with
  | .ensureGroup s => some ({ w₀ with log := (w₀.log.xgroupCreate s).getD w₀.log }, ())
  | .op (.xadd s id) => some ({ w with log := w.log.xadd s (some id) }, ())
  | .op (.xreadgroup c ss n) =>
    match w.log.xreadgroup c ss n (millis w.clock) with
    | none => some ({ w with noGroup := true }, [])
    | some (l, rs) => some ({ w with log := l }, rs.map Message.ofRecord)
  | .op (.xautoclaim s idle start n) =>
    match w.log.xautoclaim s reaperName idle start n (millis w.clock) with
    | none => some ({ w with noGroup := true }, (none, []))
    | some (l, cursor, rs) => some ({ w with log := l }, (cursor, rs.map Message.ofRecord))
  | .op (.xack s i) => some ({ w with log := w.log.xack s i }, ())
  | .op o =>
    (exec concurrency o e w₀.view).map fun r =>
      ({ w₀ with clock := r.1.clock, jobs := r.1.jobs, delayed := r.1.delayed,
                 inUse := r.1.inUse }, r.2)

abbrev BootPrg := Prog BootOp BootOp.Res

/-- `for stream in streams: await ensure_group(…)`, then `p`. -/
def ensureAll {α : Type} : List String → BootPrg α → BootPrg α
  | [], p => p
  | s :: ss, p => .act (.ensureGroup s) fun _ => ensureAll ss p

/-- `reap_stale` ensures the group of a stream before it goes over its pending list. -/
def ensuredBefore : Op → List String
  | .xautoclaim s _ 0 _ => [s]
  | _ => []

def lift {α : Type} : Prg α → BootPrg α
  | .pure a => .pure a
  | .act o k => ensureAll (ensuredBefore o) (.act (.op o) fun r => lift (k r))

/-- The lifespan of an API process up to its `yield`, or a process of the system. -/
inductive BootProc where
  | lifespan
  | job (p : Proc)

def Proc.runsForever : Proc → Bool
  | .workerLoop _ _ => true
  | .ticker _ => true
  | _ => false

def BootProc.isLifespan : BootProc → Bool
  | .lifespan => true
  | .job _ => false

def bootBody (app : App) : BootProc → BootPrg Out
  | .lifespan => ensureAll app.settings.orderedStreams (.pure .stopped)
  | .job p =>
    if p.runsForever then ensureAll app.settings.orderedStreams (lift (body app p))
    else lift (body app p)

abbrev BootEv := Event BootOp BootOp.Res BootProc Out

abbrev BootState := Shared BootWorld BootOp BootOp.Res BootProc Out

abbrev BootCfg := Config BootWorld BootOp BootOp.Res BootProc Out

/-- A lifespan does no job: in the system it is a worker that makes no rounds. -/
def BootProc.view : BootProc → Proc
  | .lifespan => .workerLoop "" 0
  | .job p => p

def BootEv.view : BootEv → Option Ev
  | .start pid p => some (.start pid p.view)
  | .act _ (.ensureGroup _) _ => none
  | .act pid (.op o) r => some (.act pid o r)
  | .ret pid a => some (.ret pid a)
  | .crash pid => some (.crash pid)

def BootState.view (σ : BootState) : State := ⟨σ.world.view, σ.log.filterMap BootEv.view⟩

/-- An API process serves requests: its lifespan has come to the `yield`. -/
def served (l : List BootEv) : Bool :=
  l.any fun ev =>
    match ev with
    | .ret pid _ => (proc? pid l).any BootProc.isLifespan
    | _ => false

/-- Requests are served only then; `promote_due` is called by the ticker alone. -/
def bootAllows (σ : BootState) : BootProc → Bool
  | .lifespan => true
  | .job .promoteDue => false
  | .job p => (p.runsForever || served σ.log) && allows (BootState.view σ) p

def bootForks : BootOp → Option BootProc
  | .ensureGroup _ => none
  | .op o => (forks o).map .job

def bootSystem (app : App) : Sys BootWorld BootOp BootOp.Res Env BootProc Out where
  init := BootWorld.init
  exec := bootExec app.settings.workerConcurrency
  body := bootBody app
  forks := bootForks
  allows := bootAllows

end JobProcessor
