import JobProcessor.Model.Payloads
import JobProcessor.Proofs.Settling

/-! One message, handled with nothing in between: how the attempt ends decides the
row, the queue and the acknowledgement together. -/

namespace JobProcessor

open Interleave Prog Store

/-! ### How an attempt ends -/

inductive Ending where
  | ownerless
  | rejected (message : String)
  | raised (type message : String)
  | timeout
  | cancelled (summary : Json)
  | returned (result : Json)

def Ending.ofHandler : Except HandlerExc Json → Ending
  | .error (.cancelled summary) => .cancelled summary
  | .error .timeout => .timeout
  | .error (.raised type message) => .raised type message
  | .ok result => .returned result

def Ending.label : Ending → Label
  | .ownerless => .droppedOwnerless
  | .rejected _ => .policyRejected
  | .raised _ _ => .retried
  | .timeout => .timeout
  | .cancelled _ => .cancelled
  | .returned _ => .completed

def Ending.status (settings : Settings) (row : Job) : Ending → JobStatus
  | .ownerless => .failed
  | .rejected _ => .failed
  | .raised _ _ => retriedStatus settings row
  | .timeout => retriedStatus settings row
  | .cancelled _ => .cancelled
  | .returned _ => .completed

def handlerOf (app : App) (row : Job) (payload : Payload) : Prg (Except HandlerExc Json) :=
  runWithTimeout (runHandler row.type payload
    { jobId := row.id, interval := app.settings.cancelPollIntervalS })

/-- How an attempt at `row` ends, out of the replies `g`: without a handler, or as the
handler does that is run in it. -/
inductive AttemptEnds (app : App) (row : Job) (g : Hist) : Ending → Prop where
  | ownerless : row.userId = none → NoHandler g → AttemptEnds app row g .ownerless
  | rejected (message : String) : row.userId ≠ none →
    app.validatePayload row.type row.payload = .error (.policy message) → NoHandler g →
      AttemptEnds app row g (.rejected message)
  | invalid (type message : String) : row.userId ≠ none →
    app.validatePayload row.type row.payload = .error (.invalid type message) → NoHandler g →
      AttemptEnds app row g (.raised type message)
  | handled (payload : Payload) (env : Nat → Env) (w w' : World) (h h' : Hist)
      (r : Except HandlerExc Json) : row.userId ≠ none →
    app.validatePayload row.type row.payload = .ok payload → 
    (handlerOf app row payload).trace (exec app.settings.workerConcurrency) env w h =
      some (w', r, h') → h' <:+ g → AttemptEnds app row g (.ofHandler r)

/-! ### While the worker holds the job -/

/-- A worker executes `row`. Nothing has moved since `w₀` but the row itself. -/
structure Running (w₀ : World) (row : Job) (w : World) (h : Hist) : Prop extends InHand row w where
  others : ∀ i, i ≠ row.id → w.jobs.find? i = w₀.jobs.find? i
  streams : w.streams = w₀.streams
  delayed : w.delayed = w₀.delayed
  silent : commands h = []

def Op.whileRunning (id : Uuid) : Op → Prop
  | .now => True
  | .timedOut => True
  | .startHandler _ _ => True
  | .finishHandler _ => True
  | .readFlags _ => True
  | .writeProgress i _ => i = id
  | .initProgress i => i = id
  | _ => False

section Running

variable {n : Nat} {app : App} {w₀ w w' : World} {row : Job} {h : Hist} {o : Op} {e : Env}
  {r : o.Res} {T : Time}

theorem Running.step (hr : Running w₀ row w h) (ho : o.whileRunning row.id)
    (he : exec n o e w = some (w', r)) : Running w₀ row w' (⟨o, r⟩ :: h) := by
  have hredis : o.toRedis = false := by
    cases o <;> first | exact ho.elim | rfl
  have hcreate : ∀ m, o ≠ .createJob m := by
    rintro m rfl
    exact ho
  obtain ⟨hst, hde⟩ := exec_redis he hredis
  refine ⟨⟨hr.processing, ?_⟩, ?_, hst.trans hr.streams, hde.trans hr.delayed, ?_⟩
  · obtain ⟨p, hp⟩ := hr.found
    rw [exec_row_some he hp]
    cases o <;> first | exact ho.elim | exact ⟨p, rfl⟩ | skip
    · exact ⟨some 0, by simp [Op.onRow, ho.symm, hr.processing]⟩
    · exact ⟨some _, by simp [Op.onRow, ho.symm, hr.processing]; rfl⟩
  · intro i hi
    rw [← hr.others i hi]
    apply exec_row_other he hcreate
    cases o <;> simp_all [Op.whileRunning, Op.writes]
  · rw [commands_cons, hredis, if_neg (by simp)]
    exact hr.silent

theorem Running.closed {settings : Settings} {status : JobStatus} {row' : Job} {g : Hist}
    (hr : Running w₀ row w h) (hc : Closed settings w (commands h) row status row' w' g) :
    Closed settings w₀ [] row status row' w' g :=
  hc.rebase hr.others hr.streams hr.delayed hr.silent

theorem runHandler_whileRunning (type : JobType) (payload : Payload) (ctx : PgJobContext) :
    Uses Valid (Op.whileRunning ctx.jobId) (runHandler type payload ctx) := by
  have hbatch : ∀ items, Uses Valid (Op.whileRunning ctx.jobId)
      (handleBatch items.length 0 items ctx { total := items.length }) := by
    intro items
    refine (handleBatch_uses items.length 0 items ctx _).mono ?_ fun _ _ h => h
    intro g o ho
    cases o <;> first | exact ho.elim | exact ho | trivial
  simp only [runHandler, op_bind, mpure_eq]
  refine Uses.act trivial fun _ _ => ?_
  split
  · exact hbatch _
  · trivial
  · refine Uses.act trivial fun r _ => ?_
    cases r <;> trivial

theorem handlerOf_ends (payload : Payload) (hr : Running w₀ row w h) :
    Ends (exec n) (fun _ => True) (fun w' _ g => Running w₀ row w' g) (handlerOf app row payload)
      w h := by
  have huses : Uses Valid (Op.whileRunning row.id) (handlerOf app row payload) :=
    runWithTimeout_uses trivial (runHandler_whileRunning row.type payload
      { jobId := row.id, interval := app.settings.cancelPollIntervalS })
  refine (((uses_iff h).2 huses).ends (fun g o e w _ ho hg => ?_) hr).mono fun _ _ _ hp => hp.2
  obtain ⟨w', r, he⟩ := exec_total (n := n) (o := o) (e := e) (w := w) (by rintro c rfl; exact ho)
  exact ⟨w', r, he, exec_valid he, hg.step ho he⟩

theorem retry_ends (hT : app.settings.plans row T = true) (hr : Running w₀ row w h)
    (error : Json) (label : Label) :
    Ends (exec n) (fun _ => True)
      (fun w' out g => w'.clock ≤ T → out = .ok ⟨true, label⟩ ∧ (NoHandler h → NoHandler g) ∧
        ∃ row', Closed app.settings w₀ [] row (retriedStatus app.settings row) row' w' g)
      (retry app row error label) w h := by
  refine (scheduleRetryOrFail_ends hT hr.toInHand error _).bind ?_
  intro w' out g hdecided
  cases out with
  | error exc =>
    intro hle
    obtain ⟨delay, -, hout, -⟩ := hdecided hle
    cases hout
  | ok won =>
    intro hle
    obtain ⟨delay, -, hout, hn, row', -, hcl, -⟩ := hdecided hle
    cases hout
    exact ⟨rfl, hn, row', hr.closed hcl⟩

theorem settle_ends (hT : app.settings.plans row T = true) (hr : Running w₀ row w h)
    (r : Except HandlerExc Json) :
    Ends (exec n) (fun _ => True)
      (fun w' out g => w'.clock ≤ T → out = .ok ⟨true, (Ending.ofHandler r).label⟩ ∧ ∃ row',
        Closed app.settings w₀ [] row ((Ending.ofHandler r).status app.settings row) row' w' g)
      (settle app row r) w h := by
  have hst := hr.processing
  match r with
  | .error (.cancelled summary) =>
    intro e _
    obtain ⟨w', b, he⟩ := exec_total (n := n) (o := .cancelJob row.id summary) (e := e) (w := w) (by simp)
    obtain rfl : b = true := hr.won rfl he
    obtain ⟨p, hcl⟩ := hr.close (h := h) app.settings rfl he .cancelled (by simp [Op.onRow, hst]) rfl
    exact ⟨w', true, he, fun _ => ⟨rfl, _, hr.closed hcl⟩⟩
  | .error .timeout =>
    exact (retry_ends hT hr _ _).mono fun _ _ _ hp hle => ⟨(hp hle).1, (hp hle).2.2⟩
  | .error (.raised type message) =>
    exact (retry_ends hT hr _ _).mono fun _ _ _ hp hle => ⟨(hp hle).1, (hp hle).2.2⟩
  | .ok result =>
    simp only [settle, op_bind, mpure_eq]
    generalize (if row.type = .batch then some 100 else none : Option Int) = progress
    intro e _
    obtain ⟨w', b, he⟩ := exec_total (n := n) (o := .completeJob row.id result progress) (e := e)
      (w := w) (by simp)
    obtain rfl : b = true := hr.won rfl he
    obtain ⟨p, hcl⟩ := hr.close (h := h) app.settings rfl he .completed (by simp [Op.onRow, hst]) rfl
    exact ⟨w', true, he, fun _ => ⟨rfl, _, hr.closed hcl⟩⟩

theorem fail_ends (settings : Settings) (hr : Running w₀ row w h) (error : Json) (label : Label) :
    Ends (exec n) (fun _ => True)
      (fun w' out g => out = .ok ⟨true, label⟩ ∧ (NoHandler h → NoHandler g) ∧ ∃ row',
        Closed settings w₀ [] row .failed row' w' g)
      (.act (.failJob row.id error) fun won : Bool =>
        .pure (.ok ⟨won, label⟩) : Prg (Except Exc Outcome)) w h := by
  have hst := hr.processing
  intro e _
  obtain ⟨w', b, he⟩ := exec_total (n := n) (o := .failJob row.id error) (e := e) (w := w) (by simp)
  obtain rfl : b = true := hr.won rfl he
  obtain ⟨p, hcl⟩ := hr.close (h := h) settings rfl he .failed (by simp [Op.onRow, hst]) rfl
  exact ⟨w', true, he, rfl, fun hn => hn.cons (by simp), _, hr.closed hcl⟩

def Attempted (app : App) (w₀ : World) (row : Job) (w : World) (out : Except Exc Outcome)
    (g : Hist) : Prop :=
  ∃ ending row', AttemptEnds app row g ending ∧ out = .ok ⟨true, ending.label⟩ ∧
    Closed app.settings w₀ [] row (ending.status app.settings row) row' w g

/-- A job refused before its handler: without an owner, or against the policy. -/
def App.refuses (app : App) (row : Job) : Prop :=
  row.userId = none ∨ ∃ message, app.validatePayload row.type row.payload = .error (.policy message)

theorem runClaimed_ends (hu : row.userId ≠ none) (hr : Running w₀ row w h) (hn : NoHandler h)
    (hT : app.refuses row ∨ app.settings.plans row T = true) :
    Ends (exec app.settings.workerConcurrency) (fun _ => True)
      (fun w' out g => w'.clock ≤ T → Attempted app w₀ row w' out g) (runClaimed app row) w h := by
  unfold runClaimed
  split
  · rename_i message hv
    refine (fail_ends app.settings hr _ _).mono ?_
    rintro w' out g ⟨rfl, hg, row', hcl⟩ -
    exact ⟨.rejected message, row', .rejected message hu hv (hg hn), rfl, hcl⟩
  · rename_i type message hv
    have hplans := hT.resolve_left fun hrefused => by
      simp [App.refuses, hu, hv] at hrefused
    refine (retry_ends hplans hr _ _).mono ?_
    intro w' out g hp hle
    obtain ⟨rfl, hg, row', hcl⟩ := hp hle
    exact ⟨.raised type message, row', .invalid type message hu hv (hg hn), rfl, hcl⟩
  · rename_i payload hv
    have hplans := hT.resolve_left fun hrefused => by
      simp [App.refuses, hu, hv] at hrefused
    refine ((handlerOf_ends payload hr).traced ⟨{}, trivial⟩).bind ?_
    rintro w' r h' ⟨hr', env, ht⟩
    refine (settle_ends hplans hr' r).suffix.mono ?_
    rintro w'' out g ⟨hp, hs⟩ hle
    obtain ⟨rfl, row', hcl⟩ := hp hle
    exact ⟨.ofHandler r, row', .handled payload env w w' h h' r hu hv ht hs, rfl, hcl⟩

theorem Attempted.unclaimed {now : Time} {out : Except Exc Outcome} {g : Hist}
    (ha : Attempted app w₀ (claimedRow row now) w out g) : Attempted app w₀ row w out g := by
  obtain ⟨ending, row', he, hout, hc⟩ := ha
  refine ⟨ending, row', ?_, hout, ?_⟩
  · cases he with
    | ownerless hu hn => exact .ownerless hu hn
    | rejected message hu hv hn => exact .rejected message hu hv hn
    | invalid type message hu hv hn => exact .invalid type message hu hv hn
    | handled payload env w w' h h' r hu hv ht hs =>
      exact .handled payload env w w' h h' r hu hv ht hs
  · have hs : ending.status app.settings (claimedRow row now) = ending.status app.settings row := by
      cases ending <;> rfl
    rw [hs] at hc
    exact ⟨hc.found, hc.fixed, hc.reached, hc.others, hc.streams, hc.delayed, hc.scheduled,
      hc.issued, hc.synced⟩

theorem processJob_ends (hT : app.refuses row ∨ app.settings.plans row T = true) {id : Uuid}
    (hf : w.jobs.find? id = some row) (hc : row.status.claimable = true) :
    Ends (exec app.settings.workerConcurrency) (fun _ => True)
      (fun w' out g => w'.clock ≤ T → Attempted app w row w' out g) (processJob app id) w [] := by
  obtain rfl : row.id = id := Table.find?_key hf
  simp only [processJob, op_bind, mpure_eq]
  intro e _
  obtain ⟨w₁, he, hrow⟩ := exec_claimed (n := app.settings.workerConcurrency) (e := e) hf hc
  have hothers : ∀ i, i ≠ row.id → w₁.jobs.find? i = w.jobs.find? i := by
    intro i hi
    exact exec_row_other he (by simp) (by simpa [Op.writes] using hi)
  obtain ⟨hst, hde⟩ := exec_redis he rfl
  refine ⟨w₁, true, he, fun e' _ => ⟨{ w₁ with clock := w₁.clock + e'.elapsed },
    some (claimedRow row w₁.clock), ?_, ?_⟩⟩
  · exact exec_getClaimed hrow
  · have hrun : Running w (claimedRow row w₁.clock) { w₁ with clock := w₁.clock + e'.elapsed }
        [⟨.getJob row.id none, some (claimedRow row w₁.clock)⟩, ⟨.claimJob row.id, true⟩] := by
      exact ⟨⟨rfl, _, hrow⟩, hothers, hst, hde, rfl⟩
    have hn : NoHandler [⟨.getJob row.id none, some (claimedRow row w₁.clock)⟩,
        (⟨.claimJob row.id, true⟩ : Reply Op Op.Res)] := by
      simp [NoHandler]
    refine (?_ : Ends _ _ (fun w' out g => w'.clock ≤ T →
      Attempted app w (claimedRow row w₁.clock) w' out g) _ _ _).mono
        fun _ _ _ ha hle => (ha hle).unclaimed
    dsimp only
    split
    · rename_i hu
      refine (fail_ends app.settings hrun _ _).mono ?_
      rintro w' out g ⟨rfl, hg, row', hcl⟩ -
      exact ⟨.ownerless, row', .ownerless (Option.isNone_iff_eq_none.1 hu) (hg hn), rfl, hcl⟩
    · rename_i hu
      have hu' : (claimedRow row w₁.clock).userId ≠ none := fun h =>
        hu (Option.isNone_iff_eq_none.2 h)
      split
      · intro e'' _
        obtain ⟨w₂, b, he₂⟩ := exec_total (n := app.settings.workerConcurrency)
          (o := .initProgress (claimedRow row w₁.clock).id) (e := e'')
          (w := { w₁ with clock := w₁.clock + e'.elapsed }) (by simp)
        exact ⟨w₂, b, he₂, runClaimed_ends hu' (hrun.step rfl he₂) (hn.cons (by simp)) hT⟩
      · exact runClaimed_ends hu' hrun hn hT

theorem processJob_skips {id : Uuid}
    (hc : ∀ row, w.jobs.find? id = some row → row.status.claimable = false) :
    Ends (exec n) (fun _ => True)
      (fun w' out g => out = .ok ⟨true, .skipped⟩ ∧ w'.jobs.rows = w.jobs.rows ∧
        w'.streams = w.streams ∧ w'.delayed = w.delayed ∧ NoHandler g ∧ commands g = [])
      (processJob app id) w [] := by
  simp only [processJob, op_bind, mpure_eq]
  intro e _
  obtain ⟨w₁, b, he⟩ := exec_total (n := n) (o := .claimJob id) (e := e) (w := w) (by simp)
  obtain rfl : b = false := by
    have hwon := exec_target he rfl
    change b = _ at hwon
    rw [hwon, Option.any_eq_false]
    intro row hf
    simp [Op.guard, hc row hf]
  obtain ⟨hst, hde⟩ := exec_redis he rfl
  have hrows : w₁.jobs.rows = w.jobs.rows := by
    simp only [exec, Option.some.injEq, Prod.mk.injEq] at he
    rw [← he.1]
    unfold Repository.claimJob
    rw [Repository.rows_updateWhere hc]
  exact ⟨w₁, false, he, rfl, hrows, hst, hde, by simp [NoHandler], rfl⟩

end Running

/-! ### The message -/

/-- The job of message `e` after an attempt that leads to `status`: the row, the queue,
and every command sent to Redis on the way. -/
structure JobSettled (settings : Settings) (e : Entry (Option Uuid)) (row : Job)
    (status : JobStatus) (row' : Job) (w w' : World) (g : Hist) : Prop where
  found : w'.jobs.find? row.id = some row'
  fixed : row'.fixed = row.fixed
  reached : row'.status = status
  ended : status ≠ .processing
  others : ∀ i, i ≠ row.id → w'.jobs.find? i = w.jobs.find? i
  streams : w'.streams = (if status = .pending then
    w.streams.xadd (settings.streamForPriority row.priority) (some row.id) else w.streams).xack
      e.stream e.id
  delayed : status ≠ .scheduled → w'.delayed = w.delayed
  scheduled : status = .scheduled →
    ∃ t, row'.scheduledAt = some t ∧ w'.delayed = w.delayed.zadd row.id t
  issued : commands g = .xack e.stream e.id :: handoff settings row'
  synced : status.claimable = true → row'.isSyncedToRedis = true

/-- One message, one settled outcome. The entry `e` is acknowledged. A message that
names no job, or one that is not there or not claimable, leaves everything else; the
job of any other message ends where its attempt puts it. -/
structure MessageSettled (app : App) (e : Entry (Option Uuid)) (w w' : World) (outcome : Outcome)
    (g : Hist) : Prop where
  acked : w'.streams.find? e.id = some { e with state := .acked }
  untouched :
    (∀ j row, e.fields = some j → w.jobs.find? j = some row → row.status.claimable = false) →
      w'.jobs.rows = w.jobs.rows ∧ w'.streams = w.streams.xack e.stream e.id ∧
        w'.delayed = w.delayed ∧ NoHandler g ∧ commands g = [.xack e.stream e.id]
  settled : ∀ j row, e.fields = some j → w.jobs.find? j = some row → row.status.claimable = true →
    ∃ ending row', AttemptEnds app row g ending ∧ outcome = ⟨true, ending.label⟩ ∧
      JobSettled app.settings e row (ending.status app.settings row) row' w w' g

section Message

variable {n : Nat} {app : App} {e : Entry (Option Uuid)} {w w' : World} {row : Job} {h : Hist}
  {T : Time}

theorem Ending.status_ne_processing (settings : Settings) (row : Job) (ending : Ending) :
    ending.status settings row ≠ .processing := by
  cases ending <;>
    first | exact retriedStatus_ne_processing settings row | exact fun h => nomatch h

theorem find?_acked (he : e ∈ w.streams.entries) (hp : e.isPending = true) (stream : String)
    (id : Uuid) :
    (w.streams.xack e.stream e.id).find? e.id = some { e with state := .acked } ∧
      ((w.streams.xadd stream (some id)).xack e.stream e.id).find? e.id =
        some { e with state := .acked } := by
  have hf := Streams.find?_of_mem he
  have hne : e.id ≠ w.streams.next := Nat.ne_of_lt (w.streams.bound e he)
  constructor
  · simp [Streams.find?_xack, hf, hp]
  · simp [Streams.find?_xack, Streams.find?_xadd, hf, hp, hne]

theorem AttemptEnds.cons {ending : Ending} (ha : AttemptEnds app row h ending)
    {x : Reply Op Op.Res} (hx : ∀ i type, x.1 ≠ .startHandler i type) :
    AttemptEnds app row (x :: h) ending := by
  cases ha with
  | ownerless hu hn => exact .ownerless hu (hn.cons hx)
  | rejected message hu hv hn => exact .rejected message hu hv (hn.cons hx)
  | invalid type message hu hv hn => exact .invalid type message hu hv (hn.cons hx)
  | handled payload env w w' h₀ h₁ r hu hv ht hs =>
    exact .handled payload env w w' h₀ h₁ r hu hv ht (hs.trans (List.suffix_cons x h))

theorem Closed.acked {settings : Settings} {status : JobStatus} {row' : Job}
    (hc : Closed settings w [] row status row' w' h) (hs : status ≠ .processing) (elapsed : Nat)
    (e : Entry (Option Uuid)) :
    JobSettled settings e row status row' w
      { w' with
        clock := w'.clock + elapsed
        streams := w'.streams.xack e.stream e.id } (⟨.xack e.stream e.id, ()⟩ :: h) where
  found := hc.found
  fixed := hc.fixed
  reached := hc.reached
  ended := hs
  others := hc.others
  streams := by rw [hc.streams]
  delayed := hc.delayed
  scheduled := hc.scheduled
  issued := by
    change .xack e.stream e.id :: commands h = _
    rw [hc.issued, List.append_nil]
  synced := hc.synced

theorem messageSettled_of_skip {outcome : Outcome} (he : e ∈ w.streams.entries)
    (hp : e.isPending = true)
    (hc : ∀ j row, e.fields = some j → w.jobs.find? j = some row → row.status.claimable = false)
    (hrows : w'.jobs.rows = w.jobs.rows) (hst : w'.streams = w.streams.xack e.stream e.id)
    (hde : w'.delayed = w.delayed) (hn : NoHandler h)
    (hcom : commands h = [.xack e.stream e.id]) : MessageSettled app e w w' outcome h where
  acked := hst ▸ (find?_acked he hp "" 0).1
  untouched _ := ⟨hrows, hst, hde, hn, hcom⟩
  settled j row hj hf hcl := by
    rw [hc j row hj hf] at hcl
    cases hcl

theorem handled_late {m : Message} {Q : World → Except Exc Outcome → Hist → Prop}
    (hlate : ¬ w.clock ≤ T) (r : Except Exc Outcome) :
    Ends (exec n) (fun _ => True) (fun w' out g => w'.clock ≤ T → Q w' out g)
      (match r with
        | .error exc => .pure (.error exc)
        | .ok outcome =>
          if outcome.ack = true then .act (.xack m.stream m.messageId) fun _ => .pure (.ok outcome)
          else .pure (.ok outcome) : Prg (Except Exc Outcome)) w h := by
  cases r with
  | error exc => exact fun hle => absurd hle hlate
  | ok outcome =>
    dsimp only
    split
    · intro env _
      obtain ⟨w', r, hx⟩ := exec_total (n := n) (o := .xack m.stream m.messageId) (e := env) (w := w)
        (by simp)
      exact ⟨w', r, hx, fun hle => absurd ((exec_later hx).trans hle) hlate⟩
    · exact fun hle => absurd hle hlate

/-- Whenever the attempt at the job of `e` fails up to `T` and a retry is due, it can be
planned. -/
def Plannable (app : App) (e : Entry (Option Uuid)) (w : World) (T : Time) : Prop :=
  ∀ j row, e.fields = some j → w.jobs.find? j = some row → row.status.claimable = true →
    app.refuses row ∨ app.settings.plans row T = true

theorem handleMessage_ends (hT : Plannable app e w T)
    (he : e ∈ w.streams.entries) (hp : e.isPending = true) :
    Ends (exec app.settings.workerConcurrency) (fun _ => True)
      (fun w' out g => w'.clock ≤ T →
        ∃ outcome, out = .ok outcome ∧ MessageSettled app e w w' outcome g)
      (handleMessage app (.ofEntry e)) w [] := by
  unfold handleMessage
  split
  · -- a poison message
    rename_i hj
    change e.fields = none at hj
    intro env _
    refine ⟨_, _, rfl, fun _ => ⟨_, rfl, messageSettled_of_skip he hp ?_ rfl rfl rfl ?_ rfl⟩⟩
    · intro j row hj'
      rw [hj] at hj'
      cases hj'
    · simp [NoHandler]
  · rename_i j hj
    change e.fields = some j at hj
    by_cases hcl : ∃ row, w.jobs.find? j = some row ∧ row.status.claimable = true
    · obtain ⟨row, hf, hcl⟩ := hcl
      obtain rfl : row.id = j := Table.find?_key hf
      refine (processJob_ends (hT row.id row hj hf hcl) hf hcl).bind ?_
      intro w₁ out h hattempted
      by_cases hlate : ¬ w₁.clock ≤ T
      · exact handled_late hlate out
      obtain ⟨ending, row', hend, rfl, hc⟩ := hattempted (not_not.1 hlate)
      intro env _
      refine ⟨_, _, rfl, fun _ => ⟨_, rfl, ?_, ?_, ?_⟩⟩
      · change (w₁.streams.xack e.stream e.id).find? e.id = _
        rw [hc.streams]
        split
        · exact (find?_acked he hp _ row.id).2
        · exact (find?_acked he hp "" 0).1
      · intro hno
        rw [hno row.id row hj hf] at hcl
        cases hcl
      · intro j' row'' hj' hf' _
        rw [hj, Option.some.injEq] at hj'
        subst hj'
        rw [hf, Option.some.injEq] at hf'
        subst hf'
        exact ⟨ending, row', hend.cons (by simp), rfl, hc.acked (ending.status_ne_processing _ _) env.elapsed e⟩
    · have hc : ∀ row, w.jobs.find? j = some row → row.status.claimable = false := by
        intro row hf
        rw [← Bool.not_eq_true]
        exact fun h => hcl ⟨row, hf, h⟩
      refine (processJob_skips hc).bind ?_
      rintro w₁ out h ⟨rfl, hrows, hst, hde, hn, hcom⟩
      intro env _
      refine ⟨_, _, rfl, fun _ => ⟨_, rfl, messageSettled_of_skip he hp ?_ hrows ?_ hde ?_ ?_⟩⟩
      · intro j' row hj' hf
        rw [hj, Option.some.injEq] at hj'
        subst hj'
        exact hc row hf
      · rw [← hst]
        rfl
      · exact hn.cons (by simp)
      · rw [commands_cons, hcom]
        rfl

theorem checking_policy {v : Validation} {payload : Payload} {message : String} {type : JobType}
    {raw : Json} (ha : v.adapter type raw = .ok payload)
    (hv : v.checkPolicy payload = .error (.policy message)) :
    (app.checking v).validatePayload type raw = .error (.policy message) := by
  simp only [App.checking, Validation.validatePayload, ha, hv]

theorem AttemptEnds.refused {ending : Ending} (ha : AttemptEnds app row h ending)
    (hr : row.userId = none ∨
      ∃ message, app.validatePayload row.type row.payload = .error (.policy message)) :
    NoHandler h ∧ ending.status app.settings row = .failed := by
  cases ha with
  | ownerless hu hn => exact ⟨hn, rfl⟩
  | rejected message hu hv hn => exact ⟨hn, rfl⟩
  | invalid type message hu hv hn =>
    rcases hr with hr | ⟨message', hr⟩
    · exact absurd hr hu
    · rw [hv] at hr
      cases hr
  | handled payload env w w' h₀ h₁ r hu hv ht hs =>
    rcases hr with hr | ⟨message', hr⟩
    · exact absurd hr hu
    · rw [hv] at hr
      cases hr

/-! ### When a retry cannot be planned -/

/-- A retry that no instant from the next one on can plan. -/
theorem retry_late (hT : app.settings.plans row T = false) (error : Json) (label : Label) :
    EndsFrom (exec n) (fun e => w.clock + e.elapsed = T) (fun e => e.elapsed = 0)
      (fun _ out _ => ∃ exc, out = .error exc) (retry app row error label) w h := by
  refine EndsFrom.bind ((scheduleRetryOrFail_raises error _).weaken fun e he => ?_) ?_
  · rw [he, hT]
    exact Bool.false_ne_true
  · rintro w' out g ⟨⟨exc, rfl⟩, -⟩
    exact ⟨_, rfl, exc, rfl⟩

/-- The handler is given up before it begins, at `T`. -/
theorem runClaimed_late (hr : ¬ app.refuses row)
    (hT : app.settings.plans row T = false) :
    EndsFrom (exec n) (fun e => w.clock + e.elapsed = T ∧ e.answer = true) (fun e => e.elapsed = 0)
      (fun _ out _ => ∃ exc, out = .error exc) (runClaimed app row) w h := by
  unfold runClaimed
  split
  · rename_i message hv
    exact absurd (.inr ⟨message, hv⟩) hr
  · exact (retry_late hT _ _).weaken fun e he => he.1
  · rename_i payload hv
    simp only [runHandler, op_bind]
    rintro e ⟨hclock, hfired⟩
    refine ⟨_, _, rfl, ?_⟩
    rw [hfired]
    change Ends _ _ _ (settle app row (.error .timeout)) _ _
    refine (retry_late hT _ _).ends fun e' he' => ?_
    change w.clock + e.elapsed + (e'.elapsed : Int) = T
    rw [hclock, he']
    exact Int.add_zero T

def FailsBy (T : Time) (x : World × Except Exc Outcome × Hist) : Prop :=
  (∃ exc, x.2.1 = .error exc) ∧ x.1.clock ≤ T

theorem runClaimed_fails (hle : w.clock ≤ T) (hr : ¬ app.refuses row)
    (hT : app.settings.plans row T = false) :
    ∃ env x, (runClaimed app row).trace (exec n) env w h = some x ∧ FailsBy T x := by
  obtain ⟨w', out, g, ht, hout, hle'⟩ := (endsFrom_still
    (runClaimed_late (h := h) (n := n) hr hT) (fun _ he => he.1) hle).trace (reaching w.clock T)
      ⟨reaching_elapsed hle, rfl⟩ fun _ => rfl
  exact ⟨_, _, ht, hout, hle'⟩

theorem processJob_fails (hle : w.clock ≤ T) (hf : w.jobs.find? row.id = some row)
    (hc : row.status.claimable = true) (hr : ¬ app.refuses row)
    (hT : app.settings.plans row T = false) :
    ∃ env x, (processJob app row.id).trace (exec n) env w [] = some x ∧ FailsBy T x := by
  simp only [processJob, op_bind, mpure_eq]
  have hu : row.userId.isNone ≠ true := fun h => hr (.inl (Option.isNone_iff_eq_none.1 h))
  obtain ⟨w₁, he, hrow⟩ := exec_claimed (n := n) (e := {}) hf hc
  have hle₁ : w₁.clock ≤ T := (exec_still rfl he).trans_le hle
  refine exists_trace_act he (exists_trace_act (exec_getClaimed (e := {}) hrow) ?_)
  dsimp only
  have hlast : w₁.clock + ((0 : Nat) : Int) ≤ T := by rwa [Nat.cast_zero, Int.add_zero]
  split
  · exact absurd ‹_› hu
  split
  · obtain ⟨w₂, b, he₂⟩ := exec_total (n := n) (o := .initProgress (claimedRow row w₁.clock).id)
      (e := {}) (w := { w₁ with clock := w₁.clock + (0 : Nat) }) (by simp)
    exact exists_trace_act he₂ (runClaimed_fails ((exec_still rfl he₂).trans_le hlast) hr hT)
  · exact runClaimed_fails hlast hr hT

/-- In every run of `handle_message` on the entry `e` that is over by `T`, the message is
settled, and a job that is refused fails without a handler. -/
def SettledBy (app : App) (v : Validation) (e : Entry (Option Uuid)) (w : World) (T : Time) :
    Prop :=
  ∀ env, ∃ w' out g,
    (handleMessage (app.checking v) (.ofEntry e)).trace (exec app.settings.workerConcurrency) env w
      [] = some (w', out, g) ∧
    (w'.clock ≤ T → ∃ outcome, out = .ok outcome ∧
      MessageSettled (app.checking v) e w w' outcome g ∧
      ∀ j row, e.fields = some j → w.jobs.find? j = some row → row.status.claimable = true →
        (row.userId = none ∨ ∃ payload message, v.adapter row.type row.payload = .ok payload ∧
          v.checkPolicy payload = .error (.policy message)) →
        NoHandler g ∧ ∃ row', w'.jobs.find? j = some row' ∧ row'.status = .failed)

/-- `handle_message` on a pending entry, with nothing in between, settles the message up to
`T` just when a retry that may be due then can be planned. -/
theorem message_settled (app : App) (v : Validation) (w : World) (e : Entry (Option Uuid))
    (he : e ∈ w.streams.entries) (hp : e.isPending = true) (T : Time) :
    (Plannable (app.checking v) e w T → SettledBy app v e w T) ∧
    (w.clock + max 0 app.settings.jobHandlerTimeoutS ≤ T → SettledBy app v e w T →
      Plannable (app.checking v) e w T) := by
  refine ⟨fun hT env => ?_, fun hlate hsettled j row hj hf hc => ?_⟩
  · obtain ⟨w', out, g, ht, hdone⟩ := (handleMessage_ends hT he hp).trace env fun _ => trivial
    refine ⟨w', out, g, ht, fun hle => ?_⟩
    obtain ⟨outcome, rfl, hm⟩ := hdone hle
    refine ⟨outcome, rfl, hm, ?_⟩
    intro j row hj hf hc hr
    obtain ⟨ending, row', ha, -, hs⟩ := hm.settled j row hj hf hc
    obtain ⟨hn, hfailed⟩ := ha.refused (hr.imp_right fun ⟨payload, message, hv, hpol⟩ =>
      ⟨message, checking_policy hv hpol⟩)
    have hid : row.id = j := Table.find?_key hf
    exact ⟨hn, row', hid ▸ hs.found, hs.reached.trans hfailed⟩
  · by_contra hno
    rw [not_or, Bool.not_eq_true] at hno
    obtain rfl : row.id = j := Table.find?_key hf
    have hle : w.clock ≤ T := (Int.le_add_of_nonneg_right (Int.le_max_left 0 _)).trans hlate
    obtain ⟨env, ⟨w₁, _, g₁⟩, ht₁, ⟨exc, rfl⟩, hle₁⟩ :=
      processJob_fails (n := app.settings.workerConcurrency) hle hf hc hno.1 hno.2
    have hfails : (handleMessage (app.checking v) (.ofEntry e)).trace
        (exec app.settings.workerConcurrency) env w [] = some (w₁, .error exc, g₁) := by
      unfold handleMessage
      split
      · rename_i hnone
        change e.fields = none at hnone
        rw [hnone] at hj
        cases hj
      · rename_i j hsome
        change e.fields = some j at hsome
        rw [hj, Option.some.injEq] at hsome
        subst hsome
        exact trace_bind ht₁ rfl
    obtain ⟨w', out, g, ht, hm⟩ := hsettled env
    rw [hfails, Option.some.injEq, Prod.mk.injEq, Prod.mk.injEq] at ht
    obtain ⟨rfl, rfl, rfl⟩ := ht
    obtain ⟨outcome, hout, -⟩ := hm hle₁
    cases hout

def closedValidation : Validation where
  adapter type payload :=
    match type with
    | .webhook => .ok (.item (.webhook payload))
    | _ => .error ("ValidationError", "")
  urlHost _ := some "Example.com."
  emailTo _ := ""
  lower := String.map Char.toLower
  showRepr s := s

def deliveredWebhook : Entry (Option Uuid) := ⟨0, "jobs:stream:normal", some 1, .pending "w" 0⟩

def webhookQueued : World :=
  { World.init with
    jobs := ⟨[Repository.NewJob.row
      { id := 1, type := .webhook, payload := .null, userId := some 8 } 0], by decide, by decide⟩
    streams := ⟨[deliveredWebhook], 1, by decide, by decide⟩ }

/-- A webhook whose host has left the allowlist fails without being called. -/
theorem message_settled_rejectedWebhook :
    ∃ w' outcome g,
      (handleMessage (defaultApp.checking closedValidation) (.ofEntry deliveredWebhook)).trace
        (exec 10) (fun _ => {}) webhookQueued [] = some (w', .ok outcome, g) ∧
      w'.streams.find? 0 = some { deliveredWebhook with state := .acked } ∧ NoHandler g ∧
      ∃ row', w'.jobs.find? 1 = some row' ∧ row'.status = .failed := by
  have hT : Plannable (defaultApp.checking closedValidation) deliveredWebhook webhookQueued 0 := by
    intro j row hj hf _
    obtain rfl : 1 = j := Option.some.inj hj
    obtain rfl : _ = row := Option.some.inj hf
    exact .inl (.inr ⟨_, rfl⟩)
  obtain ⟨w', out, g, ht, hdone⟩ := (message_settled defaultApp closedValidation webhookQueued
    deliveredWebhook List.mem_cons_self rfl 0).1 hT fun _ => {}
  have hle : w'.clock ≤ 0 := by
    cases ht
    decide
  obtain ⟨outcome, rfl, hm, hr⟩ := hdone hle
  have hfailed := hr 1 _ rfl rfl rfl (.inr ⟨_, _, rfl, rfl⟩)
  exact ⟨w', outcome, g, ht, hm.acked, hfailed⟩

/-- A schedule of one delay, about thirty thousand years. -/
def longDelay : App :=
  { defaultApp with
    settings := { retryBackoffSchedule := [1000000000000],
                  checkTimeoutInvariant := Settings.default_timeouts } }

def reportValidation : Validation :=
  { closedValidation with adapter := fun _ payload => .ok (.item (.report payload)) }

def deliveredReport : Entry (Option Uuid) := ⟨0, "jobs:stream:normal", some 1, .pending "w" 0⟩

def reportQueued : World :=
  { World.init with
    jobs := ⟨[Repository.NewJob.row
      { id := 1, type := .report, payload := .null, userId := some 8 } 0], by decide, by decide⟩
    streams := ⟨[deliveredReport], 1, by decide, by decide⟩ }

/-- A report whose handler fails: the delay leads past the last instant there is. -/
theorem message_unsettled_longDelay :
    ¬ ∃ w' outcome g,
      (handleMessage (longDelay.checking reportValidation) (.ofEntry deliveredReport)).trace
        (exec 10) (fun _ => { finish := .error ("ValueError", "x") }) reportQueued [] =
          some (w', .ok outcome, g) ∧
      MessageSettled (longDelay.checking reportValidation) deliveredReport reportQueued w' outcome
        g := by
  rintro ⟨w', outcome, g, ht, -⟩
  cases ht

end Message

end JobProcessor
