import JobProcessor.Proofs.Actors

/-! What the programs write into the columns of a row: where each value comes from,
and what a worker has been told when it cancels a job. -/

namespace JobProcessor

open Interleave Prog

def Read (h : Hist) (id : Uuid) (job : Job) : Prop :=
  (⟨.getJob id none, some job⟩ : Reply Op Op.Res) ∈ h ∧ job.id = id

theorem Read.cons {h : Hist} {id : Uuid} {job : Job} (hr : Read h id job) (x : Reply Op Op.Res) :
    Read (x :: h) id job :=
  ⟨List.mem_cons_of_mem _ hr.1, hr.2⟩

/-- A Python dict. -/
def Json.isDict : Json → Bool
  | .obj _ => true
  | _ => false

/-- A poll that told the handler of `id` to stop: cancellation was requested, or the
row was not processing. -/
def stopsAt (id : Uuid) : Reply Op Op.Res → Bool
  | ⟨.writeProgress i _, none⟩ => i = id
  | ⟨.writeProgress i _, some c⟩ => i = id && c.isSome
  | ⟨.readFlags i, none⟩ => i = id
  | ⟨.readFlags i, some (c, s)⟩ => i = id && (c.isSome || s ≠ .processing)
  | _ => false

def Polled (id : Uuid) (h : Hist) : Prop := ∃ x ∈ h, stopsAt id x = true

theorem Polled.mono {id : Uuid} {g h : Hist} (hp : Polled id g) (hs : g ⊆ h) : Polled id h :=
  hp.imp fun _ hx => ⟨hs hx.1, hx.2⟩

/-- What the values of a statement come from. -/
def fills (h : Hist) : Op → Prop
  | .createJob n => n.status = .pending ∨ n.status = .scheduled ∧ n.scheduledAt ≠ none
  | .initProgress id => ∃ job, Read h id job ∧ job.type = .batch
  | .writeProgress id pct => (∃ job, Read h id job ∧ job.type = .batch) ∧ 0 ≤ pct ∧ pct ≤ 100
  | .completeJob id result progress => ∃ job, Read h id job ∧
    (progress = if job.type = .batch then some 100 else none) ∧
    (result.isDict = true ∨ ∃ type, (⟨.finishHandler type, .ok result⟩ : Reply Op Op.Res) ∈ h)
  | .failJob _ error => error.isDict = true
  | .cancelJob id summary => summary.isDict = true ∧ Polled id h
  | _ => True

/-- The actions that write no value of their own. -/
def Op.plain : Op → Prop
  | .createJob _ => False
  | .initProgress _ => False
  | .writeProgress _ _ => False
  | .completeJob _ _ _ => False
  | .failJob _ error => error.isDict = true
  | .cancelJob _ _ => False
  | _ => True

theorem fills_of_plain {o : Op} (ho : o.plain) (h : Hist) : fills h o := by
  cases o <;> trivial

section Programs

variable {app : App}

theorem plain_act {α : Type} {o : Op} {k : o.Res → Prg α} (ho : o.plain)
    (hk : ∀ r, Uses Valid Op.plain (k r)) : Uses Valid Op.plain (Prog.act o k) :=
  Uses.act ho fun r _ => hk r

theorem scheduleRetryOrFail_plain (job : Job) {error : Json} (he : error.isDict = true) :
    Uses Valid Op.plain (scheduleRetryOrFail app job error) := by
  simp only [scheduleRetryOrFail, op_bind, mpure_eq]
  split
  · exact plain_act he fun _ => trivial
  · split
    · trivial
    · split
      · refine plain_act trivial fun won => ?_
        split
        · exact plain_act trivial fun _ => plain_act trivial fun _ => trivial
        · trivial
      · refine plain_act trivial fun now => ?_
        split
        · trivial
        · refine plain_act trivial fun won => ?_
          split
          · exact plain_act trivial fun _ => plain_act trivial fun _ => trivial
          · trivial

theorem promoteDue_plain : Uses Valid Op.plain (promoteDue app) := by
  have hx : ∀ routed, Uses Valid Op.plain (xaddAll routed) := by
    intro routed
    induction routed with
    | nil => trivial
    | cons p routed ih => exact plain_act trivial fun _ => ih
  simp only [promoteDue, op_bind, mpure_eq]
  refine plain_act trivial fun now => plain_act trivial fun ids => ?_
  split
  · trivial
  · refine plain_act trivial fun info => (hx _).bind fun _ => ?_
    exact plain_act trivial fun _ => plain_act trivial fun _ => trivial

theorem reconcileOrphans_plain (fuel : Nat) : Uses Valid Op.plain (reconcileOrphans app fuel) := by
  have hrows : ∀ rows total, Uses Valid Op.plain (handoffRows app rows total) := by
    intro rows
    induction rows with
    | nil => exact fun _ => trivial
    | cons job rows ih =>
      intro total
      unfold handoffRows
      split
      · split
        · exact ih total
        · exact plain_act trivial fun _ => plain_act trivial fun _ => ih _
      · exact plain_act trivial fun _ => plain_act trivial fun _ => ih _
  refine plain_act trivial fun now => ?_
  change Uses _ _ (reconcileLoop app (now - app.settings.reconcileGraceS) fuel [] 0)
  generalize (0 : Nat) = total
  generalize ([] : List Job) = instances
  induction fuel generalizing instances total with
  | zero => trivial
  | succ fuel ih =>
    simp only [reconcileLoop, op_bind, mpure_eq]
    refine plain_act trivial fun page => ?_
    split
    · trivial
    · refine (hrows _ total).bind fun total => ?_
      split
      · trivial
      · exact ih total _

theorem reapOne_plain (m : Message) (jobId : Uuid) : Uses Valid Op.plain (reapOne app m jobId) := by
  have hack : Uses Valid Op.plain
      (.act (.xack m.stream m.messageId) fun _ => .pure (.ok ()) : Prg (Except Exc Unit)) :=
    plain_act trivial fun _ => trivial
  simp only [reapOne, op_bind, mpure_eq]
  refine plain_act trivial fun row => ?_
  cases row with
  | none => exact hack
  | some job =>
    dsimp only
    split
    · exact hack
    · split
      · refine (scheduleRetryOrFail_plain job rfl).bind fun r => ?_
        cases r with
        | error exc => trivial
        | ok won => exact hack
      · split
        · exact hack
        · split
          all_goals exact plain_act trivial fun _ => plain_act trivial fun _ => hack

theorem reapStale_plain (fuel : Nat) : Uses Valid Op.plain (reapStale app fuel) := by
  have hms : ∀ ms handled, Uses Valid Op.plain (reapMessages app ms handled) := by
    intro ms
    induction ms with
    | nil => exact fun _ => trivial
    | cons m ms ih =>
      intro handled
      unfold reapMessages
      split
      · exact plain_act trivial fun _ => ih _
      · refine (reapOne_plain m _).bind fun r => ?_
        cases r with
        | error exc => trivial
        | ok _ => exact ih _
  have hstream : ∀ stream fuel cursor handled,
      Uses Valid Op.plain (reapStream app stream fuel cursor handled) := by
    intro stream fuel
    induction fuel with
    | zero => exact fun _ _ => trivial
    | succ fuel ih =>
      intro cursor handled
      refine plain_act trivial fun resp => (hms resp.2 handled).bind fun r => ?_
      cases r with
      | error s => trivial
      | ok handled =>
        dsimp only
        split
        · trivial
        · exact ih _ _
  unfold reapStale
  generalize app.settings.orderedStreams = ss
  generalize (0 : Nat) = handled
  induction ss generalizing handled with
  | nil => trivial
  | cons s ss ih =>
    refine (hstream s fuel 0 handled).bind fun r => ?_
    cases r with
    | error e => trivial
    | ok handled => exact ih _

theorem tickerLoop_plain (fuel : Nat) (lastReconcile lastReap : Time) :
    Uses Valid Op.plain (tickerLoop app fuel lastReconcile lastReap) := by
  induction fuel generalizing lastReconcile lastReap with
  | zero => trivial
  | succ fuel ih =>
    refine plain_act trivial fun stop => ?_
    cases stop with
    | true => trivial
    | false =>
      refine promoteDue_plain.bind fun _ => plain_act trivial fun now => ?_
      have hrec : Uses Valid Op.plain (reconcileTick app fuel now lastReconcile) := by
        unfold reconcileTick
        split
        · refine (reconcileOrphans_plain fuel).bind fun r => ?_
          cases r <;> trivial
        · trivial
      have hreap : Uses Valid Op.plain (reapTick app fuel now lastReap) := by
        unfold reapTick
        split
        · refine (reapStale_plain fuel).bind fun r => ?_
          rcases r with (exc | _) | _
          · exact plain_act trivial fun _ => trivial
          · trivial
          · trivial
        · trivial
      refine hrec.bind fun r => ?_
      cases r with
      | none => trivial
      | some lastReconcile =>
        refine hreap.bind fun r => ?_
        cases r with
        | none => trivial
        | some lastReap => exact ih _ _

/-! The submission. -/

theorem createAndHandoff_fills (user newId : Uuid) (sub : JobSubmission)
    (key hash : Option String) (h : Hist) :
    Emits Valid fills (fun _ _ => True) h (createAndHandoff app user newId sub key hash) := by
  have hpend : ∀ h, Emits Valid fills (fun _ _ => True) h
      (createPending app (newJob app user newId sub key hash)) := by
    intro h
    refine ⟨.inl rfl, fun inserted _ => ?_⟩
    cases inserted with
    | false => trivial
    | true =>
      refine ⟨trivial, fun row _ => ?_⟩
      cases row with
      | none => trivial
      | some job => exact ⟨trivial, fun _ _ => ⟨trivial, fun _ _ => trivial⟩⟩
  unfold createAndHandoff
  split
  · exact hpend h
  · refine ⟨trivial, fun now _ => ?_⟩
    change Emits _ _ _ _ (if _ then _ else _)
    split
    · refine ⟨.inr ⟨rfl, by simp⟩, fun inserted _ => ?_⟩
      cases inserted with
      | false => trivial
      | true =>
        refine ⟨trivial, fun row _ => ?_⟩
        cases row with
        | none => trivial
        | some job => exact ⟨trivial, fun _ _ => ⟨trivial, fun _ _ => trivial⟩⟩
    · exact hpend _

theorem submitJob_fills (user newId : Uuid) (sub : JobSubmission) :
    Emits Valid fills (fun _ _ => True) [] (submitJob app user newId sub) := by
  unfold submitJob
  split
  · trivial
  · split
    · refine Emits.bind (createAndHandoff_fills ..) fun g r _ => ?_
      cases r <;> trivial
    · simp only [submitKeyed, op_bind, mpure_eq]
      refine ⟨trivial, fun existing _ => ?_⟩
      cases existing with
      | some job => trivial
      | none =>
        refine Emits.bind (createAndHandoff_fills ..) fun g r _ => ?_
        rcases r with exc | job
        · cases exc with
          | integrityError => exact ⟨trivial, fun _ _ => trivial⟩
          | _ => trivial
        · trivial

/-! The task of a message. -/

/-- The handler is told a percentage. -/
def PgJobContext.Sane (ctx : PgJobContext) : Prop := 0 ≤ ctx.pendingPct ∧ ctx.pendingPct ≤ 100

def batchUses (id : Uuid) : Op → Prop
  | .writeProgress i pct => i = id ∧ 0 ≤ pct ∧ pct ≤ 100
  | o => o.plain

theorem percent_le {done n : Nat} (h : done ≤ n) : percent done n ≤ 100 := by
  apply Binary64.Value.toNat_le
  have hq := Binary64.quot_le (p := done) (q := n) (b := 1) (by rwa [Nat.one_mul])
  simpa using Binary64.Value.mul_le (k := 100) hq

theorem cancelled_batchUses {h : Hist} (ctx : PgJobContext) (hs : ctx.Sane)
    (hc : ctx.cached = true → Polled ctx.jobId h) :
    Emits Valid (fun _ o => batchUses ctx.jobId o)
      (fun g r => r.1.jobId = ctx.jobId ∧ r.1.Sane ∧ (r.1.cached = true → Polled ctx.jobId g) ∧
        (r.2 = true → Polled ctx.jobId g)) h ctx.cancelled := by
  simp only [PgJobContext.cancelled, PgJobContext.write, PgJobContext.read, op_bind, mpure_eq]
  refine ⟨trivial, fun now _ => ?_⟩
  have hc' : ctx.cached = true → Polled ctx.jobId (⟨.now, now⟩ :: h) :=
    fun ht => (hc ht).mono (List.subset_cons_self _ _)
  -- the newest reply decides
  have hnew : ∀ {o : Op} {r : o.Res} {g : Hist}, stopsAt ctx.jobId ⟨o, r⟩ = true →
      Polled ctx.jobId (⟨o, r⟩ :: g) := fun ht => ⟨_, List.mem_cons_self, ht⟩
  beta_reduce
  split
  · split
    · refine ⟨⟨rfl, hs⟩, fun row _ => ?_⟩
      cases row with
      | none => exact ⟨rfl, hs, fun _ => hnew (by simp [stopsAt]), fun _ => hnew (by simp [stopsAt])⟩
      | some c =>
        refine ⟨rfl, hs, fun ht => hnew ?_, fun ht => hnew ?_⟩ <;> simpa [stopsAt] using ht
    · refine ⟨trivial, fun row _ => ?_⟩
      rcases row with _ | ⟨c, s⟩
      · exact ⟨rfl, hs, fun _ => hnew (by simp [stopsAt]), fun _ => hnew (by simp [stopsAt])⟩
      · change Emits _ _ _ _ ((if s = .processing then _ else _) >>= _)
        split
        · refine ⟨rfl, hs, fun ht => hnew ?_, fun ht => hnew ?_⟩ <;> simp_all [stopsAt]
        · rename_i hne
          refine ⟨rfl, hs, fun _ => hnew ?_, fun _ => hnew ?_⟩ <;> simp [stopsAt, hne]
  · exact ⟨rfl, hs, hc', hc'⟩

/-- How a handler of job `id` ends: a result is a dict or what the handler of its
type returned, and a cancelled batch leaves a dict after a poll that told it to stop. -/
def HandlerEnds (id : Uuid) (h : Hist) (r : Except HandlerExc Json) : Prop :=
  (∀ v, r = .ok v → v.isDict = true ∨
    ∃ type, (⟨.finishHandler type, .ok v⟩ : Reply Op Op.Res) ∈ h) ∧
  ∀ v, r = .error (.cancelled v) → v.isDict = true ∧ Polled id h

theorem handlerEnds_error {id : Uuid} {h : Hist} {exc : HandlerExc} (hc : ∀ v, exc ≠ .cancelled v) :
    HandlerEnds id h (.error exc) := by
  constructor
  · exact fun v hv => nomatch hv
  · intro v hv
    cases hv
    exact absurd rfl (hc v)

theorem HandlerEnds.mono {id : Uuid} {g h : Hist} {r : Except HandlerExc Json}
    (he : HandlerEnds id g r) (hs : g ⊆ h) : HandlerEnds id h r := by
  constructor
  · intro v hv
    exact (he.1 v hv).imp_right fun ⟨type, hm⟩ => ⟨type, hs hm⟩
  · intro v hv
    exact (he.2 v hv).imp_right fun hp => hp.mono hs

theorem handleBatch_batchUses {n i : Nat} {h : Hist} (items : List PayloadItem)
    (ctx : PgJobContext) (s : Summary) (hs : ctx.Sane) (hn : i + items.length = n)
    (hc : ctx.cached = true → Polled ctx.jobId h) :
    Emits Valid (fun _ o => batchUses ctx.jobId o) (HandlerEnds ctx.jobId) h
      (handleBatch n i items ctx s) := by
  induction items generalizing i ctx s h with
  | nil =>
    constructor
    · intro v hv
      cases hv
      exact .inl rfl
    · exact fun v hv => nomatch hv
  | cons item items ih =>
    refine Emits.bind (cancelled_batchUses ctx hs hc) fun g r hr => ?_
    obtain ⟨ctx', c⟩ := r
    obtain ⟨hid, hs', hc', hcan⟩ := hr
    dsimp only at hid hs' hc' hcan ⊢
    split
    · rename_i ht
      constructor
      · exact fun v hv => nomatch hv
      · intro v hv
        cases hv
        exact ⟨rfl, hcan ht⟩
    · refine ⟨by cases item <;> trivial, fun u _ => ⟨trivial, fun v _ => ?_⟩⟩
      have hlen : i + 1 + items.length = n := by
        rw [List.length_cons] at hn
        omega
      have hpct : (ctx'.setProgress (percent (i + 1) n)).Sane := by
        refine ⟨Int.natCast_nonneg _, ?_⟩
        exact Int.ofNat_le.2 (percent_le (by omega))
      have hrest := fun s => ih (h := ⟨.finishHandler item.type, v⟩ ::
        ⟨.startHandler ctx'.jobId item.type, u⟩ :: g) (ctx'.setProgress (percent (i + 1) n)) s hpct
        hlen
      rw [show (ctx'.setProgress (percent (i + 1) n)).jobId = ctx.jobId from hid] at hrest
      exact hrest _ fun ht => (hc' ht).mono fun x hx => by simp [hx]

theorem runWithTimeout_emits {A : Op → Prop} {id : Uuid} {p : Prg (Except HandlerExc Json)}
    {g h : Hist} (ht : A .timedOut)
    (hp : Emits Valid (fun _ o => A o) (HandlerEnds id) g p) (hs : g ⊆ h) :
    Emits Valid (fun _ o => A o) (HandlerEnds id) h (runWithTimeout p) := by
  induction p generalizing g h with
  | pure a => exact HandlerEnds.mono hp hs
  | act o k ih =>
    refine ⟨ht, fun fired _ => ?_⟩
    beta_reduce
    split
    · exact handlerEnds_error (by simp)
    · refine ⟨hp.1, fun r hv => ih r (hp.2 r hv) ?_⟩
      exact List.cons_subset_cons _ (List.Subset.trans hs (List.subset_cons_self _ _))

variable {job : Job} {h : Hist}

theorem runWithTimeout_fills (payload : Payload) (ctx : PgJobContext) (hctx : ctx.jobId = job.id)
    (hs : ctx.Sane) (hc : ctx.cached = false) (hr : Read h job.id job) :
    Emits Valid fills (fun g r => Read g job.id job ∧ HandlerEnds job.id g r) h
      (runWithTimeout (runHandler job.type payload ctx)) := by
  have hto : ∀ {g : Hist}, HandlerEnds job.id g (.error .timeout) := handlerEnds_error (by simp)
  simp only [runHandler, op_bind, mpure_eq, runWithTimeout]
  refine ⟨trivial, fun fired _ => ?_⟩
  beta_reduce
  split
  · exact ⟨hr.cons _, hto⟩
  · refine ⟨trivial, fun _ _ => ?_⟩
    have hr' := (hr.cons ⟨.timedOut, fired⟩).cons ⟨.startHandler ctx.jobId job.type, ()⟩
    split
    · -- a batch: every value is the handler's own
      rename_i items ht
      have hb := fun g : Hist => runWithTimeout_emits (A := batchUses ctx.jobId) (h := g) trivial
        (handleBatch_batchUses items ctx { total := items.length } hs (Nat.zero_add _)
          (by simp [hc])) (List.Subset.refl g)
      have huse : Uses Valid (batchUses ctx.jobId)
          (runWithTimeout (handleBatch items.length 0 items ctx { total := items.length })) :=
        (hb []).mono (fun _ _ ho => ho) fun _ _ _ => trivial
      refine (Emits.and (huse.of_uses (I := fun g => Read g job.id job) ?_ ?_ hr')
        (hb _)).mono (fun _ _ ho => ho.1) ?_
      · intro g o hg ho
        cases o with
        | writeProgress i pct =>
          obtain ⟨rfl, hpct⟩ := ho
          exact ⟨⟨job, hctx ▸ hg, ht⟩, hpct⟩
        | _ => trivial
      · exact fun g o r _ hg _ => hg.cons _
      · rintro g r ⟨hg, he⟩
        exact ⟨hg, hctx ▸ he⟩
    · exact ⟨hr', handlerEnds_error (by simp)⟩
    · refine ⟨trivial, fun fired _ => ?_⟩
      beta_reduce
      split
      · exact ⟨hr'.cons _, hto⟩
      · refine ⟨trivial, fun v _ => ?_⟩
        cases v with
        | ok v =>
          refine ⟨(hr'.cons _).cons _, ?_, fun v hv => absurd hv (by simp)⟩
          intro v' hv
          cases hv
          exact .inr ⟨_, List.mem_cons_self⟩
        | error exc => exact ⟨(hr'.cons _).cons _, handlerEnds_error (by simp)⟩

theorem settle_fills (hr : Read h job.id job) {r : Except HandlerExc Json} (he : HandlerEnds job.id h r) :
    Emits Valid fills (fun _ _ => True) h (settle app job r) := by
  have hretry : ∀ error label, error.isDict = true →
      Emits Valid fills (fun _ _ => True) h (retry app job error label) := by
    intro error label hd
    refine Emits.bind (Q := fun _ _ => True) ?_ fun g r _ => (by cases r <;> trivial)
    exact ((uses_iff h).2 (scheduleRetryOrFail_plain job hd)).mono
      (fun g _ ho => fills_of_plain ho g) fun _ _ _ => trivial
  match r with
  | .error (.cancelled summary) => exact ⟨he.2 summary rfl, fun _ _ => trivial⟩
  | .error .timeout => exact hretry _ _ rfl
  | .error (.raised type message) => exact hretry _ _ rfl
  | .ok result =>
    simp only [settle, op_bind, mpure_eq]
    refine ⟨⟨job, hr, rfl, he.1 result rfl⟩, fun won _ => ?_⟩
    cases won <;> trivial

theorem runClaimed_fills (hr : Read h job.id job) :
    Emits Valid fills (fun _ _ => True) h (runClaimed app job) := by
  unfold runClaimed
  split
  · exact ⟨rfl, fun _ _ => trivial⟩
  · exact settle_fills (r := .error (.raised _ _)) hr (handlerEnds_error (by simp))
  · refine Emits.bind (runWithTimeout_fills _ _ rfl ⟨by simp, by simp⟩ rfl hr) fun g r hg => ?_
    exact settle_fills hg.1 hg.2

theorem runOne_fills (consumer : String) (m : Message) :
    Emits Valid fills (fun _ _ => True) [] (runOne app consumer m) := by
  refine Emits.bind (Q := fun _ _ => True) ?_ fun g r _ => ⟨trivial, fun _ _ => trivial⟩
  unfold handleMessage
  split
  · exact ⟨trivial, fun _ _ => trivial⟩
  · rename_i id _
    refine Emits.bind (Q := fun _ _ => True) ?_ fun g r _ => ?_
    · simp only [processJob, op_bind, mpure_eq]
      refine ⟨trivial, fun claimed _ => ?_⟩
      beta_reduce
      split
      · refine ⟨trivial, fun row hrow => ?_⟩
        cases row with
        | none => trivial
        | some job =>
          have hid : job.id = id := (hrow job rfl).1
          subst hid
          have hr : Read [⟨.getJob job.id none, some job⟩, ⟨.claimJob job.id, claimed⟩] job.id job :=
            ⟨List.mem_cons_self, rfl⟩
          dsimp only
          split
          · exact ⟨rfl, fun _ _ => trivial⟩
          · split
            · rename_i hb
              exact ⟨⟨job, hr, hb⟩, fun _ _ => runClaimed_fills (hr.cons _)⟩
            · exact runClaimed_fills hr
      · trivial
    · cases r with
      | error exc => trivial
      | ok out =>
        dsimp only
        split
        · exact ⟨trivial, fun _ _ => trivial⟩
        · trivial

theorem body_fills (app : App) (p : Proc) :
    Emits Valid fills (fun _ _ => True) [] (body app p) := by
  have hplain : ∀ {α : Type} {q : Prg α}, Uses Valid Op.plain q →
      Emits Valid fills (fun _ _ => True) [] q := fun hq =>
    hq.mono (fun g _ ho => fills_of_plain ho g) fun _ _ _ => trivial
  -- a process that issues none of these statements
  have hnone : (∀ h o, issues app p h o → o.plain) →
      Emits Valid fills (fun _ _ => True) [] (body app p) := fun hp =>
    (body_emits app p).mono (fun h o ho => fills_of_plain (hp h o ho) h) fun _ _ _ => trivial
  cases p with
  | submitJob user newId sub => exact Emits.bind (submitJob_fills ..) fun _ _ _ => trivial
  | runOne consumer m => exact Emits.bind (runOne_fills ..) fun _ _ _ => trivial
  | ticker fuel => exact Emits.bind (hplain (tickerLoop_plain ..)) fun _ _ _ => trivial
  | promoteDue => exact Emits.bind (hplain promoteDue_plain) fun _ _ _ => trivial
  | _ =>
    apply hnone
    intro h o ho
    cases o <;> trivial

end Programs

end JobProcessor
