import JobProcessor.Proofs.Effects

/-! What each process has been told by the time it issues an action. These facts
follow from the programs alone, whatever the other processes do. -/

namespace JobProcessor

open Interleave Prog

abbrev Hist := List (Reply Op Op.Res)

/-! ### The retry decision -/

def Settled (h : Hist) (id : Uuid) : Prop :=
  ∃ x ∈ h, x.1.settles = some id ∧ won x.1 x.2 = true

theorem Settled.cons {h : Hist} {id : Uuid} (hs : Settled h id) (x : Reply Op Op.Res) :
    Settled (x :: h) id := by
  obtain ⟨y, hy, h1⟩ := hs
  exact ⟨y, List.mem_cons_of_mem _ hy, h1⟩

/-- The actions of `scheduleRetryOrFail` for `job`, called after the replies `g`. -/
def retryIssues (job : Job) (g h : Hist) : Op → Prop
  | .failJob id _ => id = job.id ∧ h = g
  | .retryToPending id => id = job.id ∧ h = g ∧ (job.attempts : Int) + 1 < job.maxAttempts
  | .retryToScheduled id _ =>
    id = job.id ∧ (∃ now : Time, h = ⟨.now, now⟩ :: g) ∧ (job.attempts : Int) + 1 < job.maxAttempts
  | .xadd _ id => id = job.id ∧ h = ⟨.retryToPending id, true⟩ :: g
  | .zadd id at_ =>
    id = job.id ∧ ∃ now : Time, h = ⟨.retryToScheduled id at_, true⟩ :: ⟨.now, now⟩ :: g
  | .markSynced id => ∃ x g', h = x :: g' ∧ x.1.handsOff = some id ∧ Settled g' id
  | .now => True
  | _ => False

def Op.inRetry : Op → Bool
  | .failJob _ _ => true
  | .retryToPending _ => true
  | .retryToScheduled _ _ => true
  | .xadd _ _ => true
  | .zadd _ _ => true
  | .markSynced _ => true
  | .now => true
  | _ => false

/-- What `scheduleRetryOrFail` leaves behind when called after the replies `g`: only
its own actions, and on every normal return an attempt to settle the job, which was
won if `True` is returned. -/
def Retried (id : Uuid) (g h : Hist) (r : Except Exc Bool) : Prop :=
  ∃ k, h = k ++ g ∧ (∀ x ∈ k, x.1.inRetry = true) ∧
    ∀ b, r = .ok b → (∃ x ∈ k, x.1.settles = some id) ∧ (b = true → Settled h id)

theorem retried_of_tried {id : Uuid} {g : Hist} {o : Op} {r : o.Res} {b : Bool} (k k' : Hist)
    (ho : o.settles = some id) (hr : b = true → won o r = true)
    (hk : ∀ x ∈ k ++ ⟨o, r⟩ :: k', x.1.inRetry = true) :
    Retried id g (k ++ ⟨o, r⟩ :: (k' ++ g)) (.ok b) := by
  refine ⟨k ++ ⟨o, r⟩ :: k', by simp, hk, fun b' hb => ⟨⟨⟨o, r⟩, by simp, ho⟩, fun hb' => ?_⟩⟩
  cases hb
  exact ⟨⟨o, r⟩, by simp, ho, hr hb'⟩

theorem scheduleRetryOrFail_emits {app : App} (job : Job) (error : Json) (g : Hist) :
    Emits Valid (retryIssues job g) (Retried job.id g) g (scheduleRetryOrFail app job error) := by
  have hwon : ∀ {o : Op} {r : o.Res} {g : Hist}, o.settles = some job.id → won o r = true →
      Settled (⟨o, r⟩ :: g) job.id := fun ho hr => ⟨_, List.mem_cons_self, ho, hr⟩
  simp only [scheduleRetryOrFail, op_bind, mpure_eq]
  split
  · refine ⟨⟨rfl, rfl⟩, fun r _ => ?_⟩
    exact retried_of_tried [] [] rfl (fun h => h) (by simp [Op.inRetry])
  · rename_i hmax
    have hlt : (job.attempts : Int) + 1 < job.maxAttempts := by push_cast at hmax; omega
    split
    · exact ⟨[], rfl, by simp, fun b hr => nomatch hr⟩
    · split
      · refine ⟨⟨rfl, rfl, hlt⟩, fun r _ => ?_⟩
        beta_reduce
        split
        · rename_i hr
          subst hr
          refine ⟨⟨rfl, rfl⟩, fun _ _ => ⟨⟨_, _, rfl, rfl, hwon rfl rfl⟩, fun _ _ => ?_⟩⟩
          exact retried_of_tried [_, _] [] rfl (fun h => h) (by simp [Op.inRetry])
        · rename_i hr
          exact retried_of_tried [] [] rfl (fun h => nomatch h) (by simp [Op.inRetry])
      · refine ⟨trivial, fun now _ => ?_⟩
        beta_reduce
        split
        · exact ⟨[_], rfl, by simp [Op.inRetry], fun b hr => nomatch hr⟩
        · refine ⟨⟨rfl, ⟨now, rfl⟩, hlt⟩, fun r _ => ?_⟩
          beta_reduce
          split
          · rename_i hr
            subst hr
            refine ⟨⟨rfl, now, rfl⟩, fun _ _ => ⟨⟨_, _, rfl, rfl, hwon rfl rfl⟩, fun _ _ => ?_⟩⟩
            exact retried_of_tried [_, _] [_] rfl (fun h => h) (by simp [Op.inRetry])
          · exact retried_of_tried [] [_] rfl (fun h => nomatch h) (by simp [Op.inRetry])

/-! ### Message tasks -/

/-- The task of message `m` has claimed job `id` and not yet tried to settle it. -/
def Holding (m : Message) (h : Hist) (id : Uuid) : Prop :=
  m.jobId = some id ∧ (⟨.claimJob id, true⟩ : Reply Op Op.Res) ∈ h ∧
    ∀ x ∈ h, x.1.settles = none

/-- A row was read that still has an attempt after the one that just ended. -/
def Retryable (h : Hist) (id : Uuid) : Prop :=
  ∃ job : Job, (⟨.getJob id none, some job⟩ : Reply Op Op.Res) ∈ h ∧ job.id = id ∧
    (job.attempts : Int) + 1 < job.maxAttempts

/-- A task may acknowledge its message: the claim was refused, or it has claimed and
settled the job itself. -/
def MayAck (m : Message) (h : Hist) : Prop :=
  ∀ id, m.jobId = some id → (⟨.claimJob id, false⟩ : Reply Op Op.Res) ∈ h ∨
    (⟨.claimJob id, true⟩ : Reply Op Op.Res) ∈ h ∧ Settled h id

theorem mayAck_of_settled {m : Message} {id : Uuid} {g : Hist} (hm : m.jobId = some id)
    (hc : (⟨.claimJob id, true⟩ : Reply Op Op.Res) ∈ g) (hs : Settled g id) : MayAck m g := by
  intro id' hid
  rw [hm, Option.some.injEq] at hid
  subst hid
  exact .inr ⟨hc, hs⟩

def taskIssues (consumer : String) (m : Message) (h : Hist) : Op → Prop
  | .claimJob id => m.jobId = some id ∧ h = []
  | .getJob id u => u = none ∧ m.jobId = some id ∧ h = [⟨.claimJob id, true⟩]
  | .initProgress id => Holding m h id
  | .writeProgress id _ => Holding m h id
  | .readFlags id => Holding m h id
  | .completeJob id _ _ => Holding m h id
  | .failJob id _ => Holding m h id
  | .cancelJob id _ => Holding m h id
  | .retryToPending id => Holding m h id ∧ Retryable h id
  | .retryToScheduled id _ => Holding m h id ∧ Retryable h id
  | .startHandler id type => Holding m h id ∧
    (type = .batch → ∀ x ∈ h, ∀ i, x.1 ≠ .startHandler i .batch)
  | .xadd _ id => ∃ g, h = ⟨.retryToPending id, true⟩ :: g ∧ Holding m g id
  | .zadd id at_ => ∃ g, h = ⟨.retryToScheduled id at_, true⟩ :: g ∧ Holding m g id
  | .markSynced id => ∃ x g, h = x :: g ∧ x.1.handsOff = some id ∧ Settled g id
  | .xack s i => s = m.stream ∧ i = m.messageId ∧ MayAck m h
  | .semRelease c => c = consumer
  | .now => True
  | .timedOut => True
  | .finishHandler _ => True
  | _ => False

theorem Holding.cons {m : Message} {h : Hist} {id : Uuid} (hh : Holding m h id)
    {x : Reply Op Op.Res} (hx : x.1.settles = none) : Holding m (x :: h) id := by
  refine ⟨hh.1, List.mem_cons_of_mem _ hh.2.1, ?_⟩
  intro y hy
  rcases List.mem_cons.1 hy with rfl | hy
  · exact hx
  · exact hh.2.2 y hy

variable {app : App} {consumer : String} {m : Message} {h : Hist} {job : Job}

def Executing (m : Message) (job : Job) (h : Hist) : Prop :=
  Holding m h job.id ∧ (⟨.getJob job.id none, some job⟩ : Reply Op Op.Res) ∈ h

theorem Executing.cons (hh : Executing m job h) {x : Reply Op Op.Res}
    (hx : x.1.settles = none) : Executing m job (x :: h) :=
  ⟨hh.1.cons hx, List.mem_cons_of_mem _ hh.2⟩

theorem scheduleRetryOrFail_task (hh : Executing m job h) (error : Json) :
    Emits Valid (taskIssues consumer m) (fun g r => r = .ok true → MayAck m g) h
      (scheduleRetryOrFail app job error) := by
  refine (scheduleRetryOrFail_emits job error h).mono ?_ ?_
  rotate_left
  · rintro g r ⟨k, rfl, -, hr⟩ hok
    exact mayAck_of_settled hh.1.1 (List.mem_append_right _ hh.1.2.1) ((hr true hok).2 rfl)
  intro g o ho
  have hret : (job.attempts : Int) + 1 < job.maxAttempts → ∀ x : Reply Op Op.Res,
      Retryable (x :: h) job.id ∧ Retryable h job.id := fun hlt x =>
    ⟨⟨job, List.mem_cons_of_mem _ hh.2, rfl, hlt⟩, ⟨job, hh.2, rfl, hlt⟩⟩
  cases o <;> simp only [retryIssues] at ho <;> try trivial
  case failJob => exact ho.1 ▸ ho.2 ▸ hh.1
  case retryToPending =>
    obtain ⟨rfl, rfl, hlt⟩ := ho
    exact ⟨hh.1, (hret hlt ⟨.now, (0 : Int)⟩).2⟩
  case retryToScheduled =>
    obtain ⟨rfl, ⟨now, rfl⟩, hlt⟩ := ho
    exact ⟨hh.1.cons rfl, (hret hlt _).1⟩
  case xadd =>
    obtain ⟨rfl, rfl⟩ := ho
    exact ⟨h, rfl, hh.1⟩
  case zadd =>
    obtain ⟨rfl, now, rfl⟩ := ho
    exact ⟨_, rfl, hh.1.cons rfl⟩

def handlerUses (id : Uuid) : Op → Prop
  | .now => True
  | .timedOut => True
  | .finishHandler _ => True
  | .startHandler i type => i = id ∧ type ≠ .batch
  | .writeProgress i _ => i = id
  | .readFlags i => i = id
  | _ => False

theorem cancelled_uses (ctx : PgJobContext) :
    Emits Valid (fun _ o => handlerUses ctx.jobId o) (fun _ r => r.1.jobId = ctx.jobId) []
      ctx.cancelled := by
  simp only [PgJobContext.cancelled, PgJobContext.write, PgJobContext.read, op_bind, mpure_eq]
  refine ⟨trivial, fun now _ => ?_⟩
  beta_reduce
  split
  · split
    · refine ⟨rfl, fun row _ => ?_⟩
      cases row <;> exact rfl
    · refine ⟨rfl, fun row _ => ?_⟩
      rcases row with _ | ⟨c, s⟩
      · exact rfl
      · change Emits _ _ _ _ ((if s = .processing then _ else _) >>= _)
        split <;> exact rfl
  · exact rfl

theorem handleBatch_uses (n i : Nat) (items : List PayloadItem) (ctx : PgJobContext)
    (s : Summary) : Uses Valid (handlerUses ctx.jobId) (handleBatch n i items ctx s) := by
  induction items generalizing i ctx s with
  | nil => trivial
  | cons item items ih =>
    refine Emits.bind (cancelled_uses ctx) fun g r hr => ?_
    obtain ⟨ctx', c⟩ := r
    dsimp only at hr ⊢
    split
    · trivial
    · refine ⟨⟨hr, by cases item <;> simp [PayloadItem.type]⟩, fun _ _ => ⟨trivial, fun v _ => ?_⟩⟩
      have := ih (i + 1) (ctx'.setProgress (percent (i + 1) n))
      rw [show (ctx'.setProgress (percent (i + 1) n)).jobId = ctx.jobId from hr] at this
      exact (uses_iff _).2 (this _)

theorem runWithTimeout_uses {A : Op → Prop} (ht : A .timedOut)
    {p : Prg (Except HandlerExc Json)} (hp : Uses Valid A p) :
    Uses Valid A (runWithTimeout p) := by
  induction p with
  | pure a => trivial
  | act o k ih =>
    refine Uses.act ht fun fired _ => ?_
    split
    · trivial
    · exact Uses.act hp.1 fun r hr => ih r ((uses_iff _).1 (hp.2 r hr))

theorem settles_of_handlerUses {id : Uuid} {o : Op} (ho : handlerUses id o) : o.settles = none := by
  cases o <;> simp only [handlerUses] at ho <;> rfl

theorem handler_task {p : Prg (Except HandlerExc Json)} (hp : Uses Valid (handlerUses job.id) p)
    (hh : Executing m job h) :
    Emits Valid (taskIssues consumer m) (fun g _ => Executing m job g) h (runWithTimeout p) := by
  refine Emits.of_uses (runWithTimeout_uses trivial hp) ?_ ?_ hh
  · intro g o hg ho
    cases o <;> simp only [handlerUses] at ho <;> try trivial
    · exact ho ▸ hg.1
    · exact ho ▸ hg.1
    · exact ⟨ho.1 ▸ hg.1, fun hb => absurd hb ho.2⟩
  · intro g o r _ hg ho
    exact hg.cons (settles_of_handlerUses ho)

theorem runWithTimeout_task (type : JobType) (payload : Payload) (ctx : PgJobContext)
    (hctx : ctx.jobId = job.id) (hh : Executing m job h)
    (hfirst : ∀ x ∈ h, ∀ i, x.1 ≠ .startHandler i .batch) :
    Emits Valid (taskIssues consumer m) (fun g _ => Executing m job g) h
      (runWithTimeout (runHandler type payload ctx)) := by
  simp only [runHandler, op_bind, mpure_eq, runWithTimeout]
  refine ⟨trivial, fun fired _ => ?_⟩
  beta_reduce
  split
  · exact hh.cons rfl
  · refine ⟨⟨hctx ▸ (hh.cons rfl).1, fun _ x hx i => ?_⟩, fun _ _ => ?_⟩
    · rcases List.mem_cons.1 hx with rfl | hx
      · simp
      · exact hfirst x hx i
    · refine handler_task ?_ ((hh.cons rfl).cons rfl)
      split
      · exact hctx ▸ handleBatch_uses _ _ _ ctx _
      · trivial
      · refine ⟨trivial, fun v _ => ?_⟩
        beta_reduce
        split <;> trivial

theorem retry_task (hh : Executing m job h) (error : Json) (label : Label) :
    Emits Valid (taskIssues consumer m) (fun g r => ∀ out, r = .ok out → out.ack = true → MayAck m g)
      h (retry app job error label) := by
  refine Emits.bind (scheduleRetryOrFail_task hh error) fun g r hr => ?_
  cases r with
  | error exc => exact fun out hout => nomatch hout
  | ok b =>
    intro out hout hack
    cases hout
    exact hr (congrArg _ hack)

theorem settle_task (hh : Executing m job h) (r : Except HandlerExc Json) :
    Emits Valid (taskIssues consumer m) (fun g r => ∀ out, r = .ok out → out.ack = true → MayAck m g)
      h (settle app job r) := by
  have hwon : ∀ {o : Op} {r : o.Res}, o.settles = some job.id → won o r = true →
      MayAck m (⟨o, r⟩ :: h) := fun ho hr =>
    mayAck_of_settled hh.1.1 (List.mem_cons_of_mem _ hh.1.2.1) ⟨_, List.mem_cons_self, ho, hr⟩
  match r with
  | .error (.cancelled summary) =>
    refine ⟨hh.1, fun b _ out hout hack => ?_⟩
    cases hout
    exact hwon rfl hack
  | .error .timeout => exact retry_task hh _ _
  | .error (.raised type message) => exact retry_task hh _ _
  | .ok result =>
    simp only [settle, op_bind, mpure_eq]
    generalize (if job.type = .batch then some 100 else none : Option Int) = progress
    refine ⟨hh.1, fun b _ => ?_⟩
    beta_reduce
    split
    · rename_i hb
      exact fun out hout hack => hwon rfl hb
    · intro out hout hack
      cases hout
      cases hack

theorem runClaimed_task (hh : Executing m job h)
    (hfirst : ∀ x ∈ h, ∀ i, x.1 ≠ .startHandler i .batch) :
    Emits Valid (taskIssues consumer m) (fun g r => ∀ out, r = .ok out → out.ack = true → MayAck m g)
      h (runClaimed app job) := by
  unfold runClaimed
  split
  · refine ⟨hh.1, fun b _ out hout hack => ?_⟩
    cases hout
    exact mayAck_of_settled hh.1.1 (List.mem_cons_of_mem _ hh.1.2.1)
      ⟨_, List.mem_cons_self, rfl, hack⟩
  · exact retry_task hh _ _
  · exact Emits.bind (runWithTimeout_task _ _ _ rfl hh hfirst) fun g r hg => settle_task hg r

theorem processJob_task {id : Uuid} (hm : m.jobId = some id) :
    Emits Valid (taskIssues consumer m) (fun g r => ∀ out, r = .ok out → out.ack = true → MayAck m g)
      [] (processJob app id) := by
  simp only [processJob, op_bind, mpure_eq]
  refine ⟨⟨hm, rfl⟩, fun claimed _ => ?_⟩
  beta_reduce
  split
  · rename_i hc
    subst hc
    refine ⟨⟨rfl, hm, rfl⟩, fun row hrow => ?_⟩
    beta_reduce
    split
    · exact fun out hout => nomatch hout
    · rename_i job
      have hid : job.id = id := (hrow job rfl).1
      subst hid
      have hh : Executing m job
          [⟨.getJob job.id none, some job⟩, ⟨.claimJob job.id, true⟩] := by
        refine ⟨⟨hm, by simp, ?_⟩, by simp⟩
        simp [Op.settles]
      split
      · refine ⟨hh.1, fun b _ out hout hack => ?_⟩
        cases hout
        exact mayAck_of_settled hm (List.mem_cons_of_mem _ hh.1.2.1)
          ⟨_, List.mem_cons_self, rfl, hack⟩
      · split
        · exact ⟨hh.1, fun _ _ => runClaimed_task (hh.cons rfl) (by simp)⟩
        · exact runClaimed_task hh (by simp)
  · rename_i hc
    intro out hout hack id' hid
    rw [hm, Option.some.injEq] at hid
    subst hid
    left
    rw [show claimed = false by simpa using hc]
    exact List.mem_cons_self

theorem runOne_task :
    Emits Valid (taskIssues consumer m) (fun _ _ => True) [] (runOne app consumer m) := by
  refine Emits.bind (Q := fun _ _ => True) ?_ fun g r _ => ⟨rfl, fun _ _ => trivial⟩
  unfold handleMessage
  split
  · rename_i hm
    exact ⟨⟨rfl, rfl, fun id hid => by simp [hm] at hid⟩, fun _ _ => trivial⟩
  · rename_i id hm
    refine Emits.bind (processJob_task hm) fun g r hr => ?_
    cases r with
    | error exc => trivial
    | ok out =>
      dsimp only
      split
      · rename_i hack
        exact ⟨⟨rfl, rfl, hr out rfl hack⟩, fun _ _ => trivial⟩
      · trivial

/-! ### A task, apart from the retry decision -/

/-- The actions of `process_job` outside `schedule_retry_or_fail`. -/
def Op.inTask : Op → Bool
  | .claimJob _ => true
  | .getJob _ _ => true
  | .initProgress _ => true
  | .writeProgress _ _ => true
  | .readFlags _ => true
  | .completeJob _ _ _ => true
  | .failJob _ _ => true
  | .cancelJob _ _ => true
  | .startHandler _ _ => true
  | .finishHandler _ => true
  | .timedOut => true
  | .now => true
  | _ => false

def Op.inHandler : Op → Bool
  | .writeProgress _ _ => true
  | .readFlags _ => true
  | .startHandler _ _ => true
  | .finishHandler _ => true
  | .timedOut => true
  | .now => true
  | _ => false

theorem Op.inTask_of_inHandler {o : Op} (ho : o.inHandler = true) : o.inTask = true := by
  cases o <;> first | rfl | cases ho

/-- The row that a process has read last by its id alone. -/
def lastRead : Hist → Option Job
  | [] => none
  | ⟨.getJob _ none, row⟩ :: _ => row
  | _ :: h => lastRead h

/-- The snapshot of `job` at hand is the row read last. -/
def HasRead (h : Hist) (job : Job) : Prop :=
  lastRead h = some job ∧ (⟨.getJob job.id none, some job⟩ : Reply Op Op.Res) ∈ h

theorem hasRead_head (job : Job) (h : Hist) : HasRead (⟨.getJob job.id none, some job⟩ :: h) job :=
  ⟨rfl, List.mem_cons_self⟩

theorem HasRead.cons {x : Reply Op Op.Res} (hr : HasRead h job) (hx : ∀ id, x.1 ≠ .getJob id none) :
    HasRead (x :: h) job := by
  refine ⟨?_, List.mem_cons_of_mem _ hr.2⟩
  obtain ⟨o, r⟩ := x
  rw [← hr.1]
  cases o with
  | getJob id u =>
    cases u with
    | none => exact absurd rfl (hx id)
    | some user => rfl
  | _ => rfl

section OfRetry

variable {P : Hist → Op → Prop} (hplain : ∀ h o, o.inTask = true → P h o)
  (hretry : ∀ (job : Job) (error : Json) (h : Hist), HasRead h job →
    Emits Valid P (fun _ _ => True) h (scheduleRetryOrFail app job error))

include hplain hretry

theorem runClaimed_of_retry (hj : HasRead h job) :
    Emits Valid P (fun _ _ => True) h (runClaimed app job) := by
  have hre : ∀ {g : Hist}, HasRead g job →
      ∀ error label, Emits Valid P (fun _ _ => True) g (retry app job error label) := by
    intro g hg error label
    refine Emits.bind (hretry job error g hg) fun _ r _ => ?_
    cases r <;> trivial
  have hhandler : ∀ payload ctx, Uses Valid (fun o => o.inHandler = true)
      (runHandler job.type payload ctx) := by
    intro payload ctx
    refine Uses.act rfl fun _ _ => ?_
    split
    · refine (handleBatch_uses _ _ _ ctx _).mono (fun _ o ho => ?_) fun _ _ _ => trivial
      cases o <;> first | rfl | exact ho.elim
    · trivial
    · refine Uses.act rfl fun v _ => ?_
      cases v <;> trivial
  unfold runClaimed
  split
  · exact ⟨hplain _ _ rfl, fun _ _ => trivial⟩
  · exact hre hj _ _
  · refine Emits.bind (Emits.of_uses (P := P) (I := fun g => HasRead g job)
      (runWithTimeout_uses (A := fun o => o.inHandler = true) rfl (hhandler _ _))
      (fun g o _ ho => hplain g o (Op.inTask_of_inHandler ho))
      (fun g o r _ hg ho => hg.cons (by rintro id rfl; cases ho)) hj) fun g r hg => ?_
    match r with
    | .error (.cancelled summary) => exact ⟨hplain _ _ rfl, fun _ _ => trivial⟩
    | .error .timeout => exact hre hg _ _
    | .error (.raised type message) => exact hre hg _ _
    | .ok result =>
      refine ⟨hplain _ _ rfl, fun won _ => ?_⟩
      cases won <;> trivial

/-- What holds of the retry decision and of every other action of a task holds of the
task. -/
theorem processJob_of_retry (id : Uuid) :
    Emits Valid P (fun _ _ => True) h (processJob app id) := by
  simp only [processJob, op_bind, mpure_eq]
  refine ⟨hplain _ _ rfl, fun claimed _ => ?_⟩
  beta_reduce
  split
  · refine ⟨hplain _ _ rfl, fun row hrow => ?_⟩
    cases row with
    | none => trivial
    | some job =>
      have hid : job.id = id := (hrow job rfl).1
      subst hid
      dsimp only
      split
      · exact ⟨hplain _ _ rfl, fun _ _ => trivial⟩
      · split
        · refine ⟨hplain _ _ rfl, fun _ _ => runClaimed_of_retry hplain hretry ?_⟩
          exact (hasRead_head job _).cons (by simp)
        · exact runClaimed_of_retry hplain hretry (hasRead_head job _)
  · trivial

end OfRetry

end JobProcessor
