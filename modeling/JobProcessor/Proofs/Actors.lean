import JobProcessor.Proofs.Issues

/-! The same for requests, the pull loop and the ticker, and one predicate for
every process of the system. -/

namespace JobProcessor

open Interleave Prog

variable {app : App}

/-! ### Submission -/

/-- Nothing has been won or handed off. -/
def Quiet (h : Hist) : Prop := ∀ x ∈ h, won x.1 x.2 = false ∧ x.1.handsOff = none

theorem Quiet.cons {h : Hist} (hq : Quiet h) {x : Reply Op Op.Res} (hx : won x.1 x.2 = false)
    (ho : x.1.handsOff = none) : Quiet (x :: h) := by
  intro y hy
  rcases List.mem_cons.1 hy with rfl | hy
  · exact ⟨hx, ho⟩
  · exact hq y hy

def Created (h : Hist) (newId : Uuid) : Prop :=
  ∃ n : Repository.NewJob, n.id = newId ∧ (⟨.createJob n, true⟩ : Reply Op Op.Res) ∈ h

/-- The row a submission asks for. -/
structure IsNew (app : App) (user newId : Uuid) (sub : JobSubmission) (n : Repository.NewJob) :
    Prop where
  id : n.id = newId
  userId : n.userId = some user
  type : n.type = sub.type
  status : n.status = .pending ∨ n.status = .scheduled
  maxAttempts : n.maxAttempts = if sub.type = .batch then 1 else app.settings.maxAttempts
  key : n.idempotencyKey = sub.idempotencyKey
  hash : n.idempotencyHash =
    sub.idempotencyKey.map fun _ => app.canonicalHash sub.type sub.payload

def submitIssues (app : App) (user newId : Uuid) (sub : JobSubmission) (h : Hist) : Op → Prop
  | .createJob n => IsNew app user newId sub n ∧ Quiet h
  | .getJob id u => u = none ∧ id = newId ∧ Created h id
  | .getByIdempotencyKey k u => u = user ∧ sub.idempotencyKey = some k
  | .xadd _ id => id = newId ∧ Created h id ∧ ∀ x ∈ h, x.1.handsOff = none
  | .zadd id _ => id = newId ∧ Created h id ∧ ∀ x ∈ h, x.1.handsOff = none
  | .markSynced id => id = newId ∧ ∃ x g, h = x :: g ∧ x.1.handsOff = some id ∧ Created g id
  | .now => True
  | _ => False

inductive Answers (app : App) (user newId : Uuid) (sub : JobSubmission) (key : String) (h : Hist) :
    Except Exc Response → Prop where
  | created (n : Repository.NewJob) (job : Job) : IsNew app user newId sub n →
      (⟨.createJob n, true⟩ : Reply Op Op.Res) ∈ h →
      (⟨.getJob newId none, some job⟩ : Reply Op Op.Res) ∈ h → job.id = newId →
      Answers app user newId sub key h (.ok ⟨202, .accepted (accepted job)⟩)
  | found (job : Job) :
      (⟨.getByIdempotencyKey key user, some job⟩ : Reply Op Op.Res) ∈ h →
      job.uqUserIdempotencyKey = some (user, key) → Quiet h →
      Answers app user newId sub key h
        (.ok (replayOrConflict (some job) (app.canonicalHash sub.type sub.payload)))
  | vanished (n : Repository.NewJob) (g : Hist) : IsNew app user newId sub n →
      h = ⟨.getByIdempotencyKey key user, none⟩ :: g →
      (⟨.createJob n, false⟩ : Reply Op Op.Res) ∈ g →
      Answers app user newId sub key h
        (.ok (replayOrConflict none (app.canonicalHash sub.type sub.payload)))
  | unread (g : Hist) : h = ⟨.getJob newId none, none⟩ :: g → Created g newId →
      Answers app user newId sub key h (.error .invalidRequest)

section Submit

variable {user newId : Uuid} {sub : JobSubmission} {h : Hist}

/-- What `createPending` and `createScheduled` leave behind. -/
def Handed (app : App) (user newId : Uuid) (sub : JobSubmission) (h : Hist) : Except Exc Job → Prop
  | .ok job => ∃ n : Repository.NewJob, IsNew app user newId sub n ∧
      (⟨.createJob n, true⟩ : Reply Op Op.Res) ∈ h ∧
      (⟨.getJob newId none, some job⟩ : Reply Op Op.Res) ∈ h ∧ job.id = newId
  | .error .integrityError => ∃ n : Repository.NewJob, IsNew app user newId sub n ∧
      (⟨.createJob n, false⟩ : Reply Op Op.Res) ∈ h ∧ Quiet h
  | .error exc => exc = .invalidRequest ∧
      ∃ g, h = ⟨.getJob newId none, none⟩ :: g ∧ Created g newId

theorem create_emits {n : Repository.NewJob} (hn : IsNew app user newId sub n) (hq : Quiet h)
    (o : Uuid → Op) (ho : ∀ id, (o id).handsOff = some id)
    (hp : ∀ g, Created g newId → (∀ x ∈ g, x.1.handsOff = none) →
      submitIssues app user newId sub g (o newId))
    {k : Except Exc Job → Prg (Except Exc Job)} (herr : ∀ exc, k (.error exc) = .pure (.error exc))
    (hok : ∀ job, k (.ok job) =
      .act (o job.id) fun _ => .act (.markSynced job.id) fun _ => .pure (.ok job)) :
    Emits Valid (submitIssues app user newId sub) (Handed app user newId sub) h
      (createJob n >>= k) := by
  simp only [createJob, op_bind, mpure_eq, act_bind]
  refine ⟨⟨hn, hq⟩, fun r _ => ?_⟩
  cases r with
  | false =>
    change Emits _ _ _ _ (k (.error .integrityError))
    rw [herr]
    exact ⟨n, hn, List.mem_cons_self, hq.cons rfl rfl⟩
  | true =>
    have hc : ∀ g : Hist, Created (g ++ (⟨.createJob n, true⟩ :: h)) newId := fun g =>
      ⟨n, hn.id, by simp⟩
    rw [hn.id]
    refine ⟨⟨rfl, rfl, hc []⟩, fun row hrow => ?_⟩
    cases row with
    | none =>
      change Emits _ _ _ _ (k (.error .invalidRequest))
      rw [herr]
      exact ⟨rfl, _, rfl, hc []⟩
    | some job =>
      change Emits _ _ _ _ (k (.ok job))
      rw [hok]
      have hid : job.id = newId := (hrow job rfl).1
      subst hid
      refine ⟨hp _ (hc [_]) ?_, fun _ _ => ⟨⟨rfl, _, _, rfl, ho _, hc [_]⟩, fun _ _ => ?_⟩⟩
      · intro x hx
        simp only [List.mem_cons] at hx
        rcases hx with rfl | rfl | hx
        · rfl
        · rfl
        · exact (hq x hx).2
      · exact ⟨n, hn, by simp, by simp, rfl⟩

theorem createAndHandoff_emits (hq : Quiet h) (key hash : Option String)
    (hk : key = sub.idempotencyKey)
    (hh : hash = sub.idempotencyKey.map fun _ => app.canonicalHash sub.type sub.payload) :
    Emits Valid (submitIssues app user newId sub) (Handed app user newId sub) h
      (createAndHandoff app user newId sub key hash) := by
  have hn : IsNew app user newId sub (newJob app user newId sub key hash) :=
    ⟨rfl, rfl, rfl, .inl rfl, rfl, hk, hh⟩
  have hpend : ∀ {g}, Quiet g → Emits Valid (submitIssues app user newId sub)
      (Handed app user newId sub) g (createPending app (newJob app user newId sub key hash)) :=
    fun hg => create_emits hn hg (.xadd _) (fun _ => rfl) (fun _ hc hh => ⟨rfl, hc, hh⟩) (fun _ => rfl)
      fun _ => rfl
  unfold createAndHandoff
  split
  · exact hpend hq
  · rename_i scheduledAt _
    simp only [op_bind]
    refine ⟨trivial, fun now _ => ?_⟩
    beta_reduce
    have hq' : Quiet (⟨.now, now⟩ :: h) := hq.cons rfl rfl
    split
    · refine create_emits ?_ hq' (.zadd · scheduledAt) (fun _ => rfl)
        (fun _ hc hh => ⟨rfl, hc, hh⟩) ?_ ?_
      · exact { hn with status := .inr rfl }
      · exact fun _ => rfl
      · exact fun _ => rfl
    · exact hpend hq'

def submitAnswers (app : App) (user newId : Uuid) (sub : JobSubmission) (h : Hist)
    (r : Except Exc Response) : Prop :=
  ∀ payload key, app.validatePayload sub.type sub.payload = .ok payload →
    sub.idempotencyKey = some key → Answers app user newId sub key h r

theorem submitKeyed_emits {key : String} (hk : sub.idempotencyKey = some key) :
    Emits Valid (submitIssues app user newId sub) (Answers app user newId sub key) []
      (submitKeyed app user newId sub key) := by
  simp only [submitKeyed, op_bind, mpure_eq]
  refine ⟨⟨rfl, hk⟩, fun existing hex => ?_⟩
  have hq : Quiet [⟨.getByIdempotencyKey key user, existing⟩] := by
    intro x hx
    rw [List.mem_singleton] at hx
    subst hx
    exact ⟨rfl, rfl⟩
  cases existing with
  | some job => exact .found job List.mem_cons_self (hex job rfl) hq
  | none =>
    refine Emits.bind (createAndHandoff_emits hq _ _ hk.symm (by simp [hk])) fun g r hr => ?_
    rcases r with exc | job
    · cases exc with
      | integrityError =>
        obtain ⟨n, hn, hc, hg⟩ := hr
        refine ⟨⟨rfl, hk⟩, fun existing hex => ?_⟩
        cases existing with
        | none => exact .vanished n g hn rfl hc
        | some job => exact .found job List.mem_cons_self (hex job rfl) (Quiet.cons hg rfl rfl)
      | invalidRequest =>
        obtain ⟨-, g', rfl, hc⟩ := hr
        exact .unread g' rfl hc
      | _ => exact nomatch hr.1
    · obtain ⟨n, hn, hc, hj, hid⟩ := hr
      exact .created n job hn hc hj hid

theorem submitJob_emits :
    Emits Valid (submitIssues app user newId sub) (submitAnswers app user newId sub) []
      (submitJob app user newId sub) := by
  unfold submitJob
  split
  · rename_i hv
    intro payload key hp
    rw [hv] at hp
    cases hp
  · split
    · rename_i hk
      refine Emits.bind (createAndHandoff_emits (by intro x hx; cases hx) _ _ hk.symm (by simp [hk]))
        fun g r _ => ?_
      cases r <;> exact fun _ _ _ hk' => by simp [hk] at hk'
    · rename_i hk
      refine (submitKeyed_emits hk).mono (fun _ _ ho => ho) fun g r hr _ key' _ hk' => ?_
      rw [hk, Option.some.injEq] at hk'
      exact hk' ▸ hr

end Submit

/-! ### The other routes -/

section Routes

variable {user id : Uuid}

/-- The row of `id` was read with `user` as its owner. -/
def Owned (user id : Uuid) (h : Hist) : Prop :=
  ∃ job : Job, (⟨.getJob id (some user), some job⟩ : Reply Op Op.Res) ∈ h

theorem Owned.cons {h : Hist} (ho : Owned user id h) (x : Reply Op Op.Res) :
    Owned user id (x :: h) :=
  ho.imp fun _ hj => List.mem_cons_of_mem _ hj

def readIssues (user id : Uuid) : Op → Prop
  | .getJob i u => i = id ∧ u = some user
  | _ => False

def retryJobIssues (user id : Uuid) (h : Hist) : Op → Prop
  | .getJob i u => i = id ∧ (u = some user ∨ u = none ∧ Owned user id h)
  | .resetFailedToPending i => i = id ∧ Owned user id h
  | .xadd _ i => i = id ∧ Owned user id h ∧ ∃ g, h = ⟨.resetFailedToPending id, true⟩ :: g
  | .markSynced i => i = id ∧ Owned user id h ∧ ∃ x g, h = x :: g ∧ x.1.handsOff = some id
  | _ => False

def cancelIssues (user id : Uuid) (h : Hist) : Op → Prop
  | .getJob i u => i = id ∧ (u = some user ∨ u = none ∧ Owned user id h)
  | .cancelPendingOrScheduled i => i = id ∧ Owned user id h
  | .requestCancel i => i = id ∧ Owned user id h
  | .zrem ids => ids = [id] ∧ Owned user id h ∧
    (⟨.cancelPendingOrScheduled id, true⟩ : Reply Op Op.Res) ∈ h
  | .now => True
  | _ => False

def listIssues (user : Uuid) : Op → Prop
  | .listJobs f _ => f.userId = some user
  | _ => False

theorem getJobRoute_emits : Uses Valid (readIssues user id) (getJobRoute user id) := by
  refine ⟨⟨rfl, rfl⟩, fun row _ => ?_⟩
  cases row <;> trivial

theorem retryJob_emits :
    Emits Valid (retryJobIssues user id) (fun _ _ => True) [] (retryJob app user id) := by
  simp only [retryJob, op_bind, mpure_eq]
  refine ⟨⟨rfl, .inl rfl⟩, fun row _ => ?_⟩
  cases row with
  | none => trivial
  | some job =>
    have ho : Owned user id [⟨.getJob id (some user), some job⟩] := ⟨job, List.mem_cons_self⟩
    refine ⟨⟨rfl, ho⟩, fun won _ => ?_⟩
    cases won with
    | false => trivial
    | true =>
      refine ⟨⟨rfl, ho.cons _, _, rfl⟩, fun _ _ => ⟨⟨rfl, (ho.cons _).cons _, _, _, rfl, rfl⟩, ?_⟩⟩
      intro _ _
      refine ⟨⟨rfl, .inr ⟨rfl, ((ho.cons _).cons _).cons _⟩⟩, fun fresh _ => ?_⟩
      cases fresh <;> trivial

/-- Nothing has been won, nor removed from the delayed set. -/
def Harmless (h : Hist) : Prop :=
  ∀ x ∈ h, won x.1 x.2 = false ∧ ∀ ids, x.1 ≠ .zrem ids

theorem Harmless.cons {h : Hist} (hh : Harmless h) {x : Reply Op Op.Res}
    (hx : won x.1 x.2 = false) (hz : ∀ ids, x.1 ≠ .zrem ids) : Harmless (x :: h) := by
  intro y hy
  rcases List.mem_cons.1 hy with rfl | hy
  · exact ⟨hx, hz⟩
  · exact hh y hy

/-- The row of `id` was read unscoped, and had a status with property `p`. -/
def ReadAs (p : JobStatus → Prop) (id : Uuid) (h : Hist) : Prop :=
  ∃ job : Job, (⟨.getJob id none, some job⟩ : Reply Op Op.Res) ∈ h ∧ p job.status

theorem ReadAs.cons {p : JobStatus → Prop} {h : Hist} (hr : ReadAs p id h) (x : Reply Op Op.Res) :
    ReadAs p id (x :: h) :=
  hr.imp fun _ hj => ⟨List.mem_cons_of_mem _ hj.1, hj.2⟩

/-- `cancel_pending_or_scheduled` has missed its row while the session held an
instance of it that was queued. -/
def MissedHeld (id : Uuid) (h : Hist) : Prop :=
  ∃ g, ⟨.cancelPendingOrScheduled id, false⟩ :: g <:+ h ∧ ReadAs (fun s => s.claimable = true) id g

/-- After that, `request_cancel` has missed the row as well. -/
def MissedTwice (id : Uuid) (h : Hist) : Prop :=
  ∃ g, ⟨.requestCancel id, false⟩ :: g <:+ h ∧ MissedHeld id g

structure CancelAnswers (id : Uuid) (h : Hist) (resp : Response) : Prop where
  done : resp.status = 200 → (⟨.cancelPendingOrScheduled id, true⟩ : Reply Op Op.Res) ∈ h ∨
    ReadAs (· = .cancelled) id h ∨ MissedTwice id h
  requested : resp.status = 202 → (⟨.requestCancel id, true⟩ : Reply Op Op.Res) ∈ h
  refused : resp = ⟨409, .detail "job cannot be cancelled in its current state"⟩ →
    ReadAs (fun s => s = .completed ∨ s = .failed) id h
  unchanged : resp.status = 404 ∨ resp.status = 409 → Harmless h

def cancelAnswers (id : Uuid) (h : Hist) (r : Except Exc Response) : Prop :=
  ∀ resp, r = .ok resp → CancelAnswers id h resp

/-- What a session may hold between two rounds: an instance that is queued or
processing, and was queued when it was read if it is now. -/
def Held (id : Uuid) (h : Hist) (held : Option Job) : Prop :=
  ∀ job ∈ held, job.status.claimable = true ∧ ReadAs (fun s => s.claimable = true) id h ∨
    job.status = .processing

section Cancel

variable {h : Hist} {held : Option Job}

/-- The instance after a statement has missed: it is only cancelled when `missed`. -/
def HeldOver (missed : Prop) (held : Option Job) : Prop :=
  ∀ job ∈ held, job.status = .cancelled ∧ missed ∨ job.status = .processing

theorem cancelPendingOrScheduled_emits (ho : Owned user id h) (hh : Harmless h)
    (hheld : Held id h held) :
    Emits Valid (cancelIssues user id)
      (fun g r => Owned user id g ∧
        (r.1 = true → (⟨.cancelPendingOrScheduled id, true⟩ : Reply Op Op.Res) ∈ g) ∧
        (r.1 = false → Harmless g ∧ HeldOver (MissedHeld id g) r.2)) h
      (cancelPendingOrScheduled id held) := by
  refine ⟨⟨rfl, ho⟩, fun won _ => ?_⟩
  have hwin : won = true →
      (⟨.cancelPendingOrScheduled id, true⟩ : Reply Op Op.Res) ∈
        (⟨.cancelPendingOrScheduled id, won⟩ :: h : Hist) := by
    rintro rfl
    exact List.mem_cons_self
  have hlose : won = false → Harmless (⟨.cancelPendingOrScheduled id, won⟩ :: h) :=
    fun hw => hh.cons hw (by simp)
  cases held with
  | none => exact ⟨ho.cons _, hwin, fun hw => ⟨hlose hw, by simp [HeldOver]⟩⟩
  | some job =>
    change Emits _ _ _ _ ((if job.status.claimable = true then _ else _) >>= _)
    rcases hheld job rfl with ⟨hc, hr⟩ | hp
    · rw [if_pos hc]
      refine ⟨trivial, fun now _ => ⟨(ho.cons _).cons _, fun hw => ?_, fun hw => ?_⟩⟩
      · exact List.mem_cons_of_mem _ (hwin hw)
      · refine ⟨(hlose hw).cons rfl (by simp), ?_⟩
        intro job' hj'
        rw [Option.mem_some_iff] at hj'
        subst hj'
        refine .inl ⟨rfl, h, ?_, hr⟩
        rw [show won = false from hw]
        exact List.suffix_cons _ _
    · rw [if_neg (by simp [hp, JobStatus.claimable])]
      refine ⟨ho.cons _, hwin, fun hw => ⟨hlose hw, ?_⟩⟩
      intro job' hj'
      rw [Option.mem_some_iff] at hj'
      exact .inr (hj' ▸ hp)

theorem requestCancel_emits (ho : Owned user id h) (hh : Harmless h)
    (hheld : HeldOver (MissedHeld id h) held) :
    Emits Valid (cancelIssues user id)
      (fun g r => Owned user id g ∧
        (r.1 = true → (⟨.requestCancel id, true⟩ : Reply Op Op.Res) ∈ g) ∧
        (r.1 = false → Harmless g ∧ HeldOver (MissedTwice id g) r.2)) h
      (requestCancel id held) := by
  refine ⟨⟨rfl, ho⟩, fun won _ => ?_⟩
  have hwin : won = true → (⟨.requestCancel id, true⟩ : Reply Op Op.Res) ∈
      (⟨.requestCancel id, won⟩ :: h : Hist) := by
    rintro rfl
    exact List.mem_cons_self
  have hlose : won = false → Harmless (⟨.requestCancel id, won⟩ :: h) :=
    fun hw => hh.cons hw (by simp)
  cases held with
  | none => exact ⟨ho.cons _, hwin, fun hw => ⟨hlose hw, by simp [HeldOver]⟩⟩
  | some job =>
    change Emits _ _ _ _ ((if (decide (job.status = .processing)) = true then _ else _) >>= _)
    rcases hheld job rfl with ⟨hc, hm⟩ | hp
    · rw [if_neg (by simp [hc])]
      refine ⟨ho.cons _, hwin, fun hw => ⟨hlose hw, ?_⟩⟩
      intro job' hj'
      rw [Option.mem_some_iff] at hj'
      refine .inl (hj' ▸ ⟨hc, h, ?_, hm⟩)
      exact (show won = false from hw) ▸ List.suffix_refl _
    · rw [if_pos (by simp [hp])]
      refine ⟨trivial, fun now _ => ⟨(ho.cons _).cons _, fun hw => ?_, fun hw => ?_⟩⟩
      · exact List.mem_cons_of_mem _ (hwin hw)
      · refine ⟨(hlose hw).cons rfl (by simp), ?_⟩
        intro job' hj'
        rw [Option.mem_some_iff] at hj'
        subst hj'
        exact .inr hp

theorem answerJob_emits {status : Nat} (ho : Owned user id h)
    (ha : ∀ x body, CancelAnswers id h ⟨status, body⟩ ∧ CancelAnswers id (x :: h) ⟨status, body⟩) :
    Emits Valid (cancelIssues user id) (cancelAnswers id) h (answerJob status id held) := by
  have hok : ∀ g (job : Job), (∀ body, CancelAnswers id g ⟨status, body⟩) →
      cancelAnswers id g (.ok ⟨status, .job (.ofJob job)⟩) := by
    intro g job hg resp hr
    cases hr
    exact hg _
  cases held with
  | some job => exact hok h job fun body => (ha ⟨.now, (0 : Int)⟩ body).1
  | none =>
    refine ⟨⟨rfl, .inr ⟨rfl, ho⟩⟩, fun row _ => ?_⟩
    cases row with
    | none => exact fun resp hr => nomatch hr
    | some job => exact hok _ job fun body => (ha _ body).2

theorem cancelAnswers_done {resp : Response} (hs : resp.status = 200)
    (hd : (⟨.cancelPendingOrScheduled id, true⟩ : Reply Op Op.Res) ∈ h ∨
      ReadAs (· = .cancelled) id h ∨ MissedTwice id h) : CancelAnswers id h resp := by
  refine ⟨fun _ => hd, ?_, ?_, ?_⟩
  · simp [hs]
  · rintro rfl
    cases hs
  · simp [hs]

theorem cancelAnswers_requested {resp : Response} (hs : resp.status = 202)
    (hd : (⟨.requestCancel id, true⟩ : Reply Op Op.Res) ∈ h) : CancelAnswers id h resp := by
  refine ⟨?_, fun _ => hd, ?_, ?_⟩
  · simp [hs]
  · rintro rfl
    cases hs
  · simp [hs]

theorem cancelAnswers_unchanged {resp : Response} (hs : resp.status = 404 ∨ resp.status = 409)
    (hh : Harmless h)
    (hd : resp = ⟨409, .detail "job cannot be cancelled in its current state"⟩ →
      ReadAs (fun s => s = .completed ∨ s = .failed) id h) : CancelAnswers id h resp := by
  refine ⟨?_, ?_, hd, fun _ => hh⟩
  · rcases hs with hs | hs <;> simp [hs]
  · rcases hs with hs | hs <;> simp [hs]

theorem roundEnd_emits {job : Job} {next : Prog Op Op.Res (Except Exc Response)} (hh : Harmless h)
    (hcan : job.status = .cancelled → ReadAs (· = .cancelled) id h ∨ MissedTwice id h)
    (hfin : job.status = .completed ∨ job.status = .failed →
      ReadAs (fun s => s = .completed ∨ s = .failed) id h)
    (hnext : job.status.terminal = false →
      Emits Valid (cancelIssues user id) (cancelAnswers id) h next) :
    Emits Valid (cancelIssues user id) (cancelAnswers id) h
      (if job.status = .cancelled then Prog.pure (.ok ⟨200, .job (.ofJob job)⟩)
      else if job.status = .completed ∨ job.status = .failed then
        Prog.pure (.ok ⟨409, .detail "job cannot be cancelled in its current state"⟩)
      else next) := by
  split
  · rename_i hs
    intro resp hr
    cases hr
    exact cancelAnswers_done rfl (.inr (hcan hs))
  · split
    · rename_i hs
      intro resp hr
      cases hr
      exact cancelAnswers_unchanged (.inr rfl) hh fun _ => hfin hs
    · rename_i hs hs'
      apply hnext
      rw [Bool.eq_false_iff, ne_eq, JobStatus.terminal_iff, not_or]
      exact ⟨hs, hs'⟩

theorem cancelRounds_emits (rounds : Nat) (ho : Owned user id h) (hh : Harmless h)
    (hheld : Held id h held) :
    Emits Valid (cancelIssues user id) (cancelAnswers id) h (cancelRounds id rounds held) := by
  induction rounds generalizing h held with
  | zero =>
    intro resp hr
    cases hr
    exact cancelAnswers_unchanged (.inr rfl) hh (by simp)
  | succ rounds ih =>
    refine Emits.bind (cancelPendingOrScheduled_emits ho hh hheld) fun g r hg => ?_
    obtain ⟨cancelled, held₁⟩ := r
    obtain ⟨ho₁, hwin, hlose⟩ := hg
    cases cancelled with
    | true =>
      have hmem := hwin rfl
      refine ⟨⟨rfl, ho₁, hmem⟩, fun _ _ => answerJob_emits (ho₁.cons _) fun x body => ?_⟩
      exact ⟨cancelAnswers_done rfl (.inl (List.mem_cons_of_mem _ hmem)), cancelAnswers_done rfl
        (.inl (List.mem_cons_of_mem _ (List.mem_cons_of_mem _ hmem)))⟩
    | false =>
      obtain ⟨hh₁, hheld₁⟩ := hlose rfl
      refine Emits.bind (requestCancel_emits ho₁ hh₁ hheld₁) fun g r hg => ?_
      obtain ⟨requested, held₂⟩ := r
      obtain ⟨ho₂, hwin₂, hlose₂⟩ := hg
      cases requested with
      | true =>
        have hmem := hwin₂ rfl
        exact answerJob_emits ho₂ fun x body => ⟨cancelAnswers_requested rfl hmem,
          cancelAnswers_requested rfl (List.mem_cons_of_mem _ hmem)⟩
      | false =>
        obtain ⟨hh₂, hheld₂⟩ := hlose₂ rfl
        cases held₂ with
        | some job =>
          rcases hheld₂ job rfl with ⟨hs, hm⟩ | hs
          · refine roundEnd_emits hh₂ (fun _ => .inr hm) (fun hfin => ?_) fun hlive => ?_
            · rw [hs] at hfin
              rcases hfin with hfin | hfin <;> cases hfin
            · rw [hs] at hlive
              cases hlive
          · refine roundEnd_emits hh₂ (fun hcan => ?_) (fun hfin => ?_) fun _ => ?_
            · rw [hs] at hcan
              cases hcan
            · rw [hs] at hfin
              rcases hfin with hfin | hfin <;> cases hfin
            · refine ih ho₂ hh₂ fun job' hj' => ?_
              rw [Option.mem_some_iff] at hj'
              exact .inr (hj' ▸ hs)
        | none =>
          refine ⟨⟨rfl, .inr ⟨rfl, ho₂⟩⟩, fun row _ => ?_⟩
          have hh₃ : Harmless (⟨.getJob id none, row⟩ :: g) := hh₂.cons rfl (by simp)
          cases row with
          | none =>
            intro resp hr
            cases hr
            exact cancelAnswers_unchanged (.inl rfl) hh₃ (by simp [notFound])
          | some job =>
            refine roundEnd_emits hh₃ (fun hs => .inl ⟨job, List.mem_cons_self, hs⟩)
              (fun hs => ⟨job, List.mem_cons_self, hs⟩) fun hlive => ?_
            refine ih (ho₂.cons _) hh₃ fun job' hj' => ?_
            rw [Option.mem_some_iff] at hj'
            subst hj'
            by_cases hp : job.status = .processing
            · exact .inr hp
            · have hclaim := JobStatus.claimable_iff.2 ⟨hp, hlive⟩
              exact .inl ⟨hclaim, job, List.mem_cons_self, hclaim⟩

theorem cancelJobRoute_emits :
    Emits Valid (cancelIssues user id) (cancelAnswers id) [] (cancelJobRoute user id) := by
  refine ⟨⟨rfl, .inl rfl⟩, fun row _ => ?_⟩
  have hh : Harmless [⟨.getJob id (some user), row⟩] := by simp [Harmless, won]
  cases row with
  | none =>
    intro resp hr
    cases hr
    exact cancelAnswers_unchanged (.inl rfl) hh (by simp [notFound])
  | some job => exact cancelRounds_emits 3 ⟨job, List.mem_cons_self⟩ hh (by simp [Held])

end Cancel

theorem listJobsRoute_emits (status : Option JobStatus) (type : Option JobType)
    (priority : Option JobPriority) (limit : Nat) (cursor : Option String) :
    Uses Valid (listIssues user) (listJobsRoute app user status type priority limit cursor) := by
  unfold listJobsRoute
  split
  · trivial
  · trivial
  · exact ⟨rfl, fun _ _ => trivial⟩

end Routes

/-! ### The pull loop -/

section Loop

variable {consumer : String} {h : Hist}

/-- The messages `XREADGROUP` has delivered to a loop, in order. -/
def delivered : Hist → List Message
  | [] => []
  | ⟨.xreadgroup _ _ _, msgs⟩ :: h => delivered h ++ msgs
  | _ :: h => delivered h

def dispatched : Hist → List Message
  | [] => []
  | ⟨.createTask (.runOne _ m), _⟩ :: h => dispatched h ++ [m]
  | _ :: h => dispatched h

def Single (h : Hist) : Prop :=
  ∀ c ss n msgs, (⟨.xreadgroup c ss n, msgs⟩ : Reply Op Op.Res) ∈ h → msgs.length ≤ 1

/-- Nothing delivered is waiting, unless some read brought several messages. -/
def Drained (h : Hist) : Prop := Single h → delivered h = dispatched h

def loopIssues (app : App) (consumer : String) (h : Hist) : Op → Prop
  | .shouldStop => Drained h
  | .semAcquire c => c = consumer
  | .semRelease c => c = consumer
  | .xreadgroup c ss n => c = consumer ∧ n = 1 ∧
    ((∃ s, ss = [s]) ∨ ss = app.settings.orderedStreams.eraseDups) ∧ Drained h
  | .createTask p => ∃ m ms c ss n g, p = .runOne consumer m ∧
    h = ⟨.xreadgroup c ss n, m :: ms⟩ :: g
  | _ => False

theorem Single.tail {x : Reply Op Op.Res} (hs : Single (x :: h)) : Single h :=
  fun c ss n msgs hm => hs c ss n msgs (List.mem_cons_of_mem _ hm)

/-- What a read leaves: nothing, or a fresh batch. -/
def Batch (h : Hist) : List Message → Prop
  | [] => Drained h
  | m :: ms => ∃ c ss n g, h = ⟨.xreadgroup c ss n, m :: ms⟩ :: g ∧ Drained g

theorem read_emits {c : String} {ss : List String} {n : Nat} (hd : Drained h)
    (msgs : List Message) : Batch (⟨.xreadgroup c ss n, msgs⟩ :: h) msgs := by
  cases msgs with
  | nil =>
    intro hs
    change delivered h ++ [] = dispatched h
    rw [List.append_nil]
    exact hd hs.tail
  | cons m ms => exact ⟨c, ss, n, h, rfl, hd⟩

theorem probe_emits (ss : List String) (hd : Drained h) :
    Emits Valid (loopIssues app consumer) Batch h (probe consumer 1 ss) := by
  induction ss generalizing h with
  | nil => exact hd
  | cons s ss ih =>
    refine ⟨⟨rfl, rfl, .inl ⟨s, rfl⟩, hd⟩, fun msgs _ => ?_⟩
    have hb : Batch (⟨.xreadgroup consumer [s] 1, msgs⟩ :: h) msgs := read_emits hd msgs
    cases msgs with
    | nil => exact ih hb
    | cons m ms => exact hb

theorem readPriority_emits (hd : Drained h) :
    Emits Valid (loopIssues app consumer) Batch h
      (readPriority consumer app.settings.orderedStreams 1) := by
  refine Emits.bind (probe_emits _ hd) fun g msgs hb => ?_
  cases msgs with
  | nil => exact ⟨⟨rfl, rfl, .inr rfl, hb⟩, fun msgs _ => read_emits hb msgs⟩
  | cons m ms => exact hb

theorem workerLoop_emits (fuel : Nat) (hd : Drained h) :
    Emits Valid (loopIssues app consumer) (fun g _ => Drained g) h
      (workerLoop app consumer fuel) := by
  induction fuel generalizing h with
  | zero => exact hd
  | succ fuel ih =>
    simp only [workerLoop, op_bind, mpure_eq]
    refine ⟨hd, fun stop _ => ?_⟩
    have hd' : Drained (⟨.shouldStop, stop⟩ :: h) := fun hs => hd hs.tail
    cases stop with
    | true => exact hd'
    | false =>
      refine ⟨rfl, fun _ _ => ?_⟩
      have hd'' : ∀ u : Unit, Drained (⟨.semAcquire consumer, u⟩ :: ⟨.shouldStop, false⟩ :: h) :=
        fun _ hs => hd' hs.tail
      refine Emits.bind (readPriority_emits (hd'' _)) fun g msgs hb => ?_
      cases msgs with
      | nil => exact ⟨rfl, fun _ _ => ih fun hs => hb hs.tail⟩
      | cons m ms =>
        obtain ⟨c, ss, n, g', rfl, hg⟩ := hb
        refine ⟨⟨m, ms, c, ss, n, g', rfl, rfl⟩, fun _ _ => ih fun hs => ?_⟩
        have hlen := hs c ss n (m :: ms) (by simp)
        have hms : ms = [] := by
          rw [List.length_cons] at hlen
          exact List.length_eq_zero_iff.1 (by omega)
        change delivered g' ++ (m :: ms) = dispatched g' ++ [m]
        rw [hms, hg hs.tail.tail]

end Loop

/-! ### The ticker -/

section Ticker

/-- A read row says that `id` exists. -/
def Known (h : Hist) (id : Uuid) : Prop :=
  (∃ job : Job, (⟨.getJob id none, some job⟩ : Reply Op Op.Res) ∈ h) ∨
  (∃ t n, ∃ rows : List Job, (⟨.listUnsynced t n, rows⟩ : Reply Op Op.Res) ∈ h ∧
    ∃ job ∈ rows, job.id = id) ∨
  ∃ ids, ∃ info : List (Uuid × JobPriority),
    (⟨.getPromotionInfo ids, info⟩ : Reply Op Op.Res) ∈ h ∧ ∃ p, (id, p) ∈ info

/-- Where the reaper stands: the messages of its last `XAUTOCLAIM` that it has still
to acknowledge, the one at hand first; the row it has read for that one; and since
that read whether it has tried to settle a job, and the jobs it has handed off. Each
tick begins anew. -/
structure Reap where
  todo : List Message := []
  row : Option (Option Job) := none
  tried : Bool := false
  handed : List Uuid := []

def reapStep (s : Reap) : Reply Op Op.Res → Reap
  | ⟨.shouldStop, _⟩ => {}
  | ⟨.xautoclaim _ _ _ _, reply⟩ => { todo := reply.2 }
  | ⟨.xack _ _, _⟩ => { todo := s.todo.tail }
  | ⟨.getJob _ _, row⟩ => { todo := s.todo, row := some row }
  | ⟨.completeJob _ _ _, _⟩ => { s with tried := true }
  | ⟨.failJob _ _, _⟩ => { s with tried := true }
  | ⟨.retryToPending _, _⟩ => { s with tried := true }
  | ⟨.retryToScheduled _ _, _⟩ => { s with tried := true }
  | ⟨.cancelJob _ _, _⟩ => { s with tried := true }
  | ⟨.xadd _ id, _⟩ => { s with handed := id :: s.handed }
  | ⟨.zadd id _, _⟩ => { s with handed := id :: s.handed }
  | _ => s

def reap : Hist → Reap
  | [] => {}
  | x :: h => reapStep (reap h) x

/-- The reaper is about to settle job `id`: it has read a processing row through the
message at hand. -/
def Reaping (h : Hist) (id : Uuid) : Prop :=
  ∃ m ms job, (reap h).todo = m :: ms ∧ m.jobId = some id ∧ (reap h).row = some (some job) ∧
    job.status = .processing ∧ (reap h).tried = false

/-- The reaper may acknowledge the message at hand, which names job `id`. -/
def Reap.Done (s : Reap) (id : Uuid) : Prop :=
  s.row = some none ∨ ∃ job, s.row = some (some job) ∧
    (job.status.terminal = true ∨ job.status = .processing ∧ s.tried = true ∨
      job.status.claimable = true ∧ (job.isSyncedToRedis = true ∨ id ∈ s.handed))

/-- The ids a promotion has put into streams since its `ZRANGEBYSCORE`; `none` outside
a promotion or after its `ZREM`. -/
def promoted : Hist → Option (List Uuid)
  | [] => none
  | ⟨.zrangebyscore _ _, _⟩ :: _ => some []
  | ⟨.getPromotionInfo _, _⟩ :: h => promoted h
  | ⟨.xadd _ id, _⟩ :: h => (promoted h).map (id :: ·)
  | _ :: _ => none

/-- A promotion may remove `ids` from the delayed set: it has put every one of them
that has a row into a stream. -/
def Promoted (h : Hist) (ids : List Uuid) : Prop :=
  ∃ ps info hi n, promoted h = some ps ∧
    (⟨.zrangebyscore hi n, ids⟩ : Reply Op Op.Res) ∈ h ∧
    (⟨.getPromotionInfo ids, info⟩ : Reply Op Op.Res) ∈ h ∧
    ∀ id ∈ ids, ∀ p, (id, p) ∈ info → id ∈ ps

def tickerIssues (h : Hist) : Op → Prop
  | .getJob id u => u = none ∧ ∃ m ms, (reap h).todo = m :: ms ∧ m.jobId = some id
  | .failJob id _ => Reaping h id
  | .retryToPending id => Reaping h id ∧ Retryable h id
  | .retryToScheduled id _ => Reaping h id ∧ Retryable h id
  | .xadd _ id => Known h id
  | .zadd id _ => Known h id
  | .markSynced id => ∃ x g, h = x :: g ∧ x.1.handsOff = some id
  | .promoteScheduledToPending _ => True
  | .listUnsynced _ _ => True
  | .getPromotionInfo ids => ∃ hi n, (⟨.zrangebyscore hi n, ids⟩ : Reply Op Op.Res) ∈ h
  | .xautoclaim _ _ _ _ => True
  | .xack s i => ∃ m ms, (reap h).todo = m :: ms ∧ s = m.stream ∧ i = m.messageId ∧
    ∀ id, m.jobId = some id → (reap h).Done id
  | .zrangebyscore _ _ => True
  | .zrem ids => Promoted h ids ∧ (reap h).todo = []
  | .now => True
  | .shouldStop => True
  | .tickFailed _ => True
  | _ => False

/-- The actions of a retry leave the message at hand and the row read for it. -/
theorem reap_retry {k h : Hist} (hk : ∀ x ∈ k, x.1.inRetry = true) :
    (reap (k ++ h)).todo = (reap h).todo ∧ (reap (k ++ h)).row = (reap h).row ∧
      ((∃ x ∈ k, x.1.settles ≠ none) → (reap (k ++ h)).tried = true) := by
  induction k with
  | nil => simp
  | cons x k ih =>
    obtain ⟨htodo, hrow, htried⟩ := ih fun y hy => hk y (List.mem_cons_of_mem _ hy)
    have hx := hk x List.mem_cons_self
    rw [List.cons_append, reap]
    have hkeep : (reapStep (reap (k ++ h)) x).todo = (reap (k ++ h)).todo ∧
        (reapStep (reap (k ++ h)) x).row = (reap (k ++ h)).row ∧
        (x.1.settles ≠ none ∨ (reap (k ++ h)).tried = true →
          (reapStep (reap (k ++ h)) x).tried = true) := by
      obtain ⟨o, r⟩ := x
      cases o <;> simp only [Op.inRetry, Bool.false_eq_true] at hx <;>
        simp [reapStep, Op.settles]
    refine ⟨hkeep.1.trans htodo, hkeep.2.1.trans hrow, ?_⟩
    rintro ⟨y, hy, hs⟩
    apply hkeep.2.2
    rcases List.mem_cons.1 hy with rfl | hy
    · exact .inl hs
    · exact .inr (htried ⟨y, hy, hs⟩)

theorem Known.cons {h : Hist} {id : Uuid} (hk : Known h id) (x : Reply Op Op.Res) :
    Known (x :: h) id := by
  rcases hk with ⟨job, hj⟩ | ⟨t, n, rows, hr, hj⟩ | ⟨ids, info, hi, hp⟩
  · exact .inl ⟨job, List.mem_cons_of_mem _ hj⟩
  · exact .inr (.inl ⟨t, n, rows, List.mem_cons_of_mem _ hr, hj⟩)
  · exact .inr (.inr ⟨ids, info, List.mem_cons_of_mem _ hi, hp⟩)

/-- The bulk update of a promotion has not been run. -/
def NoUpdate (h : Hist) : Prop := ∀ x ∈ h, ∀ ids, x.1 ≠ .promoteScheduledToPending ids

/-- The actions of a promotion that began after the replies `h`: its bulk update is
the last of them. -/
def promoteIssues (h g : Hist) (o : Op) : Prop :=
  tickerIssues g o ∧ ∃ k, g = k ++ h ∧ NoUpdate k

theorem NoUpdate.cons {h : Hist} (hn : NoUpdate h) {x : Reply Op Op.Res}
    (hx : ∀ ids, x.1 ≠ .promoteScheduledToPending ids) : NoUpdate (x :: h) := by
  intro y hy
  rcases List.mem_cons.1 hy with rfl | hy
  · exact hx
  · exact hn y hy

theorem xaddAll_emits {h : Hist} (routed : List (String × Uuid)) {k : Hist} (ps : List Uuid)
    (hn : NoUpdate k) (hk : ∀ p ∈ routed, Known (k ++ h) p.2) (hps : promoted (k ++ h) = some ps)
    (htodo : (reap (k ++ h)).todo = []) :
    Emits Valid (promoteIssues h)
      (fun g _ => ∃ k' ps', g = k' ++ (k ++ h) ∧ NoUpdate (k' ++ k) ∧ promoted g = some ps' ∧
        (reap g).todo = [] ∧ ps ⊆ ps' ∧ ∀ p ∈ routed, p.2 ∈ ps') (k ++ h) (xaddAll routed) := by
  induction routed generalizing k ps with
  | nil => exact ⟨[], ps, rfl, hn, hps, htodo, List.Subset.refl ps, by simp⟩
  | cons p routed ih =>
    refine ⟨⟨hk p List.mem_cons_self, k, rfl, hn⟩, fun u _ => ?_⟩
    have hn' : NoUpdate (⟨.xadd p.1 p.2, u⟩ :: k) := hn.cons (by simp)
    have hps' : promoted (⟨.xadd p.1 p.2, u⟩ :: k ++ h) = some (p.2 :: ps) := by
      change (promoted (k ++ h)).map _ = _
      rw [hps]
      rfl
    refine (ih (p.2 :: ps) hn' (fun q hq => (hk q (List.mem_cons_of_mem _ hq)).cons _) hps' htodo).mono
      (fun _ _ ho => ho) ?_
    rintro g _ ⟨k', ps', rfl, hnu, hg, hg', hsub, hall⟩
    refine ⟨k' ++ [⟨.xadd p.1 p.2, u⟩], ps', by simp, by simpa using hnu, hg, hg',
      fun i hi => hsub (List.mem_cons_of_mem _ hi), ?_⟩
    intro q hq
    rcases List.mem_cons.1 hq with rfl | hq
    · exact hsub List.mem_cons_self
    · exact hall q hq

theorem mem_route {ids : List Uuid} {info : List (Uuid × JobPriority)} {q : String × Uuid}
    (hq : q ∈ route app ids info) :
    q.2 ∈ ids ∧ ∃ p, (q.2, p) ∈ info ∧ q.1 = app.settings.streamForPriority p := by
  obtain ⟨i, hi, hp⟩ := List.mem_filterMap.1 hq
  obtain ⟨p, hl, rfl⟩ := Option.map_eq_some_iff.1 hp
  refine ⟨hi, p, ?_, rfl⟩
  obtain ⟨l₁, l₂, rfl, -⟩ := List.lookup_eq_some_iff.1 hl
  simp

theorem mem_route_of_info (app : App) {ids : List Uuid} {info : List (Uuid × JobPriority)}
    {i : Uuid} {p : JobPriority} (hi : i ∈ ids) (hp : (i, p) ∈ info) :
    ∃ q ∈ route app ids info, q.2 = i := by
  cases hl : info.lookup i with
  | none => exact absurd (List.lookup_eq_none_iff.1 hl _ hp) (by simp)
  | some p' => exact ⟨_, List.mem_filterMap.2 ⟨i, hi, by rw [hl]; rfl⟩, rfl⟩

theorem promoteDue_emits {h : Hist} (htodo : (reap h).todo = []) :
    Emits Valid (promoteIssues h) (fun _ _ => True) h (promoteDue app) := by
  simp only [promoteDue, op_bind, mpure_eq]
  refine ⟨⟨trivial, [], rfl, by simp [NoUpdate]⟩, fun now _ => ?_⟩
  have h1 : NoUpdate [⟨.now, now⟩] := by simp [NoUpdate]
  refine ⟨⟨trivial, [_], rfl, h1⟩, fun ids _ => ?_⟩
  have h2 := h1.cons (x := ⟨.zrangebyscore now app.settings.tickerBatchSize, ids⟩) (by simp)
  beta_reduce
  split
  · trivial
  · refine ⟨⟨⟨now, _, List.mem_cons_self⟩, [_, _], rfl, h2⟩, fun info _ => ?_⟩
    have h3 := h2.cons (x := ⟨.getPromotionInfo ids, info⟩) (by simp)
    refine Emits.bind (xaddAll_emits _ [] h3 (fun q hq => ?_) rfl htodo) fun g _ hg => ?_
    · obtain ⟨-, p, hp, -⟩ := mem_route hq
      exact .inr (.inr ⟨ids, info, List.mem_cons_self, p, hp⟩)
    · obtain ⟨k, ps, rfl, hn, hps, hempty, -, hall⟩ := hg
      have hput : Promoted (k ++ ([⟨.getPromotionInfo ids, info⟩,
          ⟨.zrangebyscore now app.settings.tickerBatchSize, ids⟩, ⟨.now, now⟩] ++ h)) ids := by
        refine ⟨ps, info, now, app.settings.tickerBatchSize, hps, by simp, by simp, ?_⟩
        intro i hi p hp
        obtain ⟨q, hq, rfl⟩ := mem_route_of_info app hi hp
        exact hall q hq
      rw [← List.append_assoc] at hput hempty ⊢
      refine ⟨⟨⟨hput, hempty⟩, _, rfl, hn⟩, fun u _ => ?_⟩
      exact ⟨⟨trivial, _ :: _, rfl, hn.cons (by simp)⟩, fun _ _ => trivial⟩

theorem handoffRows_emits {h : Hist} (all rows : List Job) (total : Nat) (hsub : rows ⊆ all)
    (hk : ∀ job ∈ all, Known h job.id) :
    Emits Valid tickerIssues (fun g _ => ∀ job ∈ all, Known g job.id) h
      (handoffRows app rows total) := by
  induction rows generalizing h total with
  | nil => exact hk
  | cons job rows ih =>
    have hj := hk job (hsub List.mem_cons_self)
    have hsub' : rows ⊆ all := fun _ hm => hsub (List.mem_cons_of_mem _ hm)
    have hrest : ∀ x y : Reply Op Op.Res, ∀ job' ∈ all, Known (x :: y :: h) job'.id :=
      fun x y job' hm => ((hk job' hm).cons y).cons x
    unfold handoffRows
    split
    · split
      · exact ih total hsub' hk
      · exact ⟨hj, fun _ _ => ⟨⟨_, _, rfl, rfl⟩, fun _ _ => ih _ hsub' (hrest _ _)⟩⟩
    · exact ⟨hj, fun _ _ => ⟨⟨_, _, rfl, rfl⟩, fun _ _ => ih _ hsub' (hrest _ _)⟩⟩

theorem reconcileOrphans_emits (fuel : Nat) (h : Hist) :
    Emits Valid tickerIssues (fun _ _ => True) h (reconcileOrphans app fuel) := by
  refine ⟨trivial, fun now _ => ?_⟩
  change Emits _ _ _ _ (reconcileLoop app (now - app.settings.reconcileGraceS) fuel [] 0)
  generalize now - app.settings.reconcileGraceS = cutoff
  generalize (0 : Nat) = total
  generalize (⟨.now, now⟩ :: h : Hist) = g
  have hheld : ∀ job ∈ ([] : List Job), Known g job.id := by simp
  generalize ([] : List Job) = instances at hheld ⊢
  induction fuel generalizing g instances total with
  | zero => trivial
  | succ fuel ih =>
    simp only [reconcileLoop, op_bind, mpure_eq]
    refine ⟨trivial, fun page _ => ?_⟩
    beta_reduce
    split
    · trivial
    · refine Emits.bind (handoffRows_emits _ _ total (List.Subset.refl _) fun job hj => ?_)
        fun g' total' hg' => ?_
      · rcases mem_identityMap hj with hj | hj
        · exact (hheld job hj).cons _
        · exact .inr (.inl ⟨_, _, page, List.mem_cons_self, job, hj, rfl⟩)
      · split
        · trivial
        · exact ih total' g' _ hg'

theorem scheduleRetryOrFail_ticker {h : Hist} {job : Job} {m : Message} {ms : List Message}
    (hj : (⟨.getJob job.id none, some job⟩ : Reply Op Op.Res) ∈ h)
    (htodo : (reap h).todo = m :: ms) (hm : m.jobId = some job.id)
    (hrow : (reap h).row = some (some job)) (hst : job.status = .processing)
    (htried : (reap h).tried = false) (error : Json) :
    Emits Valid tickerIssues (Retried job.id h) h (scheduleRetryOrFail app job error) := by
  refine (scheduleRetryOrFail_emits job error h).mono ?_ fun _ _ hr => hr
  have hreap : Reaping h job.id := ⟨m, ms, job, htodo, hm, hrow, hst, htried⟩
  intro g o ho
  cases o <;> simp only [retryIssues] at ho <;> try trivial
  case failJob => exact ho.1 ▸ ho.2 ▸ hreap
  case retryToPending =>
    obtain ⟨rfl, rfl, hlt⟩ := ho
    exact ⟨hreap, job, hj, rfl, hlt⟩
  case retryToScheduled =>
    obtain ⟨rfl, ⟨now, rfl⟩, hlt⟩ := ho
    exact ⟨⟨m, ms, job, htodo, hm, hrow, hst, htried⟩, job, List.mem_cons_of_mem _ hj, rfl, hlt⟩
  case xadd =>
    obtain ⟨rfl, rfl⟩ := ho
    exact .inl ⟨job, List.mem_cons_of_mem _ hj⟩
  case zadd =>
    obtain ⟨rfl, now, rfl⟩ := ho
    exact .inl ⟨job, List.mem_cons_of_mem _ (List.mem_cons_of_mem _ hj)⟩
  case markSynced =>
    obtain ⟨x, g', rfl, hx, -⟩ := ho
    exact ⟨x, g', rfl, hx⟩

/-- `_reap_one` for the message at hand: a normal return has acknowledged it. -/
theorem reapOne_emits {m : Message} {ms : List Message} {jobId : Uuid} {h : Hist}
    (hm : m.jobId = some jobId) (htodo : (reap h).todo = m :: ms) :
    Emits Valid tickerIssues (fun g r => r = .ok () → (reap g).todo = ms) h
      (reapOne app m jobId) := by
  simp only [reapOne, op_bind, mpure_eq]
  refine ⟨⟨rfl, m, ms, htodo, hm⟩, fun row hrow => ?_⟩
  -- the acknowledgement at the end of every branch
  have hack : ∀ g : Hist, (reap g).todo = m :: ms → (reap g).Done jobId →
      Emits Valid tickerIssues (fun g (r : Except Exc Unit) => r = .ok () → (reap g).todo = ms) g
        (.act (.xack m.stream m.messageId) fun _ => .pure (.ok ())) := by
    intro g hg hd
    refine ⟨⟨m, ms, hg, rfl, rfl, fun id hid => ?_⟩, fun _ _ _ => ?_⟩
    · rw [hm, Option.some.injEq] at hid
      exact hid ▸ hd
    · change (reap g).todo.tail = ms
      rw [hg]
      rfl
  cases row with
  | none => exact hack _ htodo (.inl rfl)
  | some job =>
    have hid : job.id = jobId := (hrow job rfl).1
    subst hid
    have hk : Known (⟨.getJob job.id none, some job⟩ :: h) job.id := .inl ⟨job, List.mem_cons_self⟩
    dsimp only
    split
    · rename_i hterm
      exact hack _ htodo (.inr ⟨job, rfl, .inl hterm⟩)
    · split
      · rename_i hst
        refine Emits.bind (scheduleRetryOrFail_ticker List.mem_cons_self htodo hm rfl hst rfl _)
          fun g r hr => ?_
        cases r with
        | error exc => exact fun hr => nomatch hr
        | ok won =>
          obtain ⟨k, rfl, hin, hok⟩ := hr
          obtain ⟨⟨x, hx, hset⟩, -⟩ := hok won rfl
          obtain ⟨h1, h2, h3⟩ := reap_retry (h := ⟨.getJob job.id none, some job⟩ :: h) hin
          refine hack _ (h1.trans htodo) (.inr ⟨job, h2.trans rfl, .inr (.inl ⟨hst, ?_⟩)⟩)
          exact h3 ⟨x, hx, by rw [hset]; simp⟩
      · rename_i hterm hst
        have hclaim : job.status.claimable = true :=
          JobStatus.claimable_iff.2 ⟨hst, Bool.eq_false_iff.2 hterm⟩
        split
        · rename_i hsync
          exact hack _ htodo (.inr ⟨job, rfl, .inr (.inr ⟨hclaim, .inl hsync⟩)⟩)
        · split
          all_goals
            refine ⟨hk, fun _ _ => ⟨⟨_, _, rfl, rfl⟩, fun _ _ => ?_⟩⟩
            exact hack _ htodo (.inr ⟨job, rfl, .inr (.inr ⟨hclaim, .inr List.mem_cons_self⟩)⟩)

theorem reapMessages_emits (ms : List Message) (handled : Nat) {h : Hist}
    (htodo : (reap h).todo = ms) :
    Emits Valid tickerIssues (fun _ _ => True) h (reapMessages app ms handled) := by
  induction ms generalizing handled h with
  | nil => trivial
  | cons m ms ih =>
    unfold reapMessages
    split
    · rename_i hm
      refine ⟨⟨m, ms, htodo, rfl, rfl, fun id hid => ?_⟩, fun _ _ => ih _ ?_⟩
      · rw [hm] at hid
        cases hid
      · change (reap h).todo.tail = ms
        rw [htodo]
        rfl
    · rename_i jobId hm
      refine Emits.bind (reapOne_emits hm htodo) fun g r hr => ?_
      cases r with
      | error exc => trivial
      | ok _ => exact ih _ (hr rfl)

theorem reapStream_emits (stream : String) (fuel cursor handled : Nat) (h : Hist) :
    Emits Valid tickerIssues (fun _ _ => True) h (reapStream app stream fuel cursor handled) := by
  induction fuel generalizing cursor handled h with
  | zero => trivial
  | succ fuel ih =>
    simp only [reapStream, op_bind, mpure_eq]
    refine ⟨trivial, fun resp _ => ?_⟩
    refine Emits.bind (reapMessages_emits resp.2 handled rfl) fun g r _ => ?_
    cases r with
    | error s => trivial
    | ok handled =>
      dsimp only
      split
      · trivial
      · exact ih _ _ _

theorem reapStale_emits (fuel : Nat) (h : Hist) :
    Emits Valid tickerIssues (fun _ _ => True) h (reapStale app fuel) := by
  unfold reapStale
  generalize app.settings.orderedStreams = ss
  generalize (0 : Nat) = handled
  induction ss generalizing handled h with
  | nil => trivial
  | cons s ss ih =>
    refine Emits.bind (reapStream_emits s fuel 0 handled h) fun g r _ => ?_
    cases r with
    | error e => trivial
    | ok handled => exact ih _ _

theorem tickerLoop_emits (fuel : Nat) (lastReconcile lastReap : Time) (h : Hist) :
    Emits Valid tickerIssues (fun _ _ => True) h (tickerLoop app fuel lastReconcile lastReap) := by
  induction fuel generalizing lastReconcile lastReap h with
  | zero => trivial
  | succ fuel ih =>
    simp only [tickerLoop, op_bind, mpure_eq]
    refine ⟨trivial, fun stop _ => ?_⟩
    cases stop with
    | true => trivial
    | false =>
      refine Emits.bind ((promoteDue_emits rfl).mono (fun _ _ ho => ho.1) fun _ _ _ => trivial)
        (Q := fun _ _ => True) fun g _ _ => ⟨trivial, fun now _ => ?_⟩
      refine Emits.bind (Q := fun _ _ => True) ?_ fun g' r _ => ?_
      · unfold reconcileTick
        split
        · refine Emits.bind (reconcileOrphans_emits fuel _) fun _ r _ => ?_
          cases r <;> trivial
        · trivial
      · cases r with
        | none => trivial
        | some lastReconcile =>
          refine Emits.bind (Q := fun _ _ => True) ?_ fun g'' r _ => ?_
          · unfold reapTick
            split
            · refine Emits.bind (reapStale_emits fuel _) fun _ r _ => ?_
              rcases r with (exc | _) | _
              · exact ⟨trivial, fun _ _ => trivial⟩
              · trivial
              · trivial
            · trivial
          · cases r with
            | none => trivial
            | some lastReap => exact ih _ _ _

end Ticker

/-! ### Every process -/

def issues (app : App) : Proc → Hist → Op → Prop
  | .submitJob user newId sub => submitIssues app user newId sub
  | .getJob user id => fun _ => readIssues user id
  | .retryJob user id => retryJobIssues user id
  | .cancelJobRoute user id => cancelIssues user id
  | .listJobs user _ _ _ _ _ => fun _ => listIssues user
  | .workerLoop consumer _ => loopIssues app consumer
  | .runOne consumer m => taskIssues consumer m
  | .ticker _ => tickerIssues
  | .promoteDue => promoteIssues []

def returns (app : App) : Proc → Hist → Out → Prop
  | .submitJob user newId sub => fun h a => ∃ r, a = .response r ∧ submitAnswers app user newId sub h r
  | .cancelJobRoute _ id => fun h a => ∃ r, a = .response r ∧ cancelAnswers id h r
  | .workerLoop _ _ => fun h _ => Drained h
  | _ => fun _ _ => True

theorem body_emits (app : App) (p : Proc) :
    Emits Valid (issues app p) (returns app p) [] (body app p) := by
  cases p with
  | submitJob user newId sub => exact Emits.bind submitJob_emits fun _ r hr => ⟨r, rfl, hr⟩
  | getJob user id => exact Emits.bind getJobRoute_emits fun _ _ _ => trivial
  | retryJob user id => exact Emits.bind retryJob_emits fun _ _ _ => trivial
  | cancelJobRoute user id => exact Emits.bind cancelJobRoute_emits fun _ r hr => ⟨r, rfl, hr⟩
  | listJobs user status type priority limit cursor =>
    exact Emits.bind (listJobsRoute_emits ..) fun _ _ _ => trivial
  | workerLoop consumer fuel =>
    exact Emits.bind (workerLoop_emits fuel fun _ => rfl) fun _ _ hd => hd
  | runOne consumer m => exact Emits.bind runOne_task fun _ _ _ => trivial
  | ticker fuel => exact Emits.bind (tickerLoop_emits ..) fun _ _ _ => trivial
  | promoteDue => exact Emits.bind (promoteDue_emits rfl) fun _ _ _ => trivial

abbrev Told (app : App) : State → Ev → Prop := Issued (system app) (issues app) (returns app)

/-- Invariants of the system: kept by every event, given what the programs say
about it. -/
theorem run_inv {app : App} {ok : State → Ev → Prop} {I : State → Prop} {c : Cfg}
    (h0 : I ⟨World.init, []⟩)
    (hstep : ∀ σ ev σ', I σ → Move (system app) σ ev σ' → (ev.isStart = false → ok σ ev) →
      Told app σ ev → I σ')
    (h : Run (system app) ok c) : I c.shared :=
  Run.inv (fun _ _ _ _ _ he => exec_valid he) (body_emits app) h0 hstep h

theorem run_recorded {app : App} {ok : State → Ev → Prop} {c : Cfg}
    (h : Run (system app) ok c) :
    (∀ pid o r l, .act pid o r :: l <:+ c.shared.log →
      ∃ p, proc? pid c.shared.log = some p ∧ issues app p (own pid l) o) ∧
    ∀ pid a l, .ret pid a :: l <:+ c.shared.log →
      ∃ p, proc? pid c.shared.log = some p ∧ returns app p (own pid l) a :=
  Run.recorded (fun _ _ _ _ _ he => exec_valid he) (body_emits app) h

/-- Let process `pid` take `n` steps at once. -/
def runs (pid n : Nat) : List (Choice Env Proc) := List.replicate n (.run pid {})

theorem run_of_replay (app : App) (ok : State → Ev → Prop) (okb : State → Ev → Bool)
    (hok : ∀ σ ev, okb σ ev = true → ok σ ev) (sched : List (Choice Env Proc)) (p : Cfg → Bool)
    (h : replay (system app) okb sched p = some true) :
    ∃ c, Run (system app) ok c ∧ p c = true :=
  Run.of_replay hok h

theorem reachable_of_replay (app : App) (sched : List (Choice Env Proc)) (p : Cfg → Bool)
    (h : replay (system app) (fun _ _ => true) sched p = some true) :
    ∃ c, Reachable (system app) c ∧ p c = true :=
  Run.of_replay (fun _ _ _ => trivial) h

/-! ### Which processes there are -/

section Processes

variable {σ σ' : State} {ev : Ev}

theorem proc?_stays {pid : Nat} {p : Proc} (ht : Told app σ ev) (hp : proc? pid σ.log = some p) :
    proc? pid (ev :: σ.log) = some p := by
  cases ev with
  | start q p' =>
    have hq : ¬ q = pid := by
      rintro rfl
      rw [ht.1.1] at hp
      cases hp
    rw [proc?_start, if_neg hq]
    exact hp
  | _ => exact hp

theorem live_before {pid : Nat} (hl : live pid (ev :: σ.log) = true) :
    live pid σ.log = true ∨ ∃ p, ev = .start pid p := by
  cases ev with
  | start q p =>
    rw [live_start, Bool.or_eq_true, decide_eq_true_eq] at hl
    rcases hl with rfl | hl
    · exact .inr ⟨p, rfl⟩
    · exact .inl hl
  | act q o r => exact .inl hl
  | ret q a =>
    rw [live_ret, Bool.and_eq_true] at hl
    exact .inl hl.2
  | crash q =>
    rw [live_crash, Bool.and_eq_true] at hl
    exact .inl hl.2

theorem proc_before {pid : Nat} {p : Proc} (hp : proc? pid (ev :: σ.log) = some p) :
    proc? pid σ.log = some p ∨ ev = .start pid p := by
  cases ev with
  | start q p' =>
    rw [proc?_start] at hp
    by_cases hq : q = pid
    · rw [if_pos hq, Option.some.injEq] at hp
      exact .inr (by rw [hq, hp])
    · rw [if_neg hq] at hp
      exact .inl hp
  | _ => exact .inl hp

theorem running_before {pid : Nat} {p : Proc} (ht : Told app σ ev)
    (hl : live pid (ev :: σ.log) = true) (hp : proc? pid (ev :: σ.log) = some p) :
    (live pid σ.log = true ∧ proc? pid σ.log = some p) ∨
      ev = .start pid p ∧ own pid (ev :: σ.log) = [] := by
  rcases live_before hl with hl' | ⟨p', rfl⟩
  · rcases proc_before hp with hp' | rfl
    · exact .inl ⟨hl', hp'⟩
    · exact .inr ⟨rfl, ht.1.2⟩
  · rw [proc?_start, if_pos rfl, Option.some.injEq] at hp
    subst hp
    exact .inr ⟨rfl, ht.1.2⟩

theorem mem_started {pid : Nat} {p : Proc} {l : List Ev} (hp : proc? pid l = some p) :
    (pid, p) ∈ started l := by
  induction l with
  | nil => cases hp
  | cons ev l ih =>
    cases ev with
    | start q p' =>
      rw [proc?_start] at hp
      by_cases hq : q = pid
      · rw [if_pos hq, Option.some.injEq] at hp
        rw [started, hq, hp]
        exact List.mem_cons_self
      · rw [if_neg hq] at hp
        exact List.mem_cons_of_mem _ (ih hp)
    | _ => exact ih hp

def TasksOnly (σ : State) : Prop :=
  ∀ q p r, .act q (.createTask p) r ∈ σ.log → ∃ consumer m, p = .runOne consumer m

theorem issues_createTask {p p' : Proc} {h : Hist} (hi : issues app p h (.createTask p')) :
    ∃ consumer m ms c ss n g, p' = .runOne consumer m ∧
      h = ⟨.xreadgroup c ss n, m :: ms⟩ :: g := by
  cases p with
  | workerLoop consumer fuel => exact ⟨consumer, hi⟩
  | _ => exact absurd hi (by simp [issues, submitIssues, readIssues, retryJobIssues, cancelIssues,
      listIssues, taskIssues, promoteIssues, tickerIssues])

theorem TasksOnly.move (h : TasksOnly σ) (hm : Move (system app) σ ev σ') (ht : Told app σ ev) :
    TasksOnly σ' := by
  intro q p r hev
  rw [move_log hm] at hev
  rcases List.mem_cons.1 hev with rfl | hev
  · obtain ⟨-, p', -, hi⟩ := ht
    obtain ⟨consumer, m, _, _, _, _, _, rfl, _⟩ := issues_createTask hi
    exact ⟨consumer, m, rfl⟩
  · exact h q p r hev

theorem allowed_of_start {pid : Nat} {p : Proc} (h : TasksOnly σ) (ht : Told app σ (.start pid p))
    (hp : ∀ consumer m, p ≠ .runOne consumer m) : allows σ p = true := by
  rcases ht.2 with ha | ⟨q, o, r, l, hl, hf⟩
  · exact ha
  · cases o <;> simp only [system, forks, reduceCtorEq, Option.some.injEq] at hf
    obtain ⟨consumer, m, hpm⟩ := h q _ r (by rw [hl]; exact List.mem_cons_self)
    exact absurd (hf.symm.trans hpm) (hp consumer m)

end Processes

end JobProcessor
