import JobProcessor.Proofs.CancelAnswers
import JobProcessor.Proofs.Idempotency
import JobProcessor.Proofs.Pagination

/-! What the answers of `submit_job` and `retry_job` say of the world they leave: an
accepted submission has its row and was handed off once, a retry that was answered 200
has put the job back, and a refusal has changed nothing. -/

namespace JobProcessor

open Interleave Prog Store

variable {app : App} {user newId id : Uuid} {sub : JobSubmission} {h : Hist}

/-! ### Submission -/

def submitted (app : App) (user newId : Uuid) (sub : JobSubmission) : Repository.NewJob :=
  newJob app user newId sub sub.idempotencyKey
    (sub.idempotencyKey.map fun _ => app.canonicalHash sub.type sub.payload)

/-- Which row goes with which handoff: a job whose time is still to come is parked. -/
inductive HandedOff (app : App) (user newId : Uuid) (sub : JobSubmission) (h : Hist) :
    Repository.NewJob → Op → Prop where
  | queued : (∀ t ∈ sub.scheduledAt, ∃ now : Time, (⟨.now, now⟩ : Reply Op Op.Res) ∈ h ∧ t ≤ now) →
      HandedOff app user newId sub h (submitted app user newId sub)
        (.xadd (app.settings.streamForPriority sub.priority) newId)
  | parked (t now : Time) : sub.scheduledAt = some t →
      (⟨.now, now⟩ : Reply Op Op.Res) ∈ h → now < t →
      HandedOff app user newId sub h
        { submitted app user newId sub with status := .scheduled, scheduledAt := some t }
        (.zadd newId t)

/-- All that an accepted submission has done after `g`: insert, read back, hand off, mark. -/
structure Submitted (app : App) (user newId : Uuid) (sub : JobSubmission) (h : Hist) (job : Job) :
    Prop where
  id : job.id = newId
  done : ∃ (n : Repository.NewJob) (o : Op) (r : o.Res) (g : Hist), HandedOff app user newId sub g n o ∧
    Quiet g ∧ h = ⟨.markSynced newId, ()⟩ :: ⟨o, r⟩ :: ⟨.getJob newId none, some job⟩ ::
      ⟨.createJob n, true⟩ :: g

def leftBehind (app : App) (user newId : Uuid) (sub : JobSubmission) (h : Hist) :
    Except Exc Job → Prop
  | .ok job => Submitted app user newId sub h job
  | .error .integrityError => Quiet h
  | .error _ => True

theorem insert_handedOff {n : Repository.NewJob} {o : Op} (hn : HandedOff app user newId sub h n o)
    (hid : n.id = newId) (hq : Quiet h) (hand : Uuid → Op) (ho : hand newId = o)
    {k : Except Exc Job → Prg (Except Exc Job)} (herr : ∀ exc, k (.error exc) = .pure (.error exc))
    (hok : ∀ job, k (.ok job) =
      .act (hand job.id) fun _ => .act (.markSynced job.id) fun _ => .pure (.ok job)) :
    Emits Valid (fun _ _ => True) (leftBehind app user newId sub) h (createJob n >>= k) := by
  simp only [createJob, op_bind, mpure_eq, act_bind]
  refine ⟨trivial, fun inserted _ => ?_⟩
  cases inserted with
  | false =>
    change Emits _ _ _ _ (k (.error .integrityError))
    rw [herr]
    exact hq.cons rfl rfl
  | true =>
    rw [hid]
    refine ⟨trivial, fun row hrow => ?_⟩
    cases row with
    | none =>
      change Emits _ _ _ _ (k (.error .invalidRequest))
      rw [herr]
      trivial
    | some job =>
      change Emits _ _ _ _ (k (.ok job))
      have hjob : job.id = newId := (hrow job rfl).1
      rw [hok, hjob, ho]
      exact ⟨trivial, fun r _ => ⟨trivial, fun _ _ => ⟨hjob, n, o, r, h, hn, hq, rfl⟩⟩⟩

theorem createAndHandoff_handedOff (hq : Quiet h) :
    Emits Valid (fun _ _ => True) (leftBehind app user newId sub) h
      (createAndHandoff app user newId sub sub.idempotencyKey
        (sub.idempotencyKey.map fun _ => app.canonicalHash sub.type sub.payload)) := by
  unfold createAndHandoff
  split
  · rename_i hs
    exact insert_handedOff (.queued (by simp [hs])) rfl hq (.xadd _) rfl (fun _ => rfl) fun _ => rfl
  · rename_i t hs
    simp only [op_bind]
    refine ⟨trivial, fun now _ => ?_⟩
    beta_reduce
    have hq' : Quiet (⟨.now, now⟩ :: h) := hq.cons rfl rfl
    split
    · rename_i hlt
      exact insert_handedOff (.parked t now hs List.mem_cons_self hlt) rfl hq' (.zadd · t) rfl
        (fun _ => rfl) fun _ => rfl
    · rename_i hle
      refine insert_handedOff (.queued fun t' ht' => ?_) rfl hq' (.xadd _) rfl (fun _ => rfl)
        fun _ => rfl
      rw [hs, Option.mem_some_iff] at ht'
      exact ⟨now, List.mem_cons_self, ht' ▸ Int.not_lt.1 hle⟩

inductive SubmitAnswer (app : App) (user newId : Uuid) (sub : JobSubmission) (h : Hist) :
    Response → Prop where
  | created (job : Job) : Submitted app user newId sub h job →
      SubmitAnswer app user newId sub h ⟨202, .accepted (accepted job)⟩
  | replayed (key : String) (job : Job) : sub.idempotencyKey = some key →
      (⟨.getByIdempotencyKey key user, some job⟩ : Reply Op Op.Res) ∈ h →
      job.idempotencyHash = some (app.canonicalHash sub.type sub.payload) → Quiet h →
      SubmitAnswer app user newId sub h ⟨200, .accepted (accepted job)⟩
  | refused (resp : Response) : resp.status = 409 ∨ resp.status = 422 → Quiet h →
      SubmitAnswer app user newId sub h resp

theorem replayOrConflict_answer {key : String} {existing : Option Job}
    (hk : sub.idempotencyKey = some key)
    (hx : ∀ job ∈ existing, (⟨.getByIdempotencyKey key user, some job⟩ : Reply Op Op.Res) ∈ h)
    (hq : Quiet h) :
    SubmitAnswer app user newId sub h
      (replayOrConflict existing (app.canonicalHash sub.type sub.payload)) := by
  unfold replayOrConflict
  split
  · rename_i job
    split
    · rename_i hh
      exact .replayed key job hk (hx job rfl) hh hq
    · exact .refused _ (.inl rfl) hq
  · exact .refused _ (.inl rfl) hq

theorem submitJob_answer : Emits Valid (fun _ _ => True)
    (fun h r => ∀ resp, r = .ok resp → SubmitAnswer app user newId sub h resp) []
    (submitJob app user newId sub) := by
  have hnil : Quiet [] := fun _ hx => by cases hx
  have hhand : ∀ {g : Hist}, Quiet g → _ := fun {g} hg =>
    @createAndHandoff_handedOff app user newId sub g hg
  unfold submitJob
  split
  · intro resp hr
    cases hr
    exact .refused _ (.inr rfl) hnil
  · split
    · rename_i hk
      have hnokey := hhand hnil
      rw [hk] at hnokey
      refine Emits.bind hnokey fun g r hg => ?_
      cases r with
      | ok job =>
        intro resp hr
        cases hr
        exact .created job hg
      | error exc =>
        intro resp hr
        cases hr
    · rename_i key hk
      simp only [submitKeyed, op_bind, mpure_eq]
      refine ⟨trivial, fun existing _ => ?_⟩
      have hq : Quiet [⟨.getByIdempotencyKey key user, existing⟩] := hnil.cons rfl rfl
      cases existing with
      | some job =>
        intro resp hr
        cases hr
        refine replayOrConflict_answer hk (fun job' hj => ?_) hq
        rw [Option.mem_some_iff] at hj
        exact hj ▸ List.mem_cons_self
      | none =>
        have hkey := hhand hq
        rw [hk] at hkey
        refine Emits.bind hkey fun g r hg => ?_
        rcases r with exc | job
        · cases exc with
          | integrityError =>
            refine ⟨trivial, fun existing _ resp hr => ?_⟩
            cases hr
            refine replayOrConflict_answer hk (fun job' hj => ?_)
              (Quiet.cons (x := ⟨.getByIdempotencyKey key user, existing⟩) hg rfl rfl)
            rw [Option.mem_def.1 hj]
            exact List.mem_cons_self
          | _ =>
            intro resp hr
            cases hr
        · intro resp hr
          cases hr
          exact .created job hg

/-! ### Manual retry -/

/-- How a manual retry is answered, with all that it has done. -/
inductive RetryAnswer (app : App) (user id : Uuid) (h : Hist) : Response → Prop where
  | put (owned fresh : Job) : owned.id = id → owned.userId = some user → fresh.id = id →
      h = [⟨.getJob id none, some fresh⟩, ⟨.markSynced id, ()⟩,
        ⟨.xadd (app.settings.streamForPriority owned.priority) id, ()⟩,
        ⟨.resetFailedToPending id, true⟩, ⟨.getJob id (some user), some owned⟩] →
      RetryAnswer app user id h ⟨200, .job (.ofJob fresh)⟩
  | missing : h = [⟨.getJob id (some user), none⟩] → RetryAnswer app user id h notFound
  | refused (owned : Job) : owned.id = id → owned.userId = some user →
      h = [⟨.resetFailedToPending id, false⟩, ⟨.getJob id (some user), some owned⟩] →
      RetryAnswer app user id h
        ⟨409, .detail "job is not retryable (not failed, or cancel was requested)"⟩

theorem retryJob_answer : Emits Valid (fun _ _ => True)
    (fun h r => ∀ resp, r = .ok resp → RetryAnswer app user id h resp) [] (retryJob app user id) := by
  simp only [retryJob, op_bind, mpure_eq]
  refine ⟨trivial, fun row hrow => ?_⟩
  cases row with
  | none =>
    intro resp hr
    cases hr
    exact .missing rfl
  | some owned =>
    obtain ⟨hid, huser⟩ := hrow owned rfl
    refine ⟨trivial, fun won _ => ?_⟩
    cases won with
    | false =>
      intro resp hr
      cases hr
      exact .refused owned hid (huser user rfl) rfl
    | true =>
      refine ⟨trivial, fun _ _ => ⟨trivial, fun _ _ => ⟨trivial, fun fresh hfresh => ?_⟩⟩⟩
      cases fresh with
      | none =>
        intro resp hr
        cases hr
      | some fresh =>
        intro resp hr
        cases hr
        exact .put owned fresh hid (huser user rfl) (hfresh fresh rfl).1 rfl

/-! ### Every process -/

def vouched (app : App) : Proc → Hist → Out → Prop
  | .submitJob user newId sub, h, .response (.ok resp) => SubmitAnswer app user newId sub h resp
  | .retryJob user id, h, .response (.ok resp) => RetryAnswer app user id h resp
  | _, _, _ => True

theorem body_vouched (app : App) (p : Proc) :
    Emits Valid (fun _ _ => True) (vouched app p) [] (body app p) := by
  cases p with
  | submitJob user newId sub =>
    refine Emits.bind submitJob_answer fun g r hr => ?_
    cases r with
    | error exc => trivial
    | ok resp => exact hr resp rfl
  | retryJob user id =>
    refine Emits.bind retryJob_answer fun g r hr => ?_
    cases r with
    | error exc => trivial
    | ok resp => exact hr resp rfl
  | _ => exact (emits_any _ []).mono (fun _ _ _ => trivial) fun _ _ _ => trivial

/-! ### In the world -/

section World

variable {ok : State → Ev → Prop} {c : Cfg} {pid : Nat}

/-- The row of an accepted submission, and what its answer said of it. -/
structure AcceptedRow (app : App) (user : Uuid) (sub : JobSubmission) (a : JobAccepted) (row : Job) :
    Prop where
  answer : a.id = row.id ∧ a.type = row.type ∧ a.priority = row.priority ∧ a.createdAt = row.createdAt
  columns : row.userId = some user ∧ row.type = sub.type ∧ row.payload = sub.payload ∧
    row.priority = sub.priority
  limit : row.maxAttempts = if sub.type = .batch then 1 else app.settings.maxAttempts
  key : row.idempotencyKey = sub.idempotencyKey ∧ row.idempotencyHash =
    sub.idempotencyKey.map fun _ => app.canonicalHash sub.type sub.payload

/-- What the answer to the submission `pid` of `newId` means at or after it. -/
inductive SubmitTruth (app : App) (user newId : Uuid) (sub : JobSubmission) (pid : Nat) (σ : State) :
    Response → Prop where
  | accepted (job row : Job) : σ.world.jobs.find? newId = some row →
      AcceptedRow app user sub (JobProcessor.accepted job) row →
      Submitted app user newId sub (own pid σ.log) job →
      SubmitTruth app user newId sub pid σ ⟨202, .accepted (JobProcessor.accepted job)⟩
  | replayed (job row : Job) : σ.world.jobs.find? job.id = some row → row.userId = some user →
      row.idempotencyKey = sub.idempotencyKey → row.idempotencyKey ≠ none →
      row.idempotencyHash = some (app.canonicalHash sub.type sub.payload) →
      σ.world.jobs.find? newId = none → Quiet (own pid σ.log) →
      SubmitTruth app user newId sub pid σ ⟨200, .accepted (JobProcessor.accepted job)⟩
  | refused (resp : Response) : resp.status = 409 ∨ resp.status = 422 →
      σ.world.jobs.find? newId = none → Quiet (own pid σ.log) →
      SubmitTruth app user newId sub pid σ resp

theorem uq_some {job : Job} {key : String} (h : job.uqUserIdempotencyKey = some (user, key)) :
    job.userId = some user ∧ job.idempotencyKey = some key := by
  unfold Job.uqUserIdempotencyKey at h
  split at h
  · rename_i u k hu hk
    cases h
    exact ⟨hu, hk⟩
  · cases h

theorem read_row {job : Job} {u : Option Uuid} (hr : Run (system app) ok c)
    (hev : .act pid (.getJob id u) (some job) ∈ c.shared.log) :
    ∃ row, c.shared.world.jobs.find? job.id = some row ∧ row.fixed = job.fixed ∧
      row.createdAt = job.createdAt := by
  obtain ⟨row, hf, hfixed⟩ := remembered hr pid _ _ hev job List.mem_cons_self
  obtain ⟨l₂, l₁, hl⟩ := List.append_of_mem hev
  obtain ⟨c₀, c₁, hp, -⟩ := hr.passed _ l₁ rfl ⟨l₂, hl.symm⟩
  obtain ⟨σ, hm, -, hw⟩ := passed_told hp
  have hread : c₁.shared.world.jobs.find? id = some job := by
    rw [hw]
    exact move_row_some hm (move_getJob hm)
  obtain ⟨row', hmem, hid, hcreated, -⟩ := leads_keeps hp.leads job (Table.find?_mem hread)
  have hrow := Table.find?_of_mem hmem
  rw [show row'.id = job.id from hid, hf, Option.some.injEq] at hrow
  exact ⟨row, hf, hfixed, hrow ▸ hcreated⟩

/-- The id of a submission that has won nothing has no row. -/
theorem no_row (hr : Run (system app) ok c)
    (hp : proc? pid c.shared.log = some (.submitJob user newId sub))
    (hq : Quiet (own pid c.shared.log)) : c.shared.world.jobs.find? newId = none := by
  have hI := submitInv hr
  cases hf : c.shared.world.jobs.find? newId with
  | none => rfl
  | some row =>
    obtain ⟨pid', n, hn, hev⟩ := hI.inserts.inserted newId row hf
    obtain ⟨user', newId', sub', hp', hnew⟩ := hI.inserts.asked pid' n true hev
    obtain rfl : newId' = newId := hnew.id.symm.trans hn
    obtain rfl := hI.fresh _ _ _ _ _ _ _ hp' hp
    have hwon := (hq _ (mem_own.2 hev)).1
    cases hwon

def answerOf (pid : Nat) (c : Cfg) : Option Response :=
  c.shared.log.findSome? fun
    | .ret q (.response (.ok resp)) => if q = pid then some resp else none
    | _ => none

theorem answerOf_mem {c : Cfg} {resp : Response} (h : answerOf pid c = some resp) :
    .ret pid (.response (.ok resp)) ∈ c.shared.log := by
  obtain ⟨ev, hmem, hev⟩ := List.exists_of_findSome?_eq_some h
  split at hev
  · split at hev
    · rename_i hq
      subst hq
      cases hev
      exact hmem
    · cases hev
  · cases hev

end World

theorem submission_truthful (app : App) (c : Cfg) (hr : Reachable (system app) c) (pid : Nat)
    (user newId : Uuid) (sub : JobSubmission) (resp : Response)
    (hp : proc? pid c.shared.log = some (.submitJob user newId sub))
    (hret : .ret pid (.response (.ok resp)) ∈ c.shared.log) :
    SubmitTruth app user newId sub pid c.shared resp := by
  obtain ⟨p, hp', hans⟩ :=
    hr.answered (fun _ _ _ _ _ he => exec_valid he) (body_vouched app) pid _ hret
  rw [hp, Option.some.injEq] at hp'
  subst hp'
  cases hans with
  | created job hdone =>
    obtain ⟨n, o, r, g, hn, -, hh⟩ := hdone.done
    have hmem : ∀ {x : Reply Op Op.Res}, x ∈ own pid c.shared.log → .act pid x.1 x.2 ∈ c.shared.log :=
      fun hx => mem_own.1 hx
    have hcreate : .act pid (.createJob n) true ∈ c.shared.log :=
      @hmem ⟨.createJob n, true⟩ (by rw [hh]; simp)
    have hread : .act pid (.getJob newId none) (some job) ∈ c.shared.log :=
      @hmem ⟨.getJob newId none, some job⟩ (by rw [hh]; simp)
    obtain ⟨row, hf, hfixed, hcreated⟩ := read_row hr hread
    obtain ⟨row', hf', hrow⟩ := (remembered hr).created hcreate
    have hnid : n.id = newId := by cases hn <;> rfl
    rw [hdone.id] at hf
    rw [hnid, hf, Option.some.injEq] at hf'
    subst hf'
    have hsub : (n.row 0).fixed = ((submitted app user newId sub).row 0).fixed := by cases hn <;> rfl
    rw [hsub] at hrow
    simp only [Job.fixed, Prod.mk.injEq] at hrow hfixed
    refine .accepted job row hf ⟨⟨?_, ?_, ?_, hcreated.symm⟩, ⟨?_, ?_, ?_, ?_⟩, ?_, ?_, ?_⟩ hdone
    · exact hdone.id.trans (Table.find?_key hf).symm
    · exact hfixed.2.1.symm
    · exact hfixed.2.2.2.2.2.2.symm
    · exact hrow.1
    · exact hrow.2.1
    · exact hrow.2.2.2.2.2.1
    · exact hrow.2.2.2.2.2.2
    · exact hrow.2.2.1
    · exact hrow.2.2.2.1
    · exact hrow.2.2.2.2.1
  | replayed key job hk hfound hh hq =>
    obtain ⟨row, hf, hfixed⟩ := remembered hr pid (.getByIdempotencyKey key user) (some job)
      (mem_own.1 hfound) job List.mem_cons_self
    obtain ⟨huser, hkey⟩ := uq_some (recorded_valid hr pid _ _ (mem_own.1 hfound) job rfl)
    simp only [Job.fixed, Prod.mk.injEq] at hfixed
    obtain ⟨hu, -, -, hk', hh', -⟩ := hfixed
    exact .replayed job row hf (hu.trans huser) ((hk'.trans hkey).trans hk.symm)
      (by rw [hk', hkey]; simp) (hh'.trans hh) (no_row hr hp hq) hq
  | refused _ hs hq => exact .refused resp hs (no_row hr hp hq) hq

/-- One key is used twice; the second request is answered with the first one's job. -/
def keyedTwice : List (Choice Env Proc) := List.flatten
  [[.start (.submitJob 7 1 { type := .email, payload := .null, idempotencyKey := some "k" })],
    runs 0 6,
    [.start (.submitJob 7 2 { type := .email, payload := .null, idempotencyKey := some "k" })],
    runs 1 2]

def bothAnswered (c : Cfg) : Bool :=
  match proc? 0 c.shared.log, proc? 1 c.shared.log with
  | some (.submitJob 7 1 _), some (.submitJob 7 2 _) =>
    ((answerOf 0 c).any fun resp => resp.status = 202) &&
      (answerOf 1 c).any fun resp => resp.status = 200
  | _, _ => false

theorem submission_truthful_keyedTwice :
    ∃ c sub sub' resp resp', Reachable (system defaultApp) c ∧ resp.status = 202 ∧
      SubmitTruth defaultApp 7 1 sub 0 c.shared resp ∧ resp'.status = 200 ∧
      SubmitTruth defaultApp 7 2 sub' 1 c.shared resp' := by
  obtain ⟨c, hc, hl⟩ := reachable_of_replay defaultApp keyedTwice bothAnswered (by decide +kernel)
  unfold bothAnswered at hl
  split at hl
  · rename_i sub sub' hp hp'
    rw [Bool.and_eq_true, Option.any_eq_true, Option.any_eq_true] at hl
    obtain ⟨⟨resp, hresp, hs⟩, resp', hresp', hs'⟩ := hl
    exact ⟨c, sub, sub', resp, resp', hc, of_decide_eq_true hs,
      submission_truthful defaultApp c hc 0 7 1 sub resp hp (answerOf_mem hresp),
      of_decide_eq_true hs',
      submission_truthful defaultApp c hc 1 7 2 sub' resp' hp' (answerOf_mem hresp')⟩
  · cases hl

/-- What the answer to the manual retry `pid` of `id` means at or after it. -/
inductive RetryTruth (app : App) (c : Cfg) (pid : Nat) (user id : Uuid) : Response → Prop where
  | put (c₀ c₁ : Cfg) (row row' owned fresh : Job) :
      Passed (system app) (fun _ _ => True) c₀ (.act pid (.resetFailedToPending id) true) c₁ c →
      c₀.shared.world.jobs.find? id = some row → row.userId = some user → row.status = .failed →
      row.cancelRequestedAt = none → c₁.shared.world.jobs.find? id = some row' →
      row' = { row with status := .pending, attempts := 0, error := none, startedAt := none,
                        completedAt := none, isSyncedToRedis := false } →
      fresh.id = id →
      own pid c.shared.log = [⟨.getJob id none, some fresh⟩, ⟨.markSynced id, ()⟩,
        ⟨.xadd (app.settings.streamForPriority row.priority) id, ()⟩,
        ⟨.resetFailedToPending id, true⟩, ⟨.getJob id (some user), some owned⟩] →
      RetryTruth app c pid user id ⟨200, .job (.ofJob fresh)⟩
  | missing (c₀ c₁ : Cfg) :
      Passed (system app) (fun _ _ => True) c₀ (.act pid (.getJob id (some user)) none) c₁ c →
      (∀ row, c₀.shared.world.jobs.find? id = some row → row.userId ≠ some user) →
      Quiet (own pid c.shared.log) → RetryTruth app c pid user id notFound
  | refused (c₀ c₁ : Cfg) (row : Job) :
      Passed (system app) (fun _ _ => True) c₀ (.act pid (.resetFailedToPending id) false) c₁ c →
      c₀.shared.world.jobs.find? id = some row → row.userId = some user →
      row.status ≠ .failed ∨ row.cancelRequestedAt ≠ none → Quiet (own pid c.shared.log) →
      RetryTruth app c pid user id
        ⟨409, .detail "job is not retryable (not failed, or cancel was requested)"⟩

theorem passed_of_own {ok : State → Ev → Prop} {c : Cfg} {pid : Nat} {o : Op} {r : o.Res} {g : Hist}
    (hr : Run (system app) ok c) (hg : ⟨o, r⟩ :: g <:+ own pid c.shared.log) :
    ∃ c₀ c₁, Passed (system app) ok c₀ (.act pid o r) c₁ c ∧ own pid c₀.shared.log = g := by
  obtain ⟨l, hl, hown⟩ := suffix_of_own hg
  obtain ⟨c₀, c₁, hp, rfl⟩ := hr.passed _ l rfl hl
  exact ⟨c₀, c₁, hp, hown⟩

theorem retry_truthful (app : App) (c : Cfg) (hr : Reachable (system app) c) (pid : Nat)
    (user id : Uuid) (resp : Response) (hp : proc? pid c.shared.log = some (.retryJob user id))
    (hret : .ret pid (.response (.ok resp)) ∈ c.shared.log) :
    RetryTruth app c pid user id resp := by
  obtain ⟨p, hp', hans⟩ :=
    hr.answered (fun _ _ _ _ _ he => exec_valid he) (body_vouched app) pid _ hret
  rw [hp, Option.some.injEq] at hp'
  subst hp'
  -- the row the process was shown first, when it goes on to the reset
  have hshown : ∀ {c₀ : Cfg} {owned : Job}, Reachable (system app) c₀ → owned.id = id →
      own pid c₀.shared.log = [⟨.getJob id (some user), some owned⟩] →
      ∃ row, c₀.shared.world.jobs.find? id = some row ∧ row.fixed = owned.fixed := by
    intro c₀ owned hr₀ hid hown
    have hev : .act pid (.getJob id (some user)) (some owned) ∈ c₀.shared.log :=
      mem_own.1 (hown ▸ List.mem_cons_self)
    exact hid ▸ remembered hr₀ pid _ _ hev owned List.mem_cons_self
  cases hans with
  | put owned fresh hid huser hfresh hh =>
    obtain ⟨c₀, c₁, hpass, hown⟩ := passed_of_own (g := [⟨.getJob id (some user), some owned⟩]) hr
      (o := .resetFailedToPending id) (r := true) ⟨[_, _, _], hh.symm⟩
    obtain ⟨row, hf, hfixed⟩ := hshown hpass.run hid hown
    obtain ⟨σ, hm, -, hw⟩ := passed_told hpass
    obtain ⟨row₀, hf₀, hg⟩ := move_hit hm rfl rfl
    rw [hf, Option.some.injEq] at hf₀
    subst hf₀
    simp only [Op.guard, Bool.and_eq_true, decide_eq_true_eq, Option.isNone_iff_eq_none] at hg
    obtain ⟨⟨hrid, hfailed⟩, hcancel⟩ := hg
    have hpriority : row.priority = owned.priority := congrArg (fun k => k.2.2.2.2.2.2) hfixed
    refine .put c₀ c₁ row _ owned fresh hpass hf ?_ hfailed hcancel
      (by rw [hw]; exact move_row_some hm hf) ?_ hfresh (hpriority ▸ hh)
    · exact (congrArg Prod.fst hfixed).trans huser
    · simp [onRow, Op.onRow, hrid, hfailed, hcancel]
  | missing hh =>
    obtain ⟨c₀, c₁, hpass, -⟩ := passed_of_own (g := []) hr (o := .getJob id (some user)) (r := none)
      ⟨[], hh.symm⟩
    obtain ⟨σ, hm, -, -⟩ := passed_told hpass
    refine .missing c₀ c₁ hpass (fun row hf huser => ?_) ?_
    · obtain ⟨e, he⟩ := move_exec hm
      simp only [exec, Option.some.injEq, Prod.mk.injEq] at he
      have hnone := he.2
      change (c₀.shared.world.jobs.find? id).filter _ = none at hnone
      rw [hf] at hnone
      simp [huser] at hnone
    · rw [hh]
      exact Quiet.cons (fun _ hx => by cases hx) rfl rfl
  | refused owned hid huser hh =>
    obtain ⟨c₀, c₁, hpass, hown⟩ := passed_of_own (g := [⟨.getJob id (some user), some owned⟩]) hr
      (o := .resetFailedToPending id) (r := false) ⟨[], hh.symm⟩
    obtain ⟨row, hf, hfixed⟩ := hshown hpass.run hid hown
    obtain ⟨σ, hm, -, -⟩ := passed_told hpass
    refine .refused c₀ c₁ row hpass hf ((congrArg Prod.fst hfixed).trans huser) ?_ ?_
    · by_contra hno
      push Not at hno
      have hhit := (move_won hm (by simp)).2 ⟨id, row, hf, by
        simp [Op.guard, Table.find?_key hf, hno.1, hno.2]⟩
      cases hhit
    · rw [hh]
      exact Quiet.cons (Quiet.cons (fun _ hx => by cases hx) rfl rfl) rfl rfl

/-- The defaults, but no job is tried twice. -/
def oneAttempt : App :=
  { defaultApp with
    settings := { checkTimeoutInvariant := Settings.default_timeouts, maxAttempts := 1 } }

/-- Job 1 fails for good and is put back by its owner. -/
def failedThenRetried : List (Choice Env Proc) := List.flatten
  [[.start (.submitJob 7 1 { type := .email, payload := .null })], runs 0 5,
    [.start (.workerLoop "a" 1)], runs 1 5, runs 2 5,
    [.run 2 { finish := .error ("RuntimeError", "boom") }], runs 2 3,
    [.start (.retryJob 7 1)], runs 3 6]

def retryAnswered (c : Cfg) : Bool :=
  match proc? 3 c.shared.log with
  | some (.retryJob 7 1) => (answerOf 3 c).any fun resp => resp.status = 200
  | _ => false

theorem retry_truthful_failedThenRetried :
    ∃ c resp, Reachable (system oneAttempt) c ∧ resp.status = 200 ∧
      RetryTruth oneAttempt c 3 7 1 resp := by
  obtain ⟨c, hc, hl⟩ :=
    reachable_of_replay oneAttempt failedThenRetried retryAnswered (by decide +kernel)
  unfold retryAnswered at hl
  split at hl
  · rename_i hp
    rw [Option.any_eq_true] at hl
    obtain ⟨resp, hresp, hs⟩ := hl
    exact ⟨c, resp, hc, of_decide_eq_true hs,
      retry_truthful oneAttempt c hc 3 7 1 resp hp (answerOf_mem hresp)⟩
  · cases hl

end JobProcessor
