import JobProcessor.Proofs.Rows

/-! The status graph: how the status of a row moves, who moves it, and that finished
rows stay as they are. -/

namespace JobProcessor

open Interleave Store

/-- The statuses a row may go to. -/
def JobStatus.edges : JobStatus → List JobStatus
  | .pending => [.processing, .cancelled]
  | .scheduled => [.pending, .processing, .cancelled]
  | .processing => [.completed, .failed, .cancelled, .pending, .scheduled]
  | .failed => [.pending]
  | _ => []

/-! ### One action -/

section Action

variable (now : Time) (row : Job) (o : Op)

theorem onRow_edge :
    (o.onRow now row).status = row.status ∨ (o.onRow now row).status ∈ row.status.edges := by
  obtain ⟨_, _, _, _, status, _⟩ := row
  cases o <;> simp only [Op.onRow] <;> (try split) <;> cases status <;>
    simp_all [JobStatus.edges, JobStatus.claimable]

theorem onRow_failed (hs : row.status = .failed) :
    o.onRow now row = { row with isSyncedToRedis := (o.onRow now row).isSyncedToRedis } ∨
      o = .resetFailedToPending row.id ∧ row.cancelRequestedAt = none := by
  obtain ⟨_, _, _, _, status, _⟩ := row
  subst hs
  cases o <;> simp only [Op.onRow] <;> (try split) <;> simp_all [JobStatus.claimable]

theorem onRow_frozen (hs : row.status = .completed ∨ row.status = .cancelled) :
    o.onRow now row = { row with isSyncedToRedis := (o.onRow now row).isSyncedToRedis } := by
  obtain ⟨_, _, _, _, status, _⟩ := row
  rcases hs with hs | hs <;> subst hs <;> cases o <;> simp only [Op.onRow] <;> (try split) <;>
    simp_all [JobStatus.claimable]

end Action

/-! ### Who issues what -/

theorem issues_reset {app : App} {p : Proc} {h : Hist} {j : Uuid}
    (hi : issues app p h (.resetFailedToPending j)) : ∃ user, p = .retryJob user j := by
  cases p with
  | retryJob user id => exact ⟨user, by rw [show j = id from hi.1]⟩
  | _ => exact absurd hi (by simp [issues, submitIssues, readIssues, cancelIssues, listIssues,
      loopIssues, taskIssues, promoteIssues, tickerIssues])

/-! ### Events -/

section Events

variable {app : App} {σ σ' : State} {ev : Ev} {j : Uuid} {row : Job}

def ManualRetry (σ : State) (ev : Ev) (j : Uuid) : Prop :=
  ∃ pid user, ev = .act pid (.resetFailedToPending j) true ∧
    proc? pid σ.log = some (.retryJob user j)

/-- What an event may do to the row of `j`. -/
structure RowStep (σ : State) (ev : Ev) (j : Uuid) (row row' : Job) : Prop where
  edge : row'.status = row.status ∨ row'.status ∈ row.status.edges
  retried : row.status = .failed → row'.status = .pending →
    row.cancelRequestedAt = none ∧ ManualRetry σ ev j
  frozen : row.status.terminal = true →
    row' = { row with isSyncedToRedis := row'.isSyncedToRedis } ∨
      row.status = .failed ∧ ManualRetry σ ev j

theorem rowStep (h : Move (system app) σ ev σ') (ht : Told app σ ev)
    (hj : σ.world.jobs.find? j = some row) :
    RowStep σ ev j row (onRow σ'.world.clock row ev) := by
  have hid : row.id = j := Table.find?_key hj
  cases ev with
  | act pid o r =>
    obtain ⟨-, p, hp, hi⟩ := ht
    -- the only action that changes a failed row is the reset of the retry route
    have hman : o = .resetFailedToPending row.id → row.status = .failed →
        row.cancelRequestedAt = none → ManualRetry σ (.act pid o r) j := by
      rintro rfl hs hc
      have hw : won (.resetFailedToPending row.id) r = true :=
        (move_won h (by simp)).2 ⟨j, row, hj, by simp [Op.guard, hs, hc]⟩
      obtain ⟨user, rfl⟩ := issues_reset hi
      change r = true at hw
      rw [hid] at hp
      exact ⟨pid, user, by rw [hw, hid], hp⟩
    refine ⟨onRow_edge _ _ _, ?_, ?_⟩
    · intro hs hpend
      rcases onRow_failed σ'.world.clock row o hs with hf | ⟨ho, hc⟩
      · have hst := congrArg Job.status hf
        change (o.onRow σ'.world.clock row).status = row.status at hst
        change (o.onRow σ'.world.clock row).status = .pending at hpend
        rw [hpend, hs] at hst
        cases hst
      · exact ⟨hc, hman ho hs hc⟩
    · intro hterm
      by_cases hs : row.status = .failed
      · rcases onRow_failed σ'.world.clock row o hs with hf | ⟨ho, hc⟩
        · exact .inl hf
        · exact .inr ⟨hs, hman ho hs hc⟩
      · refine .inl (onRow_frozen _ _ _ ?_)
        rcases JobStatus.terminal_iff.1 hterm with hst | hst | hst
        · exact .inr hst
        · exact .inl hst
        · exact absurd hst hs
  | _ => exact ⟨.inl rfl, fun h1 h2 => absurd (h1.symm.trans h2) (by simp), fun _ => .inl rfl⟩

theorem cancelled_stays (h : Move (system app) σ ev σ') (hj : σ.world.jobs.find? j = some row)
    (hs : row.status = .cancelled) :
    ∃ row', σ'.world.jobs.find? j = some row' ∧ row'.status = .cancelled := by
  refine ⟨_, move_row_some h hj, ?_⟩
  cases ev with
  | act pid o r =>
    have := congrArg Job.status (onRow_frozen σ'.world.clock row o (.inr hs))
    exact this.trans hs
  | _ => exact hs

end Events

/-! ### Runs -/

/-- After a cancellation of `j` from `pending` or `scheduled` the row is cancelled
and no claim of it has succeeded. -/
def CancelHolds (σ : State) : Prop :=
  ∀ j pid l₂ l₁, σ.log = l₂ ++ .act pid (.cancelPendingOrScheduled j) true :: l₁ →
    (∃ row, σ.world.jobs.find? j = some row ∧ row.status = .cancelled) ∧
      ∀ q, .act q (.claimJob j) true ∉ l₂

theorem cancelHolds {app : App} {c : Cfg} (hr : Reachable (system app) c) :
    CancelHolds c.shared := by
  refine run_inv ?_ ?_ hr
  · intro j pid l₂ l₁ hl
    simp at hl
  · intro σ ev σ' hI hm _ _ j pid l₂ l₁ hl
    rw [move_log hm] at hl
    rcases List.cons_eq_append_iff.1 hl with ⟨rfl, he⟩ | ⟨l₂', rfl, hl'⟩
    · -- the cancellation is the event itself
      rw [List.cons.injEq] at he
      obtain ⟨rfl, rfl⟩ := he
      obtain ⟨row, hj, hg⟩ := move_hit hm rfl rfl
      simp only [Op.guard, Bool.and_eq_true, decide_eq_true_eq] at hg
      refine ⟨⟨_, move_row_some hm hj, ?_⟩, by simp⟩
      simp [onRow, Op.onRow, hg]
    · obtain ⟨⟨row, hj, hs⟩, hno⟩ := hI j pid l₂' l₁ hl'
      refine ⟨cancelled_stays hm hj hs, fun q hq => ?_⟩
      rcases List.mem_cons.1 hq with rfl | hq
      · obtain ⟨row', hj', hg⟩ := move_hit hm rfl rfl
        simp only [Op.guard, Bool.and_eq_true, decide_eq_true_eq] at hg
        rw [hj, Option.some.injEq] at hj'
        rw [← hj', hs] at hg
        exact absurd hg.2 (by simp [JobStatus.claimable])
      · exact hno q hq

/-- The law of statuses at a configuration: what the next step may do to any row,
and what has followed a cancellation from `pending` or `scheduled`. -/
structure StatusLaw (app : App) (c : Cfg) : Prop where
  next : ∀ ch ev c' j row, step (system app) c ch = some (ev, c') →
    c.shared.world.jobs.find? j = some row →
      ∃ row', c'.shared.world.jobs.find? j = some row' ∧ RowStep c.shared ev j row row'
  unclaimed : ∀ j pid l₂ l₁,
    c.shared.log = l₂ ++ .act pid (.cancelPendingOrScheduled j) true :: l₁ →
      ∀ q, .act q (.claimJob j) true ∉ l₂
  startedBefore : ∀ j pid l₂ l₁,
    c.shared.log = l₂ ++ .act pid (.cancelPendingOrScheduled j) true :: l₁ →
      ∀ q type u, .act q (.startHandler j type) u ∈ l₂ → .act q (.claimJob j) true ∈ l₁

theorem statusLaw (app : App) (c : Cfg) (hr : Reachable (system app) c) : StatusLaw app c where
  next ch ev c' j row hs hj := by
    obtain ⟨σ, hm, ht, hw, -⟩ :=
      hr.step_issued (fun _ _ _ _ _ he => exec_valid he) (body_emits app) hs
    exact ⟨_, by rw [hw]; exact move_row_some hm hj, rowStep hm ht hj⟩
  unclaimed j pid l₂ l₁ hl := (cancelHolds hr j pid l₂ l₁ hl).2
  startedBefore j pid l₂ l₁ hl q type u hst := by
    have hc := started_claimed hr q j type u (by rw [hl]; exact List.mem_append_left _ hst)
    rw [hl] at hc
    rcases List.mem_append.1 hc with hc | hc
    · exact absurd hc ((cancelHolds hr j pid l₂ l₁ hl).2 q)
    · simpa using hc

/-! ### A handler that starts after its job was answered as cancelled -/

def startsHandler (j : Uuid) : Ev → Bool
  | .act _ (.startHandler i _) _ => i = j
  | _ => false

def Op.cancelsQueued : Op → Option Uuid
  | .cancelPendingOrScheduled id => some id
  | _ => none

/-- A cancel request has been answered with 200 after its own cancellation from
`pending` or `scheduled`. -/
def answeredCancelled (j : Uuid) : List Ev → Bool
  | [] => false
  | .ret pid (.response (.ok r)) :: l =>
    (r.status == 200 && (own pid l).any fun x => x.1.cancelsQueued == some j && won x.1 x.2) ||
      answeredCancelled j l
  | _ :: l => answeredCancelled j l

/-- No handler of `j` starts after such an answer. -/
def neverStarts (j : Uuid) : List Ev → Bool
  | [] => true
  | ev :: l => !(startsHandler j ev && answeredCancelled j l) && neverStarts j l

/-- A worker claims job 1 and stalls, the reaper puts the job back, a client cancels
it; then the worker goes on. -/
def stalledWorker : List (Choice Env Proc) := List.flatten
  [[.start (.submitJob 7 1 { type := .email, payload := .null })], runs 0 5,
    [.start (.workerLoop "w" 1)], runs 1 5, runs 2 1,
    [.start (.ticker 2), .run 3 { elapsed := 61000000 }], runs 3 11,
    [.start (.cancelJobRoute 7 1)], runs 4 5, runs 2 3]

theorem starts_after_cancelled :
    ¬ ∀ c, Reachable (system defaultApp) c → ∀ j, neverStarts j c.shared.log = true := by
  intro h
  obtain ⟨c, hc, hl⟩ := reachable_of_replay defaultApp stalledWorker
    (fun c => !neverStarts 1 c.shared.log) (by decide +kernel)
  rw [h c hc 1] at hl
  cases hl

/-- The run of the stalled worker, with what the law says of it. -/
theorem statusLaw_stalledWorker :
    ∃ c, Reachable (system defaultApp) c ∧ answeredCancelled 1 c.shared.log = true ∧
      StatusLaw defaultApp c := by
  obtain ⟨c, hc, hl⟩ := reachable_of_replay defaultApp stalledWorker
    (fun c => answeredCancelled 1 c.shared.log) (by decide +kernel)
  exact ⟨c, hc, hl, statusLaw defaultApp c hc⟩

end JobProcessor
