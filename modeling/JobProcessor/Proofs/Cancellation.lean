import JobProcessor.Proofs.CancelAnswers
import JobProcessor.Proofs.Stranded
import JobProcessor.Proofs.Writes

/-! Cancelling a running job: what an accepted request stops, and whom a worker may
cancel. -/

namespace JobProcessor

open Interleave Prog Store

/-! ### After an accepted request -/

def Op.retries : Op → Option Uuid
  | .retryToPending id => some id
  | .retryToScheduled id _ => some id
  | _ => none

/-- What follows a request for `j` that was accepted before the events `l`: the flag
stays, the manual retry never puts the job back, and a claim can only follow an
automatic retry, which no batch gets. -/
structure Accepted (σ : State) (j : Uuid) (l : List Ev) : Prop where
  flagged : ∃ row, σ.world.jobs.find? j = some row ∧ row.cancelRequestedAt ≠ none
  unreset : ∀ ev ∈ l, wins Op.resets j ev = false
  retried : ∀ l₂ ev l₁, l = l₂ ++ ev :: l₁ → wins Op.claims j ev = true →
    ∃ ev' ∈ l₁, wins Op.retries j ev' = true
  batch : ∀ row, σ.world.jobs.find? j = some row → row.type = .batch →
    ∀ ev ∈ l, wins Op.claims j ev = false

section Steps

variable {app : App} {σ σ' : State} {ev : Ev} {j : Uuid} {row : Job}

theorem onRow_flag (now : Time) (row : Job) (o : Op) (h : row.cancelRequestedAt ≠ none) :
    (o.onRow now row).cancelRequestedAt ≠ none := by
  cases o <;> simp only [Op.onRow] <;> (try split) <;> first | exact h | simp

/-- The invariant behind `Accepted`: until an automatic retry the job is not queued. -/
structure Stopped (σ : State) (j : Uuid) (l : List Ev) : Prop where
  row : ∃ row, σ.world.jobs.find? j = some row ∧ row.cancelRequestedAt ≠ none ∧
    ((∀ ev ∈ l, wins Op.retries j ev = false) → row.status.claimable = false) ∧
    (row.type = .batch → ∀ ev ∈ l, wins Op.retries j ev = false)
  unreset : ∀ ev ∈ l, wins Op.resets j ev = false
  retried : ∀ l₂ ev l₁, l = l₂ ++ ev :: l₁ → wins Op.claims j ev = true →
    ∃ ev' ∈ l₁, wins Op.retries j ev' = true

theorem Stopped.accepted {l : List Ev} (h : Stopped σ j l) : Accepted σ j l := by
  obtain ⟨⟨row, hj, hflag, -, hbatch⟩, hreset, hretried⟩ := h
  refine ⟨⟨row, hj, hflag⟩, hreset, hretried, ?_⟩
  intro row' hj' hb ev hev
  rw [hj, Option.some.injEq] at hj'
  subst hj'
  by_contra hw
  obtain ⟨l₂, l₁, rfl⟩ := List.append_of_mem hev
  obtain ⟨ev', hev', hr⟩ := hretried l₂ ev l₁ rfl (by simpa using hw)
  have := hbatch hb ev' (List.mem_append_right _ (List.mem_cons_of_mem _ hev'))
  rw [hr] at this
  cases this

theorem Stopped.move {l : List Ev} (h : Stopped σ j l) (hR : Remembered σ) (hB : BatchOnce σ j)
    (hm : Move (system app) σ ev σ') (ht : Told app σ ev) : Stopped σ' j (ev :: l) := by
  obtain ⟨⟨row, hj, hflag, hquiet, hbatch⟩, hreset, hretried⟩ := h
  have hid : row.id = j := Table.find?_key hj
  have hfix : (onRow σ'.world.clock row ev).fixed = row.fixed := by
    cases ev with
    | act pid o r => exact onRow_fixed _ _ _
    | _ => rfl
  have htype : (onRow σ'.world.clock row ev).type = row.type := congrArg (fun k => k.2.1) hfix
  have hnoreset : wins Op.resets j ev = false := by
    by_contra hw
    obtain ⟨pid, o, r, rfl, ho, hwon⟩ := wins_iff.1 (by simpa using hw)
    cases o <;> simp only [Op.resets, Option.some.injEq, reduceCtorEq] at ho
    subst ho
    rw [won_eq_guard hm hj rfl] at hwon
    simp only [Op.guard, Bool.and_eq_true, Option.isNone_iff_eq_none] at hwon
    exact hflag hwon.2
  refine ⟨⟨_, move_row_some hm hj, ?_, ?_, ?_⟩, ?_, ?_⟩
  · cases ev with
    | act pid o r => exact onRow_flag _ _ _ hflag
    | _ => exact hflag
  · intro hno
    have hold := hquiet fun ev' hev' => hno ev' (List.mem_cons_of_mem _ hev')
    cases ev with
    | act pid o r =>
      by_contra hc
      have hc' : (o.onRow σ'.world.clock row).status.claimable = true := by
        simpa [onRow] using hc
      rcases onRow_claimable σ'.world.clock row o hc' with h1 | ⟨rfl, hg⟩ | ⟨hs, ho⟩
      · rw [hold] at h1
        cases h1
      · have hwon := (move_won hm (by simp)).2 ⟨j, row, hj, hg⟩
        have := (wins_iff (f := Op.resets) (j := j)).2 ⟨pid, _, r, rfl, congrArg some hid, hwon⟩
        rw [hnoreset] at this
        cases this
      · have hlost := hno _ List.mem_cons_self
        rcases ho with rfl | ⟨t, rfl⟩
        all_goals
          have hwon := (move_won hm (by simp)).2 ⟨j, row, hj, by simp [Op.guard, hs]⟩
          have := (wins_iff (f := Op.retries) (j := j)).2
            ⟨pid, _, r, rfl, congrArg some hid, hwon⟩
          rw [hlost] at this
          cases this
    | _ => exact hold
  · intro hb ev' hev'
    rw [htype] at hb
    rcases List.mem_cons.1 hev' with rfl | hev'
    · by_contra hw
      obtain ⟨pid, o, r, rfl, ho, -⟩ := wins_iff.1 (by simpa using hw)
      unfold BatchOnce at hB
      rw [hj] at hB
      refine no_batch_retry hR ht hj (hB hb).1 ?_
      cases o <;> simp only [Op.retries, Option.some.injEq, reduceCtorEq] at ho
      · exact .inl (by rw [ho])
      · exact .inr ⟨_, by rw [ho]⟩
    · exact hbatch hb ev' hev'
  · intro ev' hev'
    rcases List.mem_cons.1 hev' with rfl | hev'
    · exact hnoreset
    · exact hreset ev' hev'
  · intro l₂ ev' l₁ hl hw
    rcases List.cons_eq_append_iff.1 hl with ⟨rfl, he⟩ | ⟨l₂', rfl, hl'⟩
    · rw [List.cons.injEq] at he
      obtain ⟨rfl, rfl⟩ := he
      -- a claim that is won finds the job queued, so it was retried before
      obtain ⟨row', hf, hc, -⟩ := claim_won hm hw
      rw [hj, Option.some.injEq] at hf
      subst hf
      by_contra hno
      push Not at hno
      rw [hquiet fun ev' hev' => by simpa using hno ev' hev'] at hc
      cases hc
    · exact hretried l₂' ev' l₁ hl' hw

theorem stopped_of_request {pid : Nat} (hm : Move (system app) σ (.act pid (.requestCancel j) true) σ') :
    Stopped σ' j [] := by
  obtain ⟨row, hf, hg⟩ := move_hit hm rfl rfl
  simp only [Op.guard, Bool.and_eq_true, decide_eq_true_eq] at hg
  refine ⟨⟨_, move_row_some hm hf, ?_, ?_, ?_⟩, ?_, ?_⟩
  · simp [onRow, Op.onRow, hg]
  · intro _
    simp [onRow, Op.onRow, hg, JobStatus.claimable]
  · simp
  · simp
  · simp

end Steps

theorem stopped {app : App} {c : Cfg} (hr : Reachable (system app) c) {pid : Nat} {j : Uuid}
    {l₂ l₁ : List Ev} (hl : c.shared.log = l₂ ++ .act pid (.requestCancel j) true :: l₁) :
    Stopped c.shared j l₂ := by
  have h : Remembered c.shared ∧ BatchOnce c.shared j ∧
      ∀ pid l₂ l₁, c.shared.log = l₂ ++ .act pid (.requestCancel j) true :: l₁ →
        Stopped c.shared j l₂ := by
    refine run_inv (I := fun σ => Remembered σ ∧ BatchOnce σ j ∧
      ∀ pid l₂ l₁, σ.log = l₂ ++ .act pid (.requestCancel j) true :: l₁ → Stopped σ j l₂) ?_ ?_ hr
    · refine ⟨fun _ _ _ h => (by cases h), rfl, fun pid l₂ l₁ h => ?_⟩
      simp at h
    · intro σ ev σ' hI hm _ ht
      obtain ⟨hR, hB, hS⟩ := hI
      refine ⟨hR.move hm, hB.move hR hm ht, fun pid l₂ l₁ hl => ?_⟩
      rw [move_log hm] at hl
      rcases List.cons_eq_append_iff.1 hl with ⟨rfl, he⟩ | ⟨l₂', rfl, hl'⟩
      · rw [List.cons.injEq] at he
        obtain ⟨rfl, rfl⟩ := he
        exact stopped_of_request hm
      · exact (hS pid l₂' l₁ hl').move hR hB hm ht
  exact h.2.2 pid l₂ l₁ hl

/-- A 202 of the cancel route: a request of its own was accepted before it. -/
theorem accepted_of_answer (app : App) (c : Cfg) (hr : Reachable (system app) c) (pid : Nat)
    (user j : Uuid) (resp : Response) (l₂ l₁ : List Ev)
    (hl : c.shared.log = l₂ ++ .ret pid (.response (.ok resp)) :: l₁)
    (hp : proc? pid c.shared.log = some (.cancelJobRoute user j)) (hs : resp.status = 202) :
    ∃ l₃ l₀, l₁ = l₃ ++ .act pid (.requestCancel j) true :: l₀ ∧
      Accepted c.shared j (l₂ ++ .ret pid (.response (.ok resp)) :: l₃) := by
  obtain ⟨p, hp', hret⟩ := (run_recorded hr).2 pid _ l₁ ⟨l₂, hl.symm⟩
  rw [hp, Option.some.injEq] at hp'
  subst hp'
  obtain ⟨r, hr', hans⟩ := hret
  cases hr'
  have hmem : .act pid (.requestCancel j) true ∈ l₁ := mem_own.1 ((hans resp rfl).requested hs)
  obtain ⟨l₃, l₀, rfl⟩ := List.append_of_mem hmem
  have hlog : c.shared.log = (l₂ ++ .ret pid (.response (.ok resp)) :: l₃) ++
      .act pid (.requestCancel j) true :: l₀ := by
    rw [hl]
    simp
  exact ⟨l₃, l₀, rfl, (stopped hr hlog).accepted⟩

/-- Job 1 is asked to stop while its first attempt runs; the attempt fails and the
retry is claimed. -/
def retriedAfterRequest : List (Choice Env Proc) := List.flatten
  [[.start (.submitJob 7 1 { type := .email, payload := .null })], runs 0 5,
    [.start (.workerLoop "a" 1)], runs 1 5, runs 2 5,
    [.start (.cancelJobRoute 7 1)], runs 3 5,
    [.run 2 { finish := .error ("RuntimeError", "boom") }], runs 2 4,
    [.start (.workerLoop "b" 1)], runs 4 5, runs 5 1]

theorem claimed_after_request :
    ¬ ∀ (c : Cfg) (pid : Nat) (user j : Uuid) (resp : Response) (l₂ l₁ : List Ev),
      Reachable (system defaultApp) c →
      c.shared.log = l₂ ++ .ret pid (.response (.ok resp)) :: l₁ →
      proc? pid c.shared.log = some (.cancelJobRoute user j) → resp.status = 202 →
      ∀ ev ∈ l₂, wins Op.claims j ev = false := by
  intro h
  obtain ⟨c, hc, hl⟩ := reachable_of_replay defaultApp retriedAfterRequest
    (fun c => answered 202 3 13 c && (c.shared.log.take 13).any (wins Op.claims 1))
    (by decide +kernel)
  rw [Bool.and_eq_true, List.any_eq_true] at hl
  obtain ⟨ha, ev, hev, hw⟩ := hl
  obtain ⟨resp, l₁, hlog, hp, hs⟩ := answered_split ha
  rw [h c 3 7 1 resp _ l₁ hc hlog hp hs ev hev] at hw
  cases hw

theorem accepted_retriedAfterRequest :
    ∃ (c : Cfg) (resp : Response) (l₂ l₁ : List Ev), Reachable (system defaultApp) c ∧
      c.shared.log = l₂ ++ .ret 3 (.response (.ok resp)) :: l₁ ∧
      ∃ l₃ l₀, l₁ = l₃ ++ .act 3 (.requestCancel 1) true :: l₀ ∧
        Accepted c.shared 1 (l₂ ++ .ret 3 (.response (.ok resp)) :: l₃) := by
  obtain ⟨c, hc, hl⟩ := reachable_of_replay defaultApp retriedAfterRequest (answered 202 3 13)
    (by decide +kernel)
  obtain ⟨resp, l₁, hlog, hp, hs⟩ := answered_split hl
  exact ⟨c, resp, _, l₁, hc, hlog, accepted_of_answer defaultApp c hc 3 7 1 resp _ l₁ hlog hp hs⟩

/-! ### Nobody is cancelled unasked -/

def Op.requests : Op → Option Uuid
  | .requestCancel id => some id
  | _ => none

/-- A cancel request of a client has won the statement `f` for `j`. -/
def ByClient (f : Op → Option Uuid) (j : Uuid) (l : List Ev) : Prop :=
  ∃ ev ∈ l, wins f j ev = true ∧ ∃ user, proc? ev.pid l = some (.cancelJobRoute user j)

/-- Every cancelled job was cancelled by a client while it waited, or a client asked
for it while it ran. -/
def Asked (σ : State) : Prop :=
  ∀ j row, σ.world.jobs.find? j = some row → row.status = .cancelled →
    ByClient Op.cancelsQueued j σ.log ∨
      row.cancelRequestedAt ≠ none ∧ ByClient Op.requests j σ.log

/-- A worker that runs `cancel_job` on a processing row nobody asked to cancel holds
its claim. -/
def cancelsOwn (σ : State) : Ev → Bool
  | .act pid (.cancelJob j _) _ => (σ.world.jobs.find? j).all fun row =>
    row.status ≠ .processing || row.cancelRequestedAt.isSome || lastClaim j σ.log == some pid
  | _ => true

section Polls

variable {app : App} {σ σ' : State} {ev : Ev} {j : Uuid} {row : Job}

theorem onRow_cancelled (now : Time) (row : Job) (o : Op)
    (h : (o.onRow now row).status = .cancelled) :
    row.status = .cancelled ∨ o = .cancelPendingOrScheduled row.id ∧ o.guard row = true ∨
      ∃ s, o = .cancelJob row.id s ∧ o.guard row = true := by
  obtain ⟨_, _, _, _, status, _⟩ := row
  cases o <;> simp only [Op.onRow] at h <;> (try split at h) <;> simp_all [Op.guard]

theorem onRow_flagged (now : Time) (row : Job) (o : Op)
    (h : (o.onRow now row).cancelRequestedAt ≠ none) :
    row.cancelRequestedAt ≠ none ∨ o = .requestCancel row.id ∧ o.guard row = true := by
  cases o <;> simp only [Op.onRow] at h <;> (try split at h) <;>
    first | exact .inl h | simp_all [Op.guard]

theorem issues_cancel {p : Proc} {h : Hist} {o : Op} (hi : issues app p h o)
    (ho : Op.cancelsQueued o = some j ∨ Op.requests o = some j) :
    ∃ user, p = .cancelJobRoute user j := by
  cases o <;> simp only [Op.cancelsQueued, Op.requests, Option.some.injEq, reduceCtorEq, or_false,
    false_or] at ho <;> subst ho
  all_goals
    cases p with
    | cancelJobRoute user id => exact ⟨user, by rw [hi.1]⟩
    | _ => exact absurd hi (by simp [issues, submitIssues, readIssues, retryJobIssues, listIssues,
        loopIssues, taskIssues, promoteIssues, tickerIssues])

theorem ByClient.move {f : Op → Option Uuid} (h : ByClient f j σ.log) (ht : Told app σ ev) :
    ByClient f j (ev :: σ.log) := by
  obtain ⟨ev', hev, hw, user, hp⟩ := h
  exact ⟨ev', List.mem_cons_of_mem _ hev, hw, user, proc?_stays ht hp⟩

/-- A statement of the cancel route that has just been won. -/
theorem byClient_of_win {f : Op → Option Uuid} {pid : Nat} {o : Op} {r : o.Res}
    (ht : Told app σ (.act pid o r)) (ho : f o = some j) (hw : won o r = true)
    (hf : Op.cancelsQueued o = some j ∨ Op.requests o = some j) :
    ByClient f j (.act pid o r :: σ.log) := by
  obtain ⟨-, p, hp, hi⟩ := ht
  obtain ⟨user, rfl⟩ := issues_cancel hi hf
  exact ⟨_, List.mem_cons_self, wins_iff.2 ⟨pid, o, r, rfl, ho, hw⟩, user, hp⟩

/-- A poll that stops the handler saw a request, or a row that was not processing. -/
theorem stopsAt_row {pid : Nat} {o : Op} {r : o.Res} (hm : Move (system app) σ (.act pid o r) σ')
    (hs : stopsAt j ⟨o, r⟩ = true) (hj : σ.world.jobs.find? j = some row) :
    row.status ≠ .processing ∨ row.cancelRequestedAt ≠ none := by
  cases hm with
  | act _ _ e he =>
    by_contra hno
    push Not at hno
    obtain ⟨hp, hc⟩ := hno
    cases o <;> try cases hs
    case writeProgress i pct =>
      simp only [system, exec, Repository.writeProgress, Option.some.injEq, Prod.mk.injEq] at he
      obtain ⟨-, hr⟩ := he
      cases r with
      | none =>
        obtain rfl : i = j := of_decide_eq_true hs
        simp [hj, hp] at hr
      | some c =>
        simp only [stopsAt, Bool.and_eq_true, decide_eq_true_eq] at hs
        obtain ⟨rfl, hc'⟩ := hs
        simp [hj, hp, hc] at hr
        simp [← hr] at hc'
    case readFlags i =>
      simp only [system, exec, Repository.readFlags, Option.some.injEq, Prod.mk.injEq] at he
      obtain ⟨-, hr⟩ := he
      rcases r with - | ⟨c, s⟩
      · obtain rfl : i = j := of_decide_eq_true hs
        simp [hj] at hr
      · simp only [stopsAt, Bool.and_eq_true, decide_eq_true_eq] at hs
        obtain ⟨rfl, hc'⟩ := hs
        simp [hj, hp, hc] at hr
        simp [← hr] at hc'

/-- What a run keeps: flags come from clients, and the holder of a claim nobody asked
to cancel has not been told to stop. -/
structure Asking (σ : State) : Prop where
  asked : Asked σ
  flags : ∀ j row, σ.world.jobs.find? j = some row → row.cancelRequestedAt ≠ none →
    ByClient Op.requests j σ.log
  polls : ∀ j row pid, σ.world.jobs.find? j = some row → row.status = .processing →
    row.cancelRequestedAt = none → lastClaim j σ.log = some pid → ¬ Polled j (own pid σ.log)

theorem Asking.flags_move (h : Asking σ) (hm : Move (system app) σ ev σ') (ht : Told app σ ev) :
    ∀ j row, σ'.world.jobs.find? j = some row → row.cancelRequestedAt ≠ none →
      ByClient Op.requests j σ'.log := by
  intro j row' hj' hc
  rw [move_log hm]
  rcases move_row hm hj' with ⟨row, hj, rfl⟩ | ⟨pid, n, rfl, -, rfl, -⟩
  · have hold : row.cancelRequestedAt ≠ none → ByClient Op.requests j (ev :: σ.log) :=
      fun hc => (h.flags j row hj hc).move ht
    cases ev with
    | act pid o r =>
      rcases onRow_flagged _ row o hc with hc | ⟨rfl, hg⟩
      · exact hold hc
      · have hid : row.id = j := Table.find?_key hj
        have hwon := (move_won hm (by simp)).2 ⟨j, row, hj, hg⟩
        exact byClient_of_win ht (congrArg some hid) hwon (.inr (congrArg some hid))
    | _ => exact hold hc
  · simp [Repository.NewJob.row] at hc

/-- A task that has just claimed has been told nothing; later its claim stands as long as
the row is processing, and only a poll tells it to stop. -/
theorem Asking.polls_move (h : Asking σ) (hm : Move (system app) σ ev σ') (ht : Told app σ ev) :
    ∀ j row pid, σ'.world.jobs.find? j = some row → row.status = .processing →
      row.cancelRequestedAt = none → lastClaim j σ'.log = some pid →
      ¬ Polled j (own pid σ'.log) := by
  intro j row' pid hj' hs hc hl
  rw [move_log hm] at hl ⊢
  rcases processing_before hm hj' hs ht with ⟨q, rfl⟩ | ⟨hlast, row, hj, hs₀⟩
  · obtain ⟨-, p, -, hi⟩ := ht
    rw [lastClaim_cons, if_pos (by simp [wins, Op.claims, won]), Option.some.injEq] at hl
    subst hl
    rintro ⟨x, hx, hstop⟩
    rw [Event.pid_act, own_act, if_pos rfl, (issues_claim hi).2, List.mem_singleton] at hx
    subst hx
    cases hstop
  · have hrow := move_row_some hm hj
    rw [hj', Option.some.injEq] at hrow
    have hc₀ : row.cancelRequestedAt = none := by
      by_contra hf
      refine absurd hc ?_
      rw [hrow]
      cases ev with
      | act q o r => exact onRow_flag _ _ _ hf
      | _ => exact hf
    have hold := h.polls j row pid hj hs₀ hc₀ (hlast ▸ hl)
    rintro ⟨x, hx, hstop⟩
    cases ev with
    | act q o r =>
      rw [own_act] at hx
      split at hx
      · rcases List.mem_cons.1 hx with rfl | hx
        · rcases stopsAt_row hm hstop hj with hne | hne
          · exact hne hs₀
          · exact hne hc₀
        · exact hold ⟨x, hx, hstop⟩
      · exact hold ⟨x, hx, hstop⟩
    | _ => exact hold ⟨x, hx, hstop⟩

theorem Asking.asked_move (h : Asking σ) (hm : Move (system app) σ ev σ') (ht : Told app σ ev)
    (hf : Issued (system app) (fun _ => fills) (fun _ _ _ => True) σ ev)
    (hok : ev.isStart = false → cancelsOwn σ ev = true) : Asked σ' := by
  intro j row' hj' hs
  rw [move_log hm]
  rcases move_row hm hj' with ⟨row, hj, rfl⟩ | ⟨pid, n, rfl, -, rfl, -⟩
  · have hid : row.id = j := Table.find?_key hj
    have hold : row.status = .cancelled → ByClient Op.cancelsQueued j (ev :: σ.log) ∨
        (onRow σ'.world.clock row ev).cancelRequestedAt ≠ none ∧
          ByClient Op.requests j (ev :: σ.log) := by
      intro hs
      rcases h.asked j row hj hs with hq | ⟨hc, hq⟩
      · exact .inl (hq.move ht)
      · refine .inr ⟨?_, hq.move ht⟩
        cases ev with
        | act pid o r => exact onRow_flag _ _ _ hc
        | _ => exact hc
    cases ev with
    | act pid o r =>
      rcases onRow_cancelled _ row o hs with hs | ⟨rfl, hg⟩ | ⟨s, rfl, hg⟩
      · exact hold hs
      · have hwon := (move_won hm (by simp)).2 ⟨j, row, hj, hg⟩
        exact .inl (byClient_of_win ht (congrArg some hid) hwon (.inl (congrArg some hid)))
      · simp only [Op.guard, decide_true, Bool.true_and, decide_eq_true_eq] at hg
        -- the worker was told to stop, so it is not the holder of an unasked claim
        have hc : row.cancelRequestedAt ≠ none := by
          intro hc
          have hown := hok rfl
          simp only [cancelsOwn, hid, hj, Option.all_some, hg, hc, Option.isSome_none,
            ne_eq, not_true_eq_false, decide_false, Bool.false_or, beq_iff_eq] at hown
          obtain ⟨-, p, -, hi⟩ := hf
          rw [hid] at hi
          exact h.polls j row pid hj hg hc hown hi.2
        exact .inr ⟨onRow_flag _ _ _ hc, (h.flags j row hj hc).move ht⟩
    | _ => exact hold hs
  · obtain ⟨-, p, -, hi⟩ := hf
    have hn : n.status = .cancelled := hs
    rcases hi with hi | hi
    · rw [hi] at hn
      cases hn
    · rw [hi.1] at hn
      cases hn

end Polls

theorem asked_of_cancelsOwn (app : App) (c : Cfg)
    (hr : Run (system app) (fun σ ev => cancelsOwn σ ev = true) c) : Asked c.shared := by
  have h : Asking c.shared := by
    refine Run.inv (fun _ _ _ _ _ he => exec_valid he)
      (fun p => (body_emits app p).and (body_fills app p)) ?_ ?_ hr
    · exact ⟨fun _ _ hj => (nomatch hj), fun _ _ hj => (nomatch hj), fun _ _ _ hj => (nomatch hj)⟩
    · intro σ ev σ' hI hm hok hi
      have ht : Told app σ ev := hi.mono (fun _ _ _ h => h.1) (fun _ _ _ h => h.1)
      have hf : Issued (system app) (fun _ => fills) (fun _ _ _ => True) σ ev :=
        hi.mono (fun _ _ _ h => h.2) (fun _ _ _ _ => trivial)
      exact ⟨hI.asked_move hm ht hf hok, hI.flags_move hm ht, hI.polls_move hm ht⟩
  exact h.asked

def batchApp : App :=
  { defaultApp with validatePayload := fun _ _ => .ok (.batch [.email .null]) }

/-- The worker of batch 1 stalls after its claim and the reaper fails the job. A client
retries it, the first worker finds it pending and gives up, a second worker claims it,
and the first one cancels that claim. -/
def cancelledUnasked : List (Choice Env Proc) := List.flatten
  [[.start (.submitJob 7 1 { type := .batch, payload := .null })], runs 0 5,
    [.start (.workerLoop "a" 1)], runs 1 5, runs 2 2,
    [.start (.ticker 2), .run 3 { elapsed := 61000000 }], runs 3 9,
    [.start (.retryJob 7 1)], runs 4 6, runs 2 7,
    [.start (.workerLoop "b" 1)], runs 5 5, runs 6 1, runs 2 1]

theorem unasked_cancelled :
    ¬ ∀ c, Reachable (system batchApp) c → Asked c.shared := by
  intro h
  obtain ⟨c, hc, hl⟩ := reachable_of_replay batchApp cancelledUnasked
    (fun c => ((c.shared.world.jobs.find? 1).any fun row =>
        row.status = .cancelled && row.cancelRequestedAt.isNone) &&
      c.shared.log.all fun ev => !wins Op.cancelsQueued 1 ev) (by decide +kernel)
  rw [Bool.and_eq_true, Option.any_eq_true, List.all_eq_true] at hl
  obtain ⟨⟨row, hj, hrow⟩, hno⟩ := hl
  rw [Bool.and_eq_true, decide_eq_true_eq, Option.isNone_iff_eq_none] at hrow
  rcases h c hc 1 row hj hrow.1 with ⟨ev, hev, hw, -⟩ | ⟨hc', -⟩
  · have := hno ev hev
    rw [hw] at this
    cases this
  · exact hc' hrow.2

def cancelledRunningBatch : List (Choice Env Proc) := List.flatten
  [[.start (.submitJob 7 1 { type := .batch, payload := .null })], runs 0 5,
    [.start (.workerLoop "a" 1)], runs 1 5, runs 2 3,
    [.start (.cancelJobRoute 7 1)], runs 3 5, runs 2 7]

theorem asked_cancelledRunningBatch :
    ∃ c row, Run (system batchApp) (fun σ ev => cancelsOwn σ ev = true) c ∧
      c.shared.world.jobs.find? 1 = some row ∧ row.status = .cancelled ∧ Asked c.shared := by
  obtain ⟨c, hc, hl⟩ := run_of_replay batchApp (fun σ ev => cancelsOwn σ ev = true) cancelsOwn
    (fun _ _ h => h) cancelledRunningBatch
    (fun c => (c.shared.world.jobs.find? 1).any fun row => row.status = .cancelled)
    (by decide +kernel)
  rw [Option.any_eq_true] at hl
  obtain ⟨row, hj, hs⟩ := hl
  exact ⟨c, row, hc, hj, of_decide_eq_true hs, asked_of_cancelsOwn batchApp c hc⟩

end JobProcessor
