import JobProcessor.Proofs.Attempts
import JobProcessor.Proofs.StatusGraph

/-! The answers of the cancel route, each justified by what happened to the row while
the request ran. -/

namespace JobProcessor

open Interleave Prog Store

def Cancelled (σ : State) (j : Uuid) : Prop :=
  ∃ row, σ.world.jobs.find? j = some row ∧ row.status = .cancelled

/-- When `request_cancel` runs after `cancel_pending_or_scheduled` has cancelled no more
than the instance its session holds, the row is processing or cancelled. -/
def answersFresh (σ : State) : Ev → Prop
  | .act pid (.requestCancel j) _ => MissedHeld j (own pid σ.log) →
    ∀ row, σ.world.jobs.find? j = some row → row.status = .processing ∨ row.status = .cancelled
  | _ => True

/-- What the answer `resp` of the cancel request `pid` for `j` means in a configuration
at or after it. -/
structure CancelTruth (app : App) (ok : State → Ev → Prop) (c : Cfg) (pid : Nat) (j : Uuid)
    (resp : Response) : Prop where
  done : resp.status = 200 → Cancelled c.shared j
  requested : resp.status = 202 → ∃ c₀ c₁ row row',
    Passed (system app) ok c₀ (.act pid (.requestCancel j) true) c₁ c ∧
      c₀.shared.world.jobs.find? j = some row ∧ row.status = .processing ∧
      c₁.shared.world.jobs.find? j = some row' ∧
      row'.cancelRequestedAt = some c₁.shared.world.clock
  refused : resp = ⟨409, .detail "job cannot be cancelled in its current state"⟩ →
    ∃ c₀ o r c₁ row, Passed (system app) ok c₀ (.act pid o r) c₁ c ∧
      c₀.shared.world.jobs.find? j = some row ∧ (row.status = .completed ∨ row.status = .failed)
  unchanged : resp.status = 404 ∨ resp.status = 409 →
    ∀ c₀ o r c₁, Passed (system app) ok c₀ (.act pid o r) c₁ c →
      (∀ i, c₁.shared.world.jobs.find? i = c₀.shared.world.jobs.find? i) ∧
        c₁.shared.world.streams = c₀.shared.world.streams ∧
        c₁.shared.world.delayed = c₀.shared.world.delayed

/-! ### Steps -/

section Steps

variable {app : App} {σ σ' : State} {ev : Ev} {j : Uuid} {row : Job}

theorem move_getJob {pid : Nat} {u : Option Uuid} {job : Job}
    (hm : Move (system app) σ (.act pid (.getJob j u) (some job)) σ') :
    σ.world.jobs.find? j = some job := by
  obtain ⟨e, he⟩ := move_exec hm
  simp only [exec, Option.some.injEq, Prod.mk.injEq] at he
  exact (Repository.getJob_some he.2).1

/-- A step of the cancel route that wins nothing changes nothing. -/
theorem cancelIssues_unchanged {pid : Nat} {user : Uuid} {h : Hist} {o : Op} {r : o.Res}
    (hm : Move (system app) σ (.act pid o r) σ') (hi : cancelIssues user j h o)
    (hw : won o r = false) (hz : ∀ ids, o ≠ .zrem ids) :
    (∀ i, σ'.world.jobs.find? i = σ.world.jobs.find? i) ∧
      σ'.world.streams = σ.world.streams ∧ σ'.world.delayed = σ.world.delayed := by
  have hc : ∀ n, o ≠ .createJob n := by
    rintro n rfl
    exact hi
  refine ⟨fun i => ?_, ?_, ?_⟩
  · cases hf : σ.world.jobs.find? i with
    | none =>
      rcases move_row_none hm hf with h1 | ⟨q, m, h1, -⟩
      · exact h1
      · rw [Event.act.injEq] at h1
        exact absurd h1.2.1 (hc m)
    | some row =>
      have hg : o.guard row = false := by
        by_contra hg
        rw [(move_won hm hc).2 ⟨i, row, hf, by simpa using hg⟩] at hw
        cases hw
      rw [move_row_some hm hf, Option.some.injEq]
      cases o <;> try exact hi.elim
      case zrem ids => exact absurd rfl (hz ids)
      case getJob => rfl
      case now => rfl
      case cancelPendingOrScheduled => exact onRow_refused _ (by simp [Op.target]) hg
      case requestCancel => exact onRow_refused _ (by simp [Op.target]) hg
  · refine move_streams hm ?_ ?_ ?_ ?_ <;> (intros; rintro rfl; exact hi)
  · refine move_delayed hm ?_ hz
    intros
    rintro rfl
    exact hi

/-- A reply that shows the row of `j` cancelled, or cancels it. -/
def tellsCancelled (j : Uuid) : Ev → Prop
  | .act _ (.cancelPendingOrScheduled i) r => i = j ∧ r = true
  | .act _ (.getJob i none) (some job) => i = j ∧ job.status = .cancelled
  | _ => False

theorem cancelled_of_tells (hm : Move (system app) σ ev σ') (ht : tellsCancelled j ev) :
    Cancelled σ' j := by
  unfold tellsCancelled at ht
  split at ht
  · obtain ⟨rfl, rfl⟩ := ht
    obtain ⟨row, hf, hg⟩ := move_hit hm rfl rfl
    simp only [Op.guard, Bool.and_eq_true, decide_eq_true_eq] at hg
    refine ⟨_, move_row_some hm hf, ?_⟩
    simp [onRow, Op.onRow, hg]
  · obtain ⟨rfl, hs⟩ := ht
    exact cancelled_stays hm (move_getJob hm) hs
  · exact ht.elim

/-- `request_cancel` misses after its session has cancelled only the instance it holds:
the row is cancelled. -/
theorem cancelled_of_missed {pid : Nat} (hR : Remembered σ)
    (hm : Move (system app) σ (.act pid (.requestCancel j) false) σ')
    (hh : MissedHeld j (own pid σ.log)) (hok : answersFresh σ (.act pid (.requestCancel j) false))
    (hV : ∀ pid o r, .act pid o r ∈ σ.log → Valid o r) :
    Cancelled σ' j := by
  obtain ⟨g, hg, job, hjob, hc⟩ := hh
  have hev := mem_own.1 (hg.subset (List.mem_cons_of_mem _ hjob))
  have hid : job.id = j := (hV _ _ _ hev job rfl).1
  obtain ⟨row, hf, -⟩ := hR pid _ _ hev job (by simp [shows])
  rw [hid] at hf
  rcases hok ⟨g, hg, job, hjob, hc⟩ row hf with hs | hs
  · have hwon := won_eq_guard hm hf rfl
    have hkey : row.id = j := Table.find?_key hf
    rw [show Op.guard row (.requestCancel j) = true by simp [Op.guard, hs, hkey]] at hwon
    cases hwon
  · exact cancelled_stays hm hf hs

/-- Every justification of a 200 holds for good. -/
structure Truthful (σ : State) : Prop where
  remembered : Remembered σ
  valid : ∀ pid o r, .act pid o r ∈ σ.log → Valid o r
  told : ∀ ev ∈ σ.log, ∀ j, tellsCancelled j ev → Cancelled σ j
  missed : ∀ pid j l, .act pid (.requestCancel j) false :: l <:+ σ.log →
    MissedHeld j (own pid l) → Cancelled σ j

theorem Truthful.move (h : Truthful σ) (hm : Move (system app) σ ev σ')
    (hok : ev.isStart = false → answersFresh σ ev) : Truthful σ' := by
  refine ⟨h.remembered.move hm, valid_move h.valid hm, ?_, ?_⟩
  · intro ev' hev j ht
    rw [move_log hm] at hev
    rcases List.mem_cons.1 hev with rfl | hev
    · exact cancelled_of_tells hm ht
    · obtain ⟨row, hj, hs⟩ := h.told ev' hev j ht
      exact cancelled_stays hm hj hs
  · intro pid j l hl hh
    rw [move_log hm] at hl
    rcases List.suffix_cons_iff.1 hl with heq | hl
    · rw [List.cons.injEq] at heq
      obtain ⟨rfl, rfl⟩ := heq
      exact cancelled_of_missed h.remembered hm hh (hok rfl) h.valid
    · obtain ⟨row, hj, hs⟩ := h.missed pid j l hl hh
      exact cancelled_stays hm hj hs

theorem truthful {c : Cfg} (hr : Run (system app) answersFresh c) : Truthful c.shared := by
  refine run_inv ?_ (fun _ _ _ hI hm hok _ => hI.move hm hok) hr
  refine ⟨fun _ _ _ h => (nomatch h), fun _ _ _ h => (nomatch h), fun _ h => (nomatch h), ?_⟩
  intro pid j l hl
  simp at hl

end Steps

/-! ### Answers -/

section Answers

variable {app : App} {ok : State → Ev → Prop} {c c₀ c₁ : Cfg} {ev : Ev} {j : Uuid}

theorem passed_told (h : Passed (system app) ok c₀ ev c₁ c) :
    ∃ σ, Move (system app) c₀.shared ev σ ∧ Told app c₀.shared ev ∧
      c₁.shared.world = σ.world := by
  obtain ⟨ch, hs⟩ := h.moves
  obtain ⟨σ, hm, ht, hw, -⟩ :=
    h.run.step_issued (fun _ _ _ _ _ he => exec_valid he) (body_emits app) hs
  exact ⟨σ, hm, ht, hw⟩

theorem passed_before {pid : Nat} {o : Op} {r : o.Res} {a : Out} {l₂ l₁ : List Ev}
    (h : Passed (system app) ok c₀ (.act pid o r) c₁ c)
    (hl : c.shared.log = l₂ ++ .ret pid a :: l₁) :
    (⟨o, r⟩ : Reply Op Op.Res) ∈ own pid l₁ := by
  obtain ⟨σ, -, ht, -⟩ := passed_told h
  have hno : .ret pid a ∉ (.act pid o r :: c₀.shared.log : List Ev) := by
    intro hmem
    rw [List.mem_cons] at hmem
    rcases hmem with hmem | hmem
    · cases hmem
    · have hlive := (h.run.returned.2 pid (List.mem_map.2
        ⟨.ret pid a, List.mem_filter.2 ⟨hmem, rfl⟩, rfl⟩)).1
      rw [ht.1] at hlive
      cases hlive
  have hsuf : .ret pid a :: l₁ <:+ c.shared.log := ⟨l₂, hl.symm⟩
  rcases List.suffix_or_suffix_of_suffix h.suffix hsuf with h1 | h1
  · rcases List.suffix_cons_iff.1 h1 with heq | h1
    · cases heq
    · exact mem_own.2 (h1.subset List.mem_cons_self)
  · exact absurd (h1.subset List.mem_cons_self) hno

theorem cancelTruth_requested {pid : Nat} (hr : Run (system app) ok c)
    (hev : .act pid (.requestCancel j) true ∈ c.shared.log) :
    ∃ c₀ c₁ row row', Passed (system app) ok c₀ (.act pid (.requestCancel j) true) c₁ c ∧
      c₀.shared.world.jobs.find? j = some row ∧ row.status = .processing ∧
      c₁.shared.world.jobs.find? j = some row' ∧
      row'.cancelRequestedAt = some c₁.shared.world.clock := by
  obtain ⟨l₂, l₁, hl⟩ := List.append_of_mem hev
  obtain ⟨c₀, c₁, hp, -⟩ := hr.passed _ l₁ rfl ⟨l₂, hl.symm⟩
  obtain ⟨σ, hm, -, hw⟩ := passed_told hp
  obtain ⟨row, hf, hg⟩ := move_hit hm rfl rfl
  simp only [Op.guard, Bool.and_eq_true, decide_eq_true_eq] at hg
  refine ⟨c₀, c₁, row, _, hp, hf, hg.2, by rw [hw]; exact move_row_some hm hf, ?_⟩
  simp [onRow, Op.onRow, hg, hw]

theorem cancelTruth_read {pid : Nat} {job : Job} (hr : Run (system app) ok c)
    (hev : .act pid (.getJob j none) (some job) ∈ c.shared.log) :
    ∃ c₀ o r c₁, Passed (system app) ok c₀ (.act pid o r) c₁ c ∧
      c₀.shared.world.jobs.find? j = some job := by
  obtain ⟨l₂, l₁, hl⟩ := List.append_of_mem hev
  obtain ⟨c₀, c₁, hp, -⟩ := hr.passed _ l₁ rfl ⟨l₂, hl.symm⟩
  obtain ⟨σ, hm, -, -⟩ := passed_told hp
  exact ⟨c₀, _, _, c₁, hp, move_getJob hm⟩

end Answers

theorem cancelTruth (app : App) (c : Cfg) (hr : Run (system app) answersFresh c) (pid : Nat)
    (user j : Uuid) (resp : Response) (hret : .ret pid (.response (.ok resp)) ∈ c.shared.log)
    (hp : proc? pid c.shared.log = some (.cancelJobRoute user j)) :
    CancelTruth app answersFresh c pid j resp := by
  obtain ⟨l₂, l₁, hl⟩ := List.append_of_mem hret
  have hsuf : .ret pid (.response (.ok resp)) :: l₁ <:+ c.shared.log := ⟨l₂, hl.symm⟩
  have hbefore : ∀ {o r}, (⟨o, r⟩ : Reply Op Op.Res) ∈ own pid l₁ → .act pid o r ∈ c.shared.log :=
    fun h => hsuf.subset (List.mem_cons_of_mem _ (mem_own.1 h))
  obtain ⟨p, hp', hans⟩ := (run_recorded hr).2 pid _ l₁ hsuf
  rw [hp, Option.some.injEq] at hp'
  subst hp'
  obtain ⟨r, hr', hans⟩ := hans
  cases hr'
  have ht := truthful hr
  have hA := hans resp rfl
  refine ⟨?_, ?_, ?_, ?_⟩
  · intro hs
    rcases hA.done hs with hw | ⟨job, hj, hc⟩ | ⟨g, hg, hh⟩
    · exact ht.told _ (hbefore hw) j ⟨rfl, rfl⟩
    · exact ht.told _ (hbefore hj) j ⟨rfl, hc⟩
    · obtain ⟨l, hl', rfl⟩ := suffix_of_own hg
      exact ht.missed pid j l ((hl'.trans (List.suffix_cons _ _)).trans hsuf) hh
  · intro hs
    exact cancelTruth_requested hr (hbefore (hA.requested hs))
  · intro hs
    obtain ⟨job, hj, hc⟩ := hA.refused hs
    obtain ⟨c₀, o, r, c₁, hpass, hf⟩ := cancelTruth_read hr (hbefore hj)
    exact ⟨c₀, o, r, c₁, job, hpass, hf, hc⟩
  · intro hs c₀ o r c₁ hpass
    obtain ⟨hw, hz⟩ := hA.unchanged hs _ (passed_before hpass hl)
    obtain ⟨σ, hm, -, hworld⟩ := passed_told hpass
    obtain ⟨p, hp', hi⟩ := (run_recorded hr).1 pid o r _ hpass.suffix
    rw [hp, Option.some.injEq] at hp'
    subst hp'
    rw [hworld]
    exact cancelIssues_unchanged hm hi hw hz

/-- The cancel request `pid` of user 7 for job 1 was answered with `status`, `n` events ago. -/
def answered (status pid n : Nat) (c : Cfg) : Bool :=
  match c.shared.log.drop n with
  | .ret q (.response (.ok resp)) :: _ => decide (q = pid) && decide (resp.status = status) &&
    match proc? pid c.shared.log with
    | some (.cancelJobRoute 7 1) => true
    | _ => false
  | _ => false

theorem answered_split {status pid n : Nat} {c : Cfg} (h : answered status pid n c = true) :
    ∃ resp l₁, c.shared.log = c.shared.log.take n ++ .ret pid (.response (.ok resp)) :: l₁ ∧
      proc? pid c.shared.log = some (.cancelJobRoute 7 1) ∧ resp.status = status := by
  unfold answered at h
  split at h
  · rename_i q resp l₁ hd
    rw [Bool.and_eq_true, Bool.and_eq_true, decide_eq_true_eq, decide_eq_true_eq] at h
    obtain ⟨⟨rfl, hs⟩, hp⟩ := h
    refine ⟨resp, l₁, ?_, ?_, hs⟩
    · rw [← hd, List.take_append_drop]
    · split at hp
      · assumption
      · cases hp
  · cases h

/-- A worker fails job 1 and puts it back while request 3 looks at it; request 3 reads
it pending, a second worker takes it and completes it between the next two statements. -/
def falselyCancelled : List (Choice Env Proc) := List.flatten
  [[.start (.submitJob 7 1 { type := .email, payload := .null })], runs 0 5,
    [.start (.workerLoop "a" 1)], runs 1 5, runs 2 5,
    [.start (.cancelJobRoute 7 1)], runs 3 2,
    [.run 2 { finish := .error ("RuntimeError", "boom") }], runs 2 4, runs 3 2,
    [.start (.workerLoop "b" 1)], runs 4 5, runs 5 1, runs 3 2, runs 5 6, runs 3 2]

theorem false_cancelled_answer :
    ¬ ∀ (c : Cfg) (pid : Nat) (user j : Uuid) (resp : Response),
      Reachable (system defaultApp) c → .ret pid (.response (.ok resp)) ∈ c.shared.log →
      proc? pid c.shared.log = some (.cancelJobRoute user j) →
      CancelTruth defaultApp (fun _ _ => True) c pid j resp := by
  intro h
  obtain ⟨c, hc, hl⟩ := reachable_of_replay defaultApp falselyCancelled
    (fun c => answered 200 3 0 c &&
      (c.shared.world.jobs.find? 1).all fun row => row.status = .completed) (by decide +kernel)
  rw [Bool.and_eq_true] at hl
  obtain ⟨resp, l₁, hlog, hp, hs⟩ := answered_split hl.1
  have hret : .ret 3 (.response (.ok resp)) ∈ c.shared.log := by
    rw [hlog]
    exact List.mem_append_right _ List.mem_cons_self
  obtain ⟨row, hj, hcan⟩ := (h c 3 7 1 resp hc hret hp).done hs
  have := hl.2
  rw [hj, Option.all_some, decide_eq_true_eq, hcan] at this
  cases this

def requestedRunning : List (Choice Env Proc) := List.flatten
  [[.start (.submitJob 7 1 { type := .email, payload := .null })], runs 0 5,
    [.start (.workerLoop "a" 1)], runs 1 5, runs 2 5, [.start (.cancelJobRoute 7 1)], runs 3 5]

theorem cancelTruth_requestedRunning :
    ∃ c resp, Run (system defaultApp) answersFresh c ∧
      .ret 3 (.response (.ok resp)) ∈ c.shared.log ∧ resp.status = 202 ∧
      CancelTruth defaultApp answersFresh c 3 1 resp := by
  obtain ⟨c, hc, hl⟩ := run_of_replay defaultApp answersFresh
    (fun σ ev => match ev with
      | .act _ (.requestCancel j) _ =>
        (σ.world.jobs.find? j).all fun row => row.status = .processing
      | _ => true)
    (by
      intro σ ev hok
      unfold answersFresh
      split
      · intro _ row hj
        simp only [hj, Option.all_some, decide_eq_true_eq] at hok
        exact .inl hok
      · trivial)
    requestedRunning (answered 202 3 0) (by decide +kernel)
  obtain ⟨resp, l₁, hlog, hp, hs⟩ := answered_split hl
  have hret : .ret 3 (.response (.ok resp)) ∈ c.shared.log := by
    rw [hlog]
    exact List.mem_append_right _ List.mem_cons_self
  exact ⟨c, resp, hc, hret, hs, cancelTruth defaultApp c hc 3 7 1 resp hret hp⟩

end JobProcessor
