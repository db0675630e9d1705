import JobProcessor.Proofs.Budget

/-! The flag `is_synced_to_redis`: what it promises of a queued job, and when
`mark_synced` keeps the promise. -/

namespace JobProcessor

open Interleave Prog Store

/-- An event that names `j` in a stream or in the delayed set. -/
def handsOver (j : Uuid) : Ev → Bool
  | .act _ o _ => o.handsOff == some j
  | _ => false

/-- `j` was handed to Redis since its flag was last set to `FALSE`. -/
def handedOff (j : Uuid) : List Ev → Bool
  | [] => false
  | ev :: l => !wins Op.unsyncs j ev && (handsOver j ev || handedOff j l)

/-- The flag of `j` was set to `FALSE` since the last action of process `pid`. -/
def overtaken (pid : Nat) (j : Uuid) : List Ev → Bool
  | [] => false
  | .act q o r :: l => q != pid && (wins Op.unsyncs j (.act q o r) || overtaken pid j l)
  | _ :: l => overtaken pid j l

/-- `mark_synced` is not overtaken: the flag has not been reset since the caller's
own write to Redis. -/
def marksFresh (σ : State) : Ev → Bool
  | .act pid (.markSynced j) _ => !overtaken pid j σ.log
  | _ => true

/-- Every queued job whose flag is set was handed to Redis since the last reset. -/
def FlagHonest (σ : State) : Prop :=
  ∀ j row, σ.world.jobs.find? j = some row → row.status.claimable = true →
    row.isSyncedToRedis = true → handedOff j σ.log = true

section Steps

variable {app : App} {σ σ' : State} {ev : Ev} {j : Uuid}

/-- Every `mark_synced` follows its caller's own write to Redis. -/
theorem issues_markSynced {p : Proc} {h : Hist} (hi : issues app p h (.markSynced j)) :
    ∃ x g, h = x :: g ∧ x.1.handsOff = some j := by
  cases p with
  | submitJob user newId sub =>
    obtain ⟨-, x, g, hg, hx, -⟩ := hi
    exact ⟨x, g, hg, hx⟩
  | retryJob user id =>
    obtain ⟨rfl, -, x, g, hg, hx⟩ := hi
    exact ⟨x, g, hg, hx⟩
  | runOne consumer m =>
    obtain ⟨x, g, hg, hx, -⟩ := hi
    exact ⟨x, g, hg, hx⟩
  | ticker fuel => exact hi
  | promoteDue => exact hi.1
  | _ => exact absurd hi (by simp [issues, readIssues, cancelIssues, listIssues, loopIssues])

theorem handedOff_of_own {pid : Nat} {x : Reply Op Op.Res} {g : Hist} (hx : x.1.handsOff = some j)
    (l : List Ev) (ho : own pid l = x :: g) (hf : overtaken pid j l = false) :
    handedOff j l = true := by
  induction l with
  | nil => cases ho
  | cons ev l ih =>
    cases ev with
    | act q o r =>
      rw [own_act] at ho
      by_cases hq : q = pid
      · rw [if_pos hq, List.cons.injEq] at ho
        obtain ⟨rfl, -⟩ := ho
        have hu : o.unsyncs = none := by
          cases o <;> first | rfl | cases hx
        have ho : o.handsOff = some j := hx
        simp [handedOff, handsOver, wins, hu, ho]
      · rw [if_neg hq] at ho
        have hq' : (q != pid) = true := by simpa using hq
        rw [overtaken, hq', Bool.true_and, Bool.or_eq_false_iff] at hf
        simp [handedOff, hf.1, ih ho hf.2]
    | _ => simpa [handedOff, wins, handsOver] using ih ho hf

theorem onRow_synced (now : Time) (row : Job) (o : Op)
    (hc : (o.onRow now row).status.claimable = true)
    (hs : (o.onRow now row).isSyncedToRedis = true) :
    o = .markSynced row.id ∨ row.status.claimable = true ∧ row.isSyncedToRedis = true := by
  obtain ⟨_, _, _, _, status, _⟩ := row
  cases o <;> simp only [Op.onRow] at hc hs <;> (try split at hc) <;>
    simp_all [JobStatus.claimable]

theorem unsync_won (hm : Move (system app) σ ev σ') (hw : wins Op.unsyncs j ev = true) :
    ∃ row, σ'.world.jobs.find? j = some row ∧ row.isSyncedToRedis = false := by
  obtain ⟨pid, o, r, rfl, ho, hr⟩ := wins_iff.1 hw
  by_cases hc : ∃ n, o = .createJob n
  · obtain ⟨n, rfl⟩ := hc
    change r = true at hr
    subst hr
    obtain rfl : n.id = j := by simpa [Op.unsyncs] using ho
    exact ⟨n.row σ'.world.clock, by rw [(move_created hm).2.1]; exact if_pos rfl, rfl⟩
  · have ht : o.target = some j := by
      cases o <;> simp_all [Op.unsyncs, Op.target]
    obtain ⟨row, hf, hg⟩ := move_hit hm ht hr
    refine ⟨_, move_row_some hm hf, ?_⟩
    cases o <;> simp_all [Op.unsyncs, Op.guard, onRow, Op.onRow]

theorem FlagHonest.move (h : FlagHonest σ) (hm : Move (system app) σ ev σ')
    (hok : ev.isStart = false → marksFresh σ ev = true) (ht : Told app σ ev) : FlagHonest σ' := by
  intro j row' hj' hc hs
  have hno : wins Op.unsyncs j ev = false := by
    by_contra hw
    obtain ⟨row, hf, hfalse⟩ := unsync_won hm (by simpa using hw)
    rw [hj', Option.some.injEq] at hf
    rw [← hf, hs] at hfalse
    cases hfalse
  rw [move_log hm, handedOff, hno]
  rcases move_row hm hj' with ⟨row, hj, rfl⟩ | ⟨pid, n, rfl, hn, rfl, -⟩
  · have hid : row.id = j := Table.find?_key hj
    -- either the flag was already set, or this is the mark itself
    have hold : handedOff j σ.log = true := by
      cases ev with
      | act pid o r =>
        rcases onRow_synced _ row o hc hs with rfl | ⟨h1, h2⟩
        · obtain ⟨-, p, -, hi⟩ := ht
          rw [hid] at hi
          obtain ⟨x, g, ho, hx⟩ := issues_markSynced hi
          have hf : overtaken pid j σ.log = false := by simpa [marksFresh, hid] using hok rfl
          exact handedOff_of_own hx σ.log ho hf
        · exact h j row hj h1 h2
      | _ => exact h j row hj hc hs
    simp [hold]
  · cases hs

end Steps

theorem flagHonest_of_marksFresh (app : App) (c : Cfg)
    (hr : Run (system app) (fun σ ev => marksFresh σ ev = true) c) : FlagHonest c.shared := by
  refine run_inv ?_ ?_ hr
  · intro j row hj
    cases hj
  · intro σ ev σ' hI hm hok ht
    exact hI.move hm hok ht

/-- The submission of job 1 is slow to mark it; meanwhile its first attempt fails and
the worker stops between `retry_to_pending` and the new `XADD`. -/
def slowMark : List (Choice Env Proc) := List.flatten
  [[.start (.submitJob 7 1 { type := .email, payload := .null })], runs 0 3,
    [.start (.workerLoop "a" 1)], runs 1 5, runs 2 5,
    [.run 2 { finish := .error ("RuntimeError", "boom") }], runs 2 1, runs 0 1]

theorem flag_lies :
    ¬ ∀ c, Reachable (system defaultApp) c → FlagHonest c.shared := by
  intro h
  obtain ⟨c, hc, hl⟩ := reachable_of_replay defaultApp slowMark
    (fun c => !handedOff 1 c.shared.log && (c.shared.world.jobs.find? 1).any fun row =>
      row.status.claimable && row.isSyncedToRedis) (by decide +kernel)
  rw [Bool.and_eq_true, Option.any_eq_true, Bool.not_eq_true'] at hl
  obtain ⟨hno, row, hj, hrow⟩ := hl
  rw [Bool.and_eq_true] at hrow
  rw [h c hc 1 row hj hrow.1 hrow.2] at hno
  cases hno

theorem flagHonest_firstRetry :
    ∃ c, Run (system defaultApp) (fun σ ev => marksFresh σ ev = true) c ∧
      ((c.shared.world.jobs.find? 1).any fun row =>
        row.status.claimable && row.isSyncedToRedis && row.attempts == 1) = true ∧
      FlagHonest c.shared := by
  obtain ⟨c, hc, hl⟩ := run_of_replay defaultApp (fun σ ev => marksFresh σ ev = true) marksFresh
    (fun _ _ h => h) firstRetry
    (fun c => (c.shared.world.jobs.find? 1).any fun row =>
      row.status.claimable && row.isSyncedToRedis && row.attempts == 1) (by decide +kernel)
  exact ⟨c, hc, hl, flagHonest_of_marksFresh defaultApp c hc⟩

end JobProcessor
