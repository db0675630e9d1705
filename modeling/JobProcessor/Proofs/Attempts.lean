import JobProcessor.Proofs.StatusGraph
import JobProcessor.Proofs.Budget

/-! The column `attempts` against the claims of a job: every execution that ended is
counted once, by whoever ended it. -/

namespace JobProcessor

open Interleave Store

/-- The job whose execution an action ends and counts. -/
def Op.counts : Op → Option Uuid
  | .completeJob id _ _ => some id
  | .failJob id _ => some id
  | .retryToPending id => some id
  | .retryToScheduled id _ => some id
  | _ => none

/-- The job whose execution a worker ends as cancelled. -/
def Op.cancelsRunning : Op → Option Uuid
  | .cancelJob id _ => some id
  | _ => none

/-- The counted outcomes of `j` since its creation or its last manual retry. -/
def outcomesSince (j : Uuid) : List Ev → Nat
  | [] => 0
  | ev :: l =>
    if wins Op.begins j ev = true then 0 else outcomesSince j l + (wins Op.counts j ev).toNat

/-- The row of `j` was cancelled while it was processing. -/
def cancelledRunning (j : Uuid) (l : List Ev) : Bool := l.any (wins Op.cancelsRunning j)

/-- An execution of `j` has begun and not ended. -/
def running (j : Uuid) : List Ev → Bool
  | [] => false
  | ev :: l => wins Op.claims j ev || !wins Op.settles j ev && running j l

section Steps

variable {app : App} {σ σ' : State} {ev : Ev} {j : Uuid} {row : Job}

/-- A guarded statement hits exactly when its guard holds of the row it names. -/
theorem won_eq_guard {pid : Nat} {o : Op} {r : o.Res} (hm : Move (system app) σ (.act pid o r) σ')
    (hj : σ.world.jobs.find? j = some row) (ho : o.target = some j) : won o r = o.guard row := by
  cases hm with
  | act _ _ e he => rw [exec_target he ho, hj, Option.any_some]

theorem onRow_refused (now : Time) {o : Op} (ho : o.target ≠ none) (hg : o.guard row = false) :
    o.onRow now row = row := by
  cases o <;> simp only [Op.target, ne_eq, not_true_eq_false] at ho <;>
    simp only [Op.guard, Bool.and_eq_false_iff, decide_eq_false_iff_not] at hg <;>
    exact if_neg (by grind)

/-- The other statements neither count nor begin or end an execution. -/
theorem onRow_unguarded (now : Time) {o : Op} (ho : o.target = none) :
    (o.onRow now row).attempts = row.attempts ∧
      ((o.onRow now row).status = .processing ↔ row.status = .processing) := by
  cases o <;> simp only [Op.target, reduceCtorEq] at ho <;> simp only [Op.onRow] <;>
    (try split) <;> simp_all

/-- A guarded statement that hits the row: a manual retry starts the count anew, and
every other one moves `attempts` and the open execution with what it wins. -/
theorem onRow_hit (now : Time) {o : Op} (ho : o.target = some j) (hg : o.guard row = true) :
    (o.resets = some j ∧ (o.onRow now row).attempts = 0 ∧
      (o.onRow now row).status = .pending ∧ row.status = .failed) ∨
    (o.resets = none ∧
      (o.onRow now row).attempts = row.attempts + (o.counts == some j).toNat ∧
      (o.onRow now row).attempts + (decide ((o.onRow now row).status = .processing)).toNat +
          (o.cancelsRunning == some j).toNat =
        row.attempts + (decide (row.status = .processing)).toNat +
          (o.claims == some j).toNat) := by
  have hne : row.status.claimable = true → row.status ≠ .processing := by
    intro hs hp
    rw [hp] at hs
    cases hs
  cases o <;> simp only [Op.target, Option.some.injEq, reduceCtorEq] at ho <;> subst ho <;>
    simp only [Op.guard, Bool.and_eq_true, decide_eq_true_eq, Option.isNone_iff_eq_none] at hg <;>
    simp_all [Op.onRow, Op.resets, Op.counts, Op.cancelsRunning, Op.claims]

theorem begins_target {pid : Nat} {o : Op} {r : o.Res}
    (hm : Move (system app) σ (.act pid o r) σ') (hj : σ.world.jobs.find? j = some row)
    (hw : wins Op.begins j (.act pid o r) = true) : o.resets = some j := by
  simp only [wins, Bool.and_eq_true, beq_iff_eq] at hw
  obtain ⟨ho, hr⟩ := hw
  cases o <;> simp only [Op.begins, Option.some.injEq, reduceCtorEq] at ho
  · change r = true at hr
    subst hr
    rw [← ho, (move_created hm).1] at hj
    cases hj
  · rw [Op.resets, ho]

theorem target_of_settles (o : Op) (ho : o.settles = some j) : o.target = some j := by
  cases o <;> simp only [Op.settles, reduceCtorEq] at ho <;> exact ho

theorem target_of_claims (o : Op) (ho : o.claims = some j) : o.target = some j := by
  cases o <;> simp only [Op.claims, reduceCtorEq] at ho
  exact ho

theorem target_of_counts (o : Op) (ho : o.counts = some j) : o.target = some j := by
  cases o <;> simp only [Op.counts, reduceCtorEq] at ho <;> exact ho

theorem target_of_cancelsRunning (o : Op) (ho : o.cancelsRunning = some j) :
    o.target = some j := by
  cases o <;> simp only [Op.cancelsRunning, reduceCtorEq] at ho
  exact ho

theorem target_of_resets (o : Op) (ho : o.resets = some j) : o.target = some j := by
  cases o <;> simp only [Op.resets, reduceCtorEq] at ho
  exact ho

theorem counts_step {pid : Nat} {o : Op} {r : o.Res}
    (hm : Move (system app) σ (.act pid o r) σ') (hj : σ.world.jobs.find? j = some row)
    (now : Time) :
    (wins Op.begins j (.act pid o r) = true ∧ (o.onRow now row).attempts = 0 ∧
      (o.onRow now row).status = .pending ∧ row.status = .failed) ∨
    (wins Op.begins j (.act pid o r) = false ∧
      (o.onRow now row).attempts = row.attempts + (wins Op.counts j (.act pid o r)).toNat ∧
      (o.onRow now row).attempts + (decide ((o.onRow now row).status = .processing)).toNat +
          (wins Op.cancelsRunning j (.act pid o r)).toNat =
        row.attempts + (decide (row.status = .processing)).toNat +
          (wins Op.claims j (.act pid o r)).toNat) := by
  have hid : row.id = j := Table.find?_key hj
  by_cases hhit : o.target = some j ∧ o.guard row = true
  · obtain ⟨ho, hg⟩ := hhit
    have hwon : won o r = true := (won_eq_guard hm hj ho).trans hg
    have hbeg : wins Op.begins j (.act pid o r) = (o.resets == some j) := by
      cases o <;> simp_all [wins, Op.begins, Op.resets, Op.target]
    rw [hbeg]
    simp only [wins, hwon, Bool.and_true]
    rcases onRow_hit now ho hg with ⟨h1, h2⟩ | ⟨h1, h2⟩
    · exact .inl ⟨by simp [h1], h2⟩
    · exact .inr ⟨by simp [h1], h2⟩
  · -- the event does not hit the row: nothing is won about `j`
    have hlose : ∀ f : Op → Option Uuid, (f o = some j → o.target = some j) →
        wins f j (.act pid o r) = false := by
      intro f hf
      by_contra hw
      rw [Bool.not_eq_false] at hw
      simp only [wins, Bool.and_eq_true, beq_iff_eq] at hw
      have ho := hf hw.1
      exact hhit ⟨ho, (won_eq_guard hm hj ho).symm.trans hw.2⟩
    have hsame : (o.onRow now row).attempts = row.attempts ∧
        ((o.onRow now row).status = .processing ↔ row.status = .processing) := by
      by_cases ho : o.target = none
      · exact onRow_unguarded now ho
      · have hg : o.guard row = false := by
          by_contra hg
          rw [Bool.not_eq_false] at hg
          apply hhit
          exact ⟨hid ▸ target_of_guard hg, hg⟩
        rw [onRow_refused now ho hg]
        simp
    refine .inr ⟨?_, ?_, ?_⟩
    · by_contra hw
      have hr := begins_target hm hj (by simpa using hw)
      have hl := hlose Op.resets (target_of_resets o)
      simp only [wins, hr, beq_self_eq_true, Bool.true_and] at hl
      simp [wins, hl] at hw
    · rw [hlose Op.counts (target_of_counts o), hsame.1]
      rfl
    · rw [hlose Op.cancelsRunning (target_of_cancelsRunning o), hlose Op.claims (target_of_claims o),
        hsame.1, decide_eq_decide.2 hsame.2]

theorem cancelRunning_won (hm : Move (system app) σ ev σ')
    (hw : wins Op.cancelsRunning j ev = true) :
    ∃ row, σ.world.jobs.find? j = some row ∧ row.status = .processing ∧
      (onRow σ'.world.clock row ev).status = .cancelled := by
  obtain ⟨pid, o, r, rfl, ho, hr⟩ := wins_iff.1 hw
  cases o <;> simp only [Op.cancelsRunning, Option.some.injEq, reduceCtorEq] at ho
  subst ho
  obtain ⟨row, hf, hg⟩ := move_hit hm rfl hr
  simp only [Op.guard, Bool.and_eq_true, decide_eq_true_eq] at hg
  refine ⟨row, hf, hg.2, ?_⟩
  simp [onRow, Op.onRow, hg]

/-- Where an event ends or begins one at most, an execution is open after it if it has just
begun, or was open and has not ended. -/
theorem open_balance : ∀ {ended begun p q : Bool}, ended.toNat + begun.toNat ≤ 1 →
    q.toNat + ended.toNat = p.toNat + begun.toNat →
    q = (begun || !ended && p) ∧ (ended = true → p = true) := by
  decide

theorem processing_step {pid : Nat} {o : Op} {r : o.Res}
    (hm : Move (system app) σ (.act pid o r) σ') (hj : σ.world.jobs.find? j = some row)
    (now : Time) :
    decide ((o.onRow now row).status = .processing) =
        (wins Op.claims j (.act pid o r) ||
          !wins Op.settles j (.act pid o r) && decide (row.status = .processing)) ∧
      (wins Op.settles j (.act pid o r) = true → row.status = .processing) := by
  have hsum : (wins Op.settles j (.act pid o r)).toNat =
      (wins Op.counts j (.act pid o r)).toNat + (wins Op.cancelsRunning j (.act pid o r)).toNat := by
    cases o <;> simp [wins, Op.settles, Op.counts, Op.cancelsRunning]
  have hdisj : (wins Op.settles j (.act pid o r)).toNat + (wins Op.claims j (.act pid o r)).toNat ≤ 1 := by
    cases o <;> simp [wins, Op.settles, Op.claims, Bool.toNat_le]
  have hbeg : wins Op.begins j (.act pid o r) = true →
      wins Op.settles j (.act pid o r) = false ∧ wins Op.claims j (.act pid o r) = false := by
    cases o <;> simp [wins, Op.settles, Op.claims, Op.begins]
  rcases counts_step hm hj now with ⟨hb, -, hp, hf⟩ | ⟨-, ha, hc⟩
  · obtain ⟨h1, h2⟩ := hbeg hb
    rw [h1, h2, hp, hf]
    decide
  · rw [ha] at hc
    obtain ⟨hproc, hset⟩ := open_balance hdisj (q := decide ((o.onRow now row).status = .processing))
      (p := decide (row.status = .processing)) (by omega)
    exact ⟨hproc, fun hw => of_decide_eq_true (hset hw)⟩

structure Counted (σ : State) (j : Uuid) : Prop where
  row : ∀ row, σ.world.jobs.find? j = some row →
    outcomesSince j σ.log = row.attempts ∧
    claimsSince j σ.log =
      row.attempts + (decide (row.status = .processing)).toNat + (cancelledRunning j σ.log).toNat ∧
    running j σ.log = decide (row.status = .processing)
  absent : σ.world.jobs.find? j = none → running j σ.log = false
  cancelled : cancelledRunning j σ.log = true →
    ∃ row, σ.world.jobs.find? j = some row ∧ row.status = .cancelled
  ended : ∀ ev l, ev :: l <:+ σ.log → wins Op.settles j ev = true → running j l = true

theorem Counted.not_cancelled (h : Counted σ j) (hj : σ.world.jobs.find? j = some row)
    (hs : row.status ≠ .cancelled) : cancelledRunning j σ.log = false := by
  by_contra hc
  obtain ⟨row', hf, hs'⟩ := h.cancelled (by simpa using hc)
  rw [hj, Option.some.injEq] at hf
  exact hs (hf ▸ hs')

theorem Counted.cancelledRunning_cons (h : Counted σ j) (hm : Move (system app) σ ev σ') :
    (cancelledRunning j (ev :: σ.log)).toNat =
      (cancelledRunning j σ.log).toNat + (wins Op.cancelsRunning j ev).toNat := by
  by_cases hw : wins Op.cancelsRunning j ev = true
  · obtain ⟨row, hj, hs, -⟩ := cancelRunning_won hm hw
    have hold := h.not_cancelled hj (by simp [hs])
    unfold cancelledRunning at hold ⊢
    rw [List.any_cons, hw, hold]
    rfl
  · rw [Bool.not_eq_true] at hw
    unfold cancelledRunning
    rw [List.any_cons, hw, Bool.false_or]
    rfl

/-- Nothing about `j` is won while it has no row, except its insert. -/
theorem wins_absent {f : Op → Option Uuid} (hm : Move (system app) σ ev σ')
    (hj : σ.world.jobs.find? j = none) (hf : ∀ o, f o = some j → o.target = some j) :
    wins f j ev = false := by
  by_contra hw
  obtain ⟨pid, o, r, rfl, ho, hr⟩ := wins_iff.1 (by simpa using hw)
  obtain ⟨row, hi, -⟩ := move_hit hm (hf o ho) hr
  rw [hj] at hi
  cases hi

theorem Counted.row_kept (h : Counted σ j) (hm : Move (system app) σ ev σ')
    (hj : σ.world.jobs.find? j = some row) (row' : Job)
    (hrow' : row' = onRow σ'.world.clock row ev) :
    outcomesSince j (ev :: σ.log) = row'.attempts ∧
    claimsSince j (ev :: σ.log) = row'.attempts + (decide (row'.status = .processing)).toNat +
      (cancelledRunning j (ev :: σ.log)).toNat ∧
    running j (ev :: σ.log) = decide (row'.status = .processing) := by
  obtain ⟨hout, hcl, hrun⟩ := h.row row hj
  rw [claimsSince, outcomesSince, running, h.cancelledRunning_cons hm]
  subst hrow'
  cases ev with
  | act pid o r =>
    have hproc := (processing_step hm hj σ'.world.clock).1
    rw [← hrun] at hproc
    refine and_assoc.1 ⟨?_, hproc.symm⟩
    change _ = (o.onRow σ'.world.clock row).attempts ∧ _ =
      (o.onRow σ'.world.clock row).attempts +
        (decide ((o.onRow σ'.world.clock row).status = .processing)).toNat + _
    rcases counts_step hm hj σ'.world.clock with ⟨hb, ha, hp, hf⟩ | ⟨hb, ha, hsum⟩
    · have hno : wins Op.cancelsRunning j (.act pid o r) = false := by
        by_contra hw
        obtain ⟨row', hf', hs', -⟩ := cancelRunning_won hm (by simpa using hw)
        rw [hj, Option.some.injEq] at hf'
        rw [← hf', hf] at hs'
        cases hs'
      rw [if_pos hb, if_pos hb, ha, hp, hno, h.not_cancelled hj (by simp [hf])]
      simp
    · rw [hb, if_neg Bool.false_ne_true, if_neg Bool.false_ne_true]
      exact ⟨by rw [hout, ha], by omega⟩
  | _ => simpa [wins, onRow] using ⟨hout, hcl, hrun⟩

theorem Counted.move (h : Counted σ j) (hm : Move (system app) σ ev σ') (ht : Told app σ ev) :
    Counted σ' j := by
  have hsettled : wins Op.settles j ev = true → running j σ.log = true := by
    intro hw
    cases hj : σ.world.jobs.find? j with
    | none =>
      rw [wins_absent hm hj target_of_settles] at hw
      cases hw
    | some row =>
      cases ev with
      | act pid o r =>
        have hs := (processing_step hm hj σ'.world.clock).2 hw
        rw [(h.row row hj).2.2, hs]
        rfl
      | _ => cases hw
  constructor
  · intro row' hj'
    rw [move_log hm]
    rcases move_row hm hj' with ⟨row, hj, hrow'⟩ | ⟨pid, n, rfl, hn, rfl, hnone⟩
    · exact h.row_kept hm hj row' hrow'
    · -- a new row starts the counts
      obtain ⟨-, p, -, hi⟩ := ht
      obtain ⟨user, newId, sub, rfl, hnew, -⟩ := issues_createJob hi
      have hb : wins Op.begins j (.act pid (.createJob n) true) = true := by
        simp [wins, Op.begins, hn, won]
      have hold : cancelledRunning j σ.log = false := by
        by_contra hc
        obtain ⟨row, hf, -⟩ := h.cancelled (by simpa using hc)
        rw [hnone] at hf
        cases hf
      have hs : (n.row σ'.world.clock).status ≠ .processing := by
        intro hs
        have hst := hnew.status
        rw [show n.status = .processing from hs] at hst
        simp at hst
      rw [claimsSince, outcomesSince, running, if_pos hb, if_pos hb, h.cancelledRunning_cons hm,
        hold, h.absent hnone, decide_eq_false hs]
      exact ⟨rfl, rfl, rfl⟩
  · intro hnone
    have hbefore : σ.world.jobs.find? j = none := by
      by_contra hne
      obtain ⟨row, hj⟩ := Option.ne_none_iff_exists'.1 hne
      rw [move_row_some hm hj] at hnone
      cases hnone
    rw [move_log hm, running, h.absent hbefore, wins_absent hm hbefore target_of_claims]
    simp
  · intro hc
    rw [move_log hm, cancelledRunning, List.any_cons, Bool.or_eq_true] at hc
    rcases hc with hc | hc
    · obtain ⟨row, hj, -, hs⟩ := cancelRunning_won hm hc
      exact ⟨_, move_row_some hm hj, hs⟩
    · obtain ⟨row, hj, hs⟩ := h.cancelled hc
      exact cancelled_stays hm hj hs
  · intro ev' l hl hw
    rw [move_log hm] at hl
    rcases List.suffix_cons_iff.1 hl with he | hl
    · rw [List.cons.injEq] at he
      obtain ⟨rfl, rfl⟩ := he
      exact hsettled hw
    · exact h.ended ev' l hl hw

end Steps

theorem attempts_counted_once (app : App) (c : Cfg) (hr : Reachable (system app) c) (j : Uuid)
    (row : Job) (hj : c.shared.world.jobs.find? j = some row) :
    (row.attempts : Int) = claimsSince j c.shared.log -
        (decide (row.status = .processing)).toNat - (cancelledRunning j c.shared.log).toNat ∧
      (cancelledRunning j c.shared.log = true → row.status = .cancelled) ∧
      row.attempts = outcomesSince j c.shared.log ∧
      ∀ ev l, ev :: l <:+ c.shared.log → wins Op.settles j ev = true → running j l = true := by
  have h : Counted c.shared j := by
    refine run_inv (I := fun σ => Counted σ j) ?_ ?_ hr
    · exact ⟨fun row hj => (nomatch hj), fun _ => rfl, fun h => (nomatch h), fun _ _ hl => by simp at hl⟩
    · intro σ ev σ' hI hm _ ht
      exact hI.move hm ht
  obtain ⟨hout, hcl, -⟩ := h.row row hj
  refine ⟨?_, ?_, hout.symm, h.ended⟩
  · rw [hcl]
    push_cast
    omega
  · intro hc
    obtain ⟨row', hf, hs⟩ := h.cancelled hc
    rw [hj, Option.some.injEq] at hf
    rw [hf]
    exact hs

/-- The run of the stale retry: two executions, both ended, the second by the worker of
the first. -/
theorem attempts_counted_once_staleRetry :
    ∃ c row, Reachable (system twoAttempts) c ∧ c.shared.world.jobs.find? 1 = some row ∧
      row.attempts = 2 ∧
      (row.attempts : Int) = claimsSince 1 c.shared.log -
        (decide (row.status = .processing)).toNat - (cancelledRunning 1 c.shared.log).toNat := by
  obtain ⟨c, hc, hl⟩ := reachable_of_replay twoAttempts staleRetry
    (fun c => (c.shared.world.jobs.find? 1).any fun row => row.attempts = 2) (by decide +kernel)
  rw [Option.any_eq_true] at hl
  obtain ⟨row, hj, ha⟩ := hl
  exact ⟨c, row, hc, hj, of_decide_eq_true ha, (attempts_counted_once twoAttempts c hc 1 row hj).1⟩

end JobProcessor
