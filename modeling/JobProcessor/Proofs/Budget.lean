import JobProcessor.Proofs.Parts
import JobProcessor.Proofs.Rows

/-! Counting executions: how often a job is claimed, against its attempts, its limit
and its manual retries. -/

namespace JobProcessor

open Interleave Prog Store

def Op.claims : Op → Option Uuid
  | .claimJob id => some id
  | _ => none

def Op.resets : Op → Option Uuid
  | .resetFailedToPending id => some id
  | _ => none

/-- An action of the kind `f` about job `j` that hit its row. -/
def wins (f : Op → Option Uuid) (j : Uuid) : Ev → Bool
  | .act _ o r => f o == some j && won o r
  | _ => false

section Steps

variable {app : App} {σ σ' : State} {ev : Ev} {j : Uuid} {row : Job}

theorem wins_iff {f : Op → Option Uuid} :
    wins f j ev = true ↔ ∃ pid o r, ev = .act pid o r ∧ f o = some j ∧ won o r = true := by
  cases ev with
  | act pid o r =>
    simp only [wins, Bool.and_eq_true, beq_iff_eq]
    constructor
    · intro h
      exact ⟨pid, o, r, rfl, h⟩
    · rintro ⟨_, _, _, he, h⟩
      cases he
      exact h
  | _ => simp [wins]

theorem claim_won (hm : Move (system app) σ ev σ') (hw : wins Op.claims j ev = true) :
    ∃ row, σ.world.jobs.find? j = some row ∧ row.status.claimable = true ∧
      onRow σ'.world.clock row ev =
        { row with status := .processing, startedAt := some σ'.world.clock } := by
  obtain ⟨pid, o, r, rfl, ho, hr⟩ := wins_iff.1 hw
  cases o <;> simp only [Op.claims, Option.some.injEq, reduceCtorEq] at ho
  subst ho
  obtain ⟨row, hf, hg⟩ := move_hit hm rfl hr
  simp only [Op.guard, Bool.and_eq_true, decide_eq_true_eq] at hg
  refine ⟨row, hf, hg.2, ?_⟩
  simp [onRow, Op.onRow, hg]

theorem reset_won (hm : Move (system app) σ ev σ') (hw : wins Op.resets j ev = true) :
    ∃ row, σ.world.jobs.find? j = some row ∧ row.status = .failed ∧
      (onRow σ'.world.clock row ev).status = .pending ∧
      (onRow σ'.world.clock row ev).attempts = 0 := by
  obtain ⟨pid, o, r, rfl, ho, hr⟩ := wins_iff.1 hw
  cases o <;> simp only [Op.resets, Option.some.injEq, reduceCtorEq] at ho
  subst ho
  obtain ⟨row, hf, hg⟩ := move_hit hm rfl hr
  simp only [Op.guard, Bool.and_eq_true, decide_eq_true_eq, Option.isNone_iff_eq_none] at hg
  refine ⟨row, hf, hg.1.2, ?_⟩
  simp [onRow, Op.onRow, hg]

theorem onRow_claimable (now : Time) (row : Job) (o : Op)
    (hc : (o.onRow now row).status.claimable = true) :
    row.status.claimable = true ∨
      o = .resetFailedToPending row.id ∧ o.guard row = true ∨
      row.status = .processing ∧
        (o = .retryToPending row.id ∨ ∃ t, o = .retryToScheduled row.id t) := by
  obtain ⟨_, _, _, _, status, _⟩ := row
  cases o <;> simp only [Op.onRow] at hc <;> (try split at hc) <;>
    simp_all [JobStatus.claimable, Op.guard]

end Steps

/-! ### Batch jobs -/

def startsBatch (j : Uuid) : Ev → Bool
  | .act _ (.startHandler i .batch) _ => i = j
  | _ => false

/-- The claims of a batch job, counted with the one it is open to, are at most one
more than its manual retries. -/
def BatchOnce (σ : State) (j : Uuid) : Prop :=
  match σ.world.jobs.find? j with
  | none => σ.log.countP (wins Op.claims j) = 0
  | some row => row.type = .batch → row.maxAttempts = 1 ∧
      σ.log.countP (wins Op.claims j) + row.status.claimable.toNat ≤
        1 + σ.log.countP (wins Op.resets j)

section Batch

variable {app : App} {σ σ' : State} {ev : Ev} {j : Uuid}

/-- A batch job is never put back by a retry: the row the retry was decided on would
have had a second attempt. -/
theorem no_batch_retry {pid : Nat} {o : Op} {r : o.Res} {row : Job} (hR : Remembered σ)
    (ht : Told app σ (.act pid o r)) (hj : σ.world.jobs.find? j = some row)
    (hmax : row.maxAttempts = 1)
    (ho : o = .retryToPending j ∨ ∃ t, o = .retryToScheduled j t) : False := by
  obtain ⟨-, p, -, hi⟩ := ht
  obtain ⟨job, hg, hid, hlt⟩ := issues_retry ho hi
  obtain ⟨row', hf, hx⟩ := hR _ _ _ (mem_own.1 hg) job (by simp [shows])
  rw [hid, hj, Option.some.injEq] at hf
  have hm : row'.maxAttempts = job.maxAttempts := congrArg (fun k => k.2.2.1) hx
  rw [← hf, hmax] at hm
  omega

theorem countP_wins (f : Op → Option Uuid) (j : Uuid) (ev : Ev) (l : List Ev) :
    (ev :: l).countP (wins f j) = l.countP (wins f j) + (wins f j ev).toNat := by
  rw [List.countP_cons]
  cases wins f j ev <;> rfl

theorem BatchOnce.move (h : BatchOnce σ j) (hR : Remembered σ) (hm : Move (system app) σ ev σ')
    (ht : Told app σ ev) : BatchOnce σ' j := by
  unfold BatchOnce at h ⊢
  rw [move_log hm, countP_wins, countP_wins]
  cases hj : σ.world.jobs.find? j with
  | none =>
    rw [hj] at h
    have hc : wins Op.claims j ev = false := by
      by_contra hw
      obtain ⟨row, hf, -⟩ := claim_won hm (by simpa using hw)
      rw [hj] at hf
      cases hf
    rcases move_row_none hm hj with hj' | ⟨pid, n, rfl, hn, hj'⟩
    · rw [hj']
      simpa [hc] using h
    · rw [hj']
      intro hty
      obtain ⟨-, p, -, hi⟩ := ht
      obtain ⟨user, newId, sub, rfl, hnew, -⟩ := issues_createJob hi
      have hty' : sub.type = .batch := hnew.type.symm.trans hty
      refine ⟨hnew.maxAttempts.trans (if_pos hty'), ?_⟩
      have hle : (n.row σ'.world.clock).status.claimable.toNat ≤ 1 := Bool.toNat_le _
      dsimp only at h
      rw [h, hc]
      simp only [Bool.toNat_false]
      omega
  | some row =>
    rw [hj] at h
    rw [move_row_some hm hj]
    intro hty
    have hid : row.id = j := Table.find?_key hj
    have hfix : (onRow σ'.world.clock row ev).fixed = row.fixed := by
      cases ev with
      | act pid o r => exact onRow_fixed _ _ _
      | _ => rfl
    have hty' : row.type = .batch := (congrArg (fun k => k.2.1) hfix).symm.trans hty
    obtain ⟨hmax, hle⟩ := h hty'
    refine ⟨(congrArg (fun k => k.2.2.1) hfix).trans hmax, ?_⟩
    by_cases hcl : wins Op.claims j ev = true
    · -- the claim uses up the one the job was open to
      obtain ⟨row', hf, hclaim, hrow⟩ := claim_won hm hcl
      rw [hj, Option.some.injEq] at hf
      subst hf
      have hproc : (onRow σ'.world.clock row ev).status.claimable = false := by rw [hrow]; rfl
      rw [hclaim] at hle
      rw [hproc, hcl]
      simp only [Bool.toNat_true, Bool.toNat_false] at hle ⊢
      omega
    · rw [Bool.not_eq_true] at hcl
      rw [hcl]
      by_cases hre : wins Op.resets j ev = true
      · obtain ⟨row', hf, hfail, hpend, -⟩ := reset_won hm hre
        rw [hj, Option.some.injEq] at hf
        subst hf
        rw [hfail] at hle
        rw [hpend, hre]
        simp only [JobStatus.claimable, Bool.toNat_true, Bool.toNat_false] at hle ⊢
        omega
      · have hkeep : (onRow σ'.world.clock row ev).status.claimable = true →
            row.status.claimable = true := by
          intro hc
          cases ev with
          | act pid o r =>
            rcases onRow_claimable _ row o hc with h1 | ⟨rfl, hg⟩ | ⟨-, ho⟩
            · exact h1
            · have hw := (move_won hm (by simp)).2 ⟨j, row, hj, hg⟩
              exact absurd (wins_iff.2 ⟨pid, _, r, rfl, by simp [Op.resets, hid], hw⟩) hre
            · exact absurd (no_batch_retry hR ht hj hmax (hid ▸ ho)) id
          | _ => exact hc
        have hmono : (onRow σ'.world.clock row ev).status.claimable.toNat ≤
            row.status.claimable.toNat := Bool.toNat_le_toNat hkeep
        simp only [Bool.toNat_false]
        omega

theorem batchOnce {c : Cfg} (hr : Reachable (system app) c) (j : Uuid) :
    BatchOnce c.shared j := by
  have h : Remembered c.shared ∧ BatchOnce c.shared j := by
    refine run_inv (I := fun σ => Remembered σ ∧ BatchOnce σ j) ?_ ?_ hr
    · exact ⟨fun _ _ _ h => (by cases h), rfl⟩
    · intro σ ev σ' hI hm _ ht
      exact ⟨hI.1.move hm, hI.2.move hI.1 hm ht⟩
  exact h.2

theorem startsBatch_iff :
    startsBatch j ev = true ↔ ∃ pid u, ev = .act pid (.startHandler j .batch) u := by
  unfold startsBatch
  split
  · rename_i pid i u
    simp only [decide_eq_true_eq]
    constructor
    · rintro rfl
      exact ⟨pid, u, rfl⟩
    · rintro ⟨pid', u', he⟩
      cases he
      rfl
  · rename_i h
    simp only [Bool.false_eq_true, false_iff]
    rintro ⟨pid, u, rfl⟩
    exact h pid j u rfl

theorem batchStarts_nodup {c : Cfg} (hr : Reachable (system app) c) (j : Uuid) :
    ((c.shared.log.filter (startsBatch j)).map Event.pid).Nodup := by
  refine run_inv (I := fun σ => ((σ.log.filter (startsBatch j)).map Event.pid).Nodup) ?_ ?_ hr
  · exact List.nodup_nil
  · intro σ ev σ' hI hm _ ht
    rw [move_log hm, List.filter_cons]
    split
    · rename_i hs
      obtain ⟨pid, u, rfl⟩ := startsBatch_iff.1 hs
      rw [List.map_cons, List.nodup_cons]
      refine ⟨fun hmem => ?_, hI⟩
      obtain ⟨ev', hev, hpid⟩ := List.mem_map.1 hmem
      obtain ⟨hl, hs'⟩ := List.mem_filter.1 hev
      obtain ⟨pid', u', rfl⟩ := startsBatch_iff.1 hs'
      obtain rfl : pid' = pid := hpid
      obtain ⟨-, p, -, hi⟩ := ht
      obtain ⟨consumer, m, rfl, hi⟩ := issues_startHandler hi
      exact hi.2 rfl _ (mem_own.2 hl) j rfl
    · exact hI

end Batch

theorem batch_runs_once (app : App) (c : Cfg) (hr : Reachable (system app) c) (j : Uuid)
    (row : Job) (hj : c.shared.world.jobs.find? j = some row) (hb : row.type = .batch) :
    c.shared.log.countP (wins Op.claims j) ≤ 1 + c.shared.log.countP (wins Op.resets j) ∧
      c.shared.log.countP (startsBatch j) ≤ c.shared.log.countP (wins Op.claims j) := by
  constructor
  · have h := batchOnce hr j
    unfold BatchOnce at h
    rw [hj] at h
    have hle := (h hb).2
    omega
  · refine countP_le_of_pids (batchStarts_nodup hr j) fun ev hev hs => ?_
    obtain ⟨pid, u, rfl⟩ := startsBatch_iff.1 hs
    have hcl := started_claimed hr pid j .batch u hev
    exact ⟨_, hcl, by simp [wins, Op.claims, won], rfl⟩

def batchClaimed : List (Choice Env Proc) := List.flatten
  [[.start (.submitJob 7 1 { type := .batch, payload := .null })], runs 0 5,
    [.start (.workerLoop "w" 1)], runs 1 5, runs 2 5]

theorem batch_runs_once_claimed :
    ∃ c row, Reachable (system defaultApp) c ∧ c.shared.world.jobs.find? 1 = some row ∧
      c.shared.log.countP (startsBatch 1) = 1 ∧
      c.shared.log.countP (wins Op.claims 1) ≤ 1 + c.shared.log.countP (wins Op.resets 1) ∧
      c.shared.log.countP (startsBatch 1) ≤ c.shared.log.countP (wins Op.claims 1) := by
  obtain ⟨c, hc, hl⟩ := reachable_of_replay defaultApp batchClaimed
    (fun c => c.shared.log.countP (startsBatch 1) == 1 &&
      (c.shared.world.jobs.find? 1).any fun row => row.type = .batch) (by decide +kernel)
  rw [Bool.and_eq_true, beq_iff_eq, Option.any_eq_true] at hl
  obtain ⟨h1, row, hj, hb⟩ := hl
  exact ⟨c, row, hc, hj, h1, batch_runs_once defaultApp c hc 1 row hj (by simpa using hb)⟩

/-! ### The retry budget -/

/-- The actions that open a new budget for a job. -/
def Op.begins : Op → Option Uuid
  | .createJob n => some n.id
  | .resetFailedToPending id => some id
  | _ => none

/-- The successful claims of `j` since its creation or its last manual retry. -/
def claimsSince (j : Uuid) : List Ev → Nat
  | [] => 0
  | ev :: l =>
    if wins Op.begins j ev = true then 0 else claimsSince j l + (wins Op.claims j ev).toNat

/-! The row a retry is decided on is the one its process read last. -/

/-- The row read last is `id`'s and has an attempt left after the one that just ended. -/
def Afforded (h : Hist) (id : Uuid) : Prop :=
  ∃ job, lastRead h = some job ∧ job.id = id ∧ (job.attempts : Int) + 1 < job.maxAttempts

def decides (h : Hist) : Op → Prop
  | .retryToPending id => Afforded h id
  | .retryToScheduled id _ => Afforded h id
  | _ => True

theorem lastRead_mem {h : Hist} {job : Job} (hl : lastRead h = some job) :
    ∃ id, (⟨.getJob id none, some job⟩ : Reply Op Op.Res) ∈ h := by
  induction h with
  | nil => cases hl
  | cons x h ih =>
    obtain ⟨o, r⟩ := x
    have hmem : lastRead h = some job →
        ∃ id, (⟨.getJob id none, some job⟩ : Reply Op Op.Res) ∈ ⟨o, r⟩ :: h := by
      intro hl
      obtain ⟨id, hid⟩ := ih hl
      exact ⟨id, List.mem_cons_of_mem _ hid⟩
    cases o with
    | getJob id u =>
      cases u with
      | none =>
        obtain rfl : r = some job := hl
        exact ⟨id, List.mem_cons_self⟩
      | some user => exact hmem hl
    | _ => exact hmem hl

section Decides

variable {app : App}

theorem decides_plain (h : Hist) (o : Op) (ho : o.routine = true) : decides h o := by
  cases o <;> trivial

theorem promoteDue_decides (h : Hist) :
    Emits Valid decides (fun _ _ => True) h (promoteDue app) :=
  promoteDue_of_plain (fun _ o ho => by cases o <;> trivial) h

theorem scheduleRetryOrFail_affords (job : Job) (error : Json) (h : Hist) (hj : HasRead h job) :
    Emits Valid decides (fun _ _ => True) h (scheduleRetryOrFail app job error) := by
  refine (scheduleRetryOrFail_emits job error h).mono (fun g o ho => ?_) fun _ _ _ => trivial
  cases o with
  | retryToPending id =>
    obtain ⟨rfl, rfl, hlt⟩ := ho
    exact ⟨job, hj.1, rfl, hlt⟩
  | retryToScheduled id t =>
    obtain ⟨rfl, ⟨now, rfl⟩, hlt⟩ := ho
    exact ⟨job, (hj.cons (by simp)).1, rfl, hlt⟩
  | _ => trivial

theorem body_decides (app : App) (p : Proc) :
    Emits Valid decides (fun _ _ => True) [] (body app p) := by
  cases p with
  | runOne consumer m =>
    exact Emits.bind (runOne_of_retry decides_plain scheduleRetryOrFail_affords
      (fun _ _ => trivial) ..) fun _ _ _ => trivial
  | ticker fuel =>
    exact Emits.bind (tickerLoop_of_parts decides_plain promoteDue_decides
      (reconcileOrphans_of_listed decides_plain (fun _ _ _ => trivial) (fun _ _ _ _ _ => trivial)
        fun _ _ => trivial)
      (reapStale_of_one decides_plain (fun _ _ _ _ _ _ => trivial)
        (reapOne_of_retry decides_plain scheduleRetryOrFail_affords (fun _ _ _ => trivial)
          (fun _ _ _ _ _ => trivial) fun _ _ => trivial))
      (fun _ _ _ => trivial) ..) fun _ _ _ => trivial
  | promoteDue => exact Emits.bind (promoteDue_decides []) fun _ _ _ => trivial
  | _ =>
    -- no other process retries
    refine (body_emits app _).mono (fun h o ho => ?_) fun _ _ _ => trivial
    cases o <;> trivial

end Decides

/-- A retry that finds the row processing was decided on no fewer attempts than the
row has. -/
def decidedFresh (σ : State) : Ev → Bool
  | .act pid (.retryToPending j) _ => fresh σ pid j
  | .act pid (.retryToScheduled j _) _ => fresh σ pid j
  | _ => true
where
  fresh (σ : State) (pid : Nat) (j : Uuid) : Bool := (σ.world.jobs.find? j).all fun row =>
    row.status != .processing ||
      (lastRead (own pid σ.log)).all fun job => decide (row.attempts ≤ job.attempts)

/-- Executions charged to a row: those that have ended and the one that has not. A
cancelled execution ends without being counted in `attempts`. -/
def Job.charged (r : Job) : Nat :=
  r.attempts + (decide (r.status = .processing) || decide (r.status = .cancelled)).toNat

/-- `attempts` is within the limit, and below it until the row is done. -/
def Job.within (r : Job) : Prop :=
  (r.attempts : Int) ≤ r.maxAttempts ∧
    (r.status ≠ .completed → r.status ≠ .failed → (r.attempts : Int) < r.maxAttempts)

theorem onRow_within (now : Time) (row : Job) (o : Op) (h1 : 1 ≤ row.maxAttempts)
    (hw : row.within)
    (hroom : (o = .retryToPending row.id ∨ ∃ t, o = .retryToScheduled row.id t) →
      row.status = .processing → (row.attempts : Int) + 1 < row.maxAttempts) :
    (o.onRow now row).within := by
  obtain ⟨hle, hlt⟩ := hw
  cases o <;> simp only [Op.onRow] <;> (try split) <;> try exact ⟨hle, hlt⟩
  case retryToPending h =>
    have := hroom (.inl (by rw [h.1])) h.2
    exact ⟨by push_cast; omega, fun _ _ => by push_cast; omega⟩
  case retryToScheduled h =>
    have := hroom (.inr ⟨_, by rw [h.1]⟩) h.2
    exact ⟨by push_cast; omega, fun _ _ => by push_cast; omega⟩
  case completeJob h =>
    have := hlt (by simp [h.2]) (by simp [h.2])
    exact ⟨by push_cast; omega, fun hn _ => absurd rfl hn⟩
  case failJob h =>
    have := hlt (by simp [h.2]) (by simp [h.2])
    exact ⟨by push_cast; omega, fun _ hn => absurd rfl hn⟩
  case resetFailedToPending h => exact ⟨by push_cast; omega, fun _ _ => by push_cast; omega⟩
  case claimJob h =>
    exact ⟨hle, fun _ _ => hlt (fun hs => by simp [hs, JobStatus.claimable] at h)
      fun hs => by simp [hs, JobStatus.claimable] at h⟩
  case cancelPendingOrScheduled h =>
    exact ⟨hle, fun _ _ => hlt (fun hs => by simp [hs, JobStatus.claimable] at h)
      fun hs => by simp [hs, JobStatus.claimable] at h⟩
  case cancelJob h => exact ⟨hle, fun _ _ => hlt (by simp [h.2]) (by simp [h.2])⟩
  case promoteScheduledToPending h =>
    exact ⟨hle, fun _ _ => hlt (by simp [h.2]) (by simp [h.2])⟩

theorem onRow_charged (now : Time) (row : Job) (o : Op)
    (hr : ¬ (o = .resetFailedToPending row.id ∧ o.guard row = true)) :
    row.charged ≤ (o.onRow now row).charged := by
  obtain ⟨id, _, _, _, status, _⟩ := row
  cases o <;> simp only [Op.onRow] <;> (try split) <;> try exact Nat.le_refl _
  all_goals simp_all [Job.charged, Op.guard, JobStatus.claimable]
  all_goals cases status <;> simp_all

theorem Job.charged_le {r : Job} (h : r.within) : (r.charged : Int) ≤ r.maxAttempts := by
  obtain ⟨hle, hlt⟩ := h
  unfold Job.charged
  by_cases hp : r.status = .processing
  · have := hlt (by simp [hp]) (by simp [hp])
    simp only [hp]
    push_cast
    simp
    omega
  · by_cases hc : r.status = .cancelled
    · have := hlt (by simp [hc]) (by simp [hc])
      simp only [hc]
      push_cast
      simp
      omega
    · simpa [hp, hc] using hle

section Budget

variable {app : App} {σ σ' : State} {ev : Ev} {j : Uuid}

/-- The row of `j` is within its limit and charged with every claim. -/
def Budgeted (σ : State) (j : Uuid) : Prop :=
  ∀ row, σ.world.jobs.find? j = some row → 1 ≤ row.maxAttempts →
    row.within ∧ claimsSince j σ.log ≤ row.charged

theorem room_of_fresh {pid : Nat} {o : Op} {r : o.Res} {row : Job} (hR : Remembered σ)
    (hok : decidedFresh σ (.act pid o r) = true) (hd : decides (own pid σ.log) o)
    (hj : σ.world.jobs.find? j = some row)
    (ho : o = .retryToPending j ∨ ∃ t, o = .retryToScheduled j t)
    (hs : row.status = .processing) : (row.attempts : Int) + 1 < row.maxAttempts := by
  have hfresh : decidedFresh.fresh σ pid j = true := by
    rcases ho with rfl | ⟨t, rfl⟩ <;> exact hok
  obtain ⟨job, hl, hid, hlt⟩ : Afforded (own pid σ.log) j := by
    rcases ho with rfl | ⟨t, rfl⟩ <;> exact hd
  have hle : row.attempts ≤ job.attempts := by
    simpa [decidedFresh.fresh, hj, hs, hl] using hfresh
  obtain ⟨i, hread⟩ := lastRead_mem hl
  obtain ⟨row', hf, hx⟩ := hR _ _ _ (mem_own.1 hread) job (by simp [shows])
  rw [hid, hj, Option.some.injEq] at hf
  have hmax : row'.maxAttempts = job.maxAttempts := congrArg (fun k => k.2.2.1) hx
  rw [← hf] at hmax
  omega

theorem Budgeted.move (h : Budgeted σ j) (hm : Move (system app) σ ev σ')
    (hroom : ∀ pid o r row, ev = .act pid o r → σ.world.jobs.find? j = some row →
      (o = .retryToPending j ∨ ∃ t, o = .retryToScheduled j t) → row.status = .processing →
        (row.attempts : Int) + 1 < row.maxAttempts) : Budgeted σ' j := by
  intro row' hj' hmax
  rw [move_log hm]
  rcases move_row hm hj' with ⟨row, hj, rfl⟩ | ⟨pid, n, rfl, hn, rfl, -⟩
  · have hid : row.id = j := Table.find?_key hj
    have hfix : (onRow σ'.world.clock row ev).maxAttempts = row.maxAttempts := by
      cases ev with
      | act pid o r => exact congrArg (fun k => k.2.2.1) (onRow_fixed _ _ _)
      | _ => rfl
    rw [hfix] at hmax
    obtain ⟨hw, hc⟩ := h row hj hmax
    constructor
    · cases ev with
      | act pid o r =>
        exact onRow_within _ _ _ hmax hw fun ho hs => hroom pid o r row rfl hj (hid ▸ ho) hs
      | _ => exact hw
    · unfold claimsSince
      split
      · exact Nat.zero_le _
      · rename_i hb
        by_cases hcl : wins Op.claims j ev = true
        · obtain ⟨row', hf, hclaim, hrow⟩ := claim_won hm hcl
          rw [hj, Option.some.injEq] at hf
          subst hf
          have hnot : row.charged = row.attempts := by
            unfold Job.charged
            cases hs : row.status <;> simp_all [JobStatus.claimable]
          have hone : (onRow σ'.world.clock row ev).charged = row.attempts + 1 := by
            rw [hrow]
            simp [Job.charged]
          rw [hcl, hone]
          simp only [Bool.toNat_true]
          omega
        · rw [Bool.not_eq_true] at hcl
          rw [hcl]
          refine hc.trans ?_
          cases ev with
          | act pid o r =>
            refine onRow_charged _ _ _ fun hg => hb ?_
            obtain ⟨rfl, hg⟩ := hg
            have hwon := (move_won hm (by simp)).2 ⟨j, row, hj, hg⟩
            exact wins_iff.2 ⟨pid, _, r, rfl, by simp [Op.begins, hid], hwon⟩
          | _ => exact Nat.le_refl _
  · -- a new row starts with a fresh budget
    change 1 ≤ n.maxAttempts at hmax
    have hb : wins Op.begins j (.act pid (.createJob n) true) = true := by
      simp [wins, Op.begins, hn, won]
    refine ⟨⟨?_, fun _ _ => ?_⟩, ?_⟩
    · change ((0 : Nat) : Int) ≤ n.maxAttempts
      omega
    · change ((0 : Nat) : Int) < n.maxAttempts
      omega
    · rw [claimsSince, if_pos hb]
      exact Nat.zero_le _

theorem budgeted {c : Cfg}
    (hr : Run (system app) (fun σ ev => decidedFresh σ ev = true) c) (j : Uuid) :
    Budgeted c.shared j := by
  have h : Remembered c.shared ∧ Budgeted c.shared j := by
    refine Run.inv (I := fun σ : State => Remembered σ ∧ Budgeted σ j) (P := fun _ => decides)
      (Q := fun _ _ _ => True) (fun _ _ _ _ _ he => exec_valid he) (body_decides app) ?_ ?_ hr
    · exact ⟨fun _ _ _ h => (by cases h), fun _ h => (by cases h)⟩
    · rintro σ ev σ' ⟨hR, hB⟩ hm hok ht
      refine ⟨hR.move hm, hB.move hm ?_⟩
      rintro pid o r row rfl hj ho hs
      obtain ⟨-, p, -, hd⟩ := ht
      exact room_of_fresh hR (hok rfl) hd hj ho hs
  exact h.2

end Budget

def WithinBudget (σ : State) : Prop :=
  ∀ j row, σ.world.jobs.find? j = some row → 1 ≤ row.maxAttempts →
    (row.attempts : Int) ≤ row.maxAttempts ∧
    (row.status = .pending ∨ row.status = .scheduled ∨ row.status = .processing →
      (row.attempts : Int) < row.maxAttempts) ∧
    (claimsSince j σ.log : Int) ≤ row.maxAttempts

theorem withinBudget_of_fresh (app : App) (c : Cfg)
    (hr : Run (system app) (fun σ ev => decidedFresh σ ev = true) c) : WithinBudget c.shared := by
  intro j row hj hmax
  obtain ⟨hw, hc⟩ := budgeted hr j row hj hmax
  refine ⟨hw.1, fun hs => hw.2 ?_ ?_, ?_⟩
  · rintro h
    simp [h] at hs
  · rintro h
    simp [h] at hs
  · have := Job.charged_le hw
    omega

def twoAttempts : App :=
  { defaultApp with settings := { maxAttempts := 2, checkTimeoutInvariant := Settings.default_timeouts } }

/-- The handler of task 2 outlives its lease: the reaper puts job 1 back, task 5
claims it, and then the first handler fails. -/
def staleRetry : List (Choice Env Proc) := List.flatten
  [[.start (.submitJob 7 1 { type := .email, payload := .null })], runs 0 5,
    [.start (.workerLoop "a" 1)], runs 1 5, runs 2 4,
    [.start (.ticker 2), .run 3 { elapsed := 61000000 }], runs 3 11,
    [.start (.workerLoop "b" 1)], runs 4 5, runs 5 2,
    [.run 2 {}, .run 2 { finish := .error ("RuntimeError", "boom") }, .run 2 {}]]

theorem budget_exceeded :
    ¬ ∀ c, Reachable (system twoAttempts) c → WithinBudget c.shared := by
  intro h
  obtain ⟨c, hc, hl⟩ := reachable_of_replay twoAttempts staleRetry
    (fun c => (c.shared.world.jobs.find? 1).any fun row =>
      row.status = .pending ∧ row.attempts = 2 ∧ row.maxAttempts = 2) (by decide +kernel)
  rw [Option.any_eq_true] at hl
  obtain ⟨row, hj, hrow⟩ := hl
  obtain ⟨hs, ha, hm⟩ := of_decide_eq_true hrow
  have hlt := (h c hc 1 row hj (by omega)).2.1 (.inl hs)
  omega

def firstRetry : List (Choice Env Proc) := List.flatten
  [[.start (.submitJob 7 1 { type := .email, payload := .null })], runs 0 5,
    [.start (.workerLoop "a" 1)], runs 1 5, runs 2 5,
    [.run 2 { finish := .error ("RuntimeError", "boom") }], runs 2 3]

theorem withinBudget_firstRetry :
    ∃ c, Run (system twoAttempts) (fun σ ev => decidedFresh σ ev = true) c ∧
      ((c.shared.world.jobs.find? 1).any fun row => row.attempts = 1) = true ∧
      WithinBudget c.shared := by
  obtain ⟨c, hc, hl⟩ := run_of_replay twoAttempts (fun σ ev => decidedFresh σ ev = true)
    decidedFresh (fun _ _ h => h) firstRetry
    (fun c => (c.shared.world.jobs.find? 1).any fun row => row.attempts = 1) (by decide +kernel)
  exact ⟨c, hc, hl, withinBudget_of_fresh twoAttempts c hc⟩

end JobProcessor
