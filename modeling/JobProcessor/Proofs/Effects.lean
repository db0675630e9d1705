import JobProcessor.Model.System

/-! What one atomic action can do, said once: to a row, to a stream entry, to the
delayed set, and what its reply tells. Later proofs use these lemmas and never
unfold `exec`. -/

namespace JobProcessor

open Interleave Store

namespace Op

/-- The effect of an action on an existing row, at instant `now`. -/
def onRow (now : Time) (r : Job) : Op → Job
  | .markSynced id => if r.id = id then { r with isSyncedToRedis := true } else r
  | .claimJob id =>
    if r.id = id ∧ r.status.claimable = true then
      { r with status := .processing, startedAt := some now }
    else r
  | .completeJob id result progress =>
    if r.id = id ∧ r.status = .processing then
      { r with
        status := .completed
        result := some result
        completedAt := some now
        attempts := r.attempts + 1
        progress := if progress.isSome then progress else r.progress }
    else r
  | .failJob id error =>
    if r.id = id ∧ r.status = .processing then
      { r with
        status := .failed
        error := some error
        completedAt := some now
        attempts := r.attempts + 1 }
    else r
  | .retryToPending id =>
    if r.id = id ∧ r.status = .processing then
      { r with
        status := .pending
        attempts := r.attempts + 1
        isSyncedToRedis := false
        startedAt := none }
    else r
  | .retryToScheduled id scheduledAt =>
    if r.id = id ∧ r.status = .processing then
      { r with
        status := .scheduled
        scheduledAt := some scheduledAt
        attempts := r.attempts + 1
        isSyncedToRedis := false
        startedAt := none }
    else r
  | .resetFailedToPending id =>
    if r.id = id ∧ r.status = .failed ∧ r.cancelRequestedAt = none then
      { r with
        status := .pending
        attempts := 0
        error := none
        startedAt := none
        completedAt := none
        isSyncedToRedis := false }
    else r
  | .promoteScheduledToPending ids =>
    if r.id ∈ ids ∧ r.status = .scheduled then { r with status := .pending } else r
  | .initProgress id =>
    if r.id = id ∧ r.status = .processing then { r with progress := some 0 } else r
  | .cancelPendingOrScheduled id =>
    if r.id = id ∧ r.status.claimable = true then
      { r with status := .cancelled, completedAt := some now }
    else r
  | .requestCancel id =>
    if r.id = id ∧ r.status = .processing then { r with cancelRequestedAt := some now } else r
  | .cancelJob id summary =>
    if r.id = id ∧ r.status = .processing then
      { r with status := .cancelled, result := some summary, completedAt := some now }
    else r
  | .writeProgress id pct =>
    if r.id = id ∧ r.status = .processing then { r with progress := some pct } else r
  | _ => r

/-- The job a settlement, a transition out of `processing`, is about. -/
def settles : Op → Option Uuid
  | .completeJob id _ _ => some id
  | .failJob id _ => some id
  | .retryToPending id => some id
  | .retryToScheduled id _ => some id
  | .cancelJob id _ => some id
  | _ => none

def handsOff : Op → Option Uuid
  | .xadd _ id => some id
  | .zadd id _ => some id
  | _ => none

/-- The job whose sync flag an action may set to `FALSE`. -/
def unsyncs : Op → Option Uuid
  | .createJob n => some n.id
  | .retryToPending id => some id
  | .retryToScheduled id _ => some id
  | .resetFailedToPending id => some id
  | _ => none

/-- The ids whose row or score an action may change; an insert changes none. -/
def writes : Op → List Uuid
  | .markSynced id => [id]
  | .claimJob id => [id]
  | .completeJob id _ _ => [id]
  | .failJob id _ => [id]
  | .retryToPending id => [id]
  | .retryToScheduled id _ => [id]
  | .resetFailedToPending id => [id]
  | .promoteScheduledToPending ids => ids
  | .initProgress id => [id]
  | .cancelPendingOrScheduled id => [id]
  | .requestCancel id => [id]
  | .cancelJob id _ => [id]
  | .writeProgress id _ => [id]
  | .zadd id _ => [id]
  | .zrem ids => ids
  | _ => []

def toRedis : Op → Bool
  | .xadd _ _ => true
  | .xreadgroup _ _ _ => true
  | .xautoclaim _ _ _ _ => true
  | .xack _ _ => true
  | .zadd _ _ => true
  | .zrem _ => true
  | _ => false

def target : Op → Option Uuid
  | .claimJob id => some id
  | .completeJob id _ _ => some id
  | .failJob id _ => some id
  | .retryToPending id => some id
  | .retryToScheduled id _ => some id
  | .resetFailedToPending id => some id
  | .cancelPendingOrScheduled id => some id
  | .requestCancel id => some id
  | .cancelJob id _ => some id
  | _ => none

end Op

/-- The reply `rowcount == 1` of a guarded statement; `false` for other actions. -/
def won : (o : Op) → o.Res → Bool
  | .createJob _, r => r
  | .claimJob _, r => r
  | .completeJob _ _ _, r => r
  | .failJob _ _, r => r
  | .retryToPending _, r => r
  | .retryToScheduled _ _, r => r
  | .resetFailedToPending _, r => r
  | .cancelPendingOrScheduled _, r => r
  | .requestCancel _, r => r
  | .cancelJob _ _, r => r
  | _, _ => false

variable {n : Nat} {o : Op} {e : Env} {w w' : World} {r : o.Res}

/-- The columns no statement writes after the insert. -/
def Job.fixed (r : Job) :
    Option Uuid × JobType × Int × Option String × Option String × Json × JobPriority :=
  (r.userId, r.type, r.maxAttempts, r.idempotencyKey, r.idempotencyHash, r.payload, r.priority)

theorem onRow_fixed (now : Time) (row : Job) (o : Op) :
    (o.onRow now row).fixed = row.fixed := by
  cases o <;> simp only [Op.onRow] <;> (try split) <;> rfl

theorem onRow_key (now : Time) (row : Job) (o : Op) :
    (o.onRow now row).id = row.id ∧ (o.onRow now row).createdAt = row.createdAt := by
  constructor <;> cases o <;> simp only [Op.onRow] <;> (try split) <;> rfl

theorem onRow_scheduledAt (now : Time) (row : Job) (o : Op) :
    (o.onRow now row).scheduledAt = row.scheduledAt ∨
      row.status = .processing ∧ ∃ t, o = .retryToScheduled row.id t := by
  cases o with
  | retryToScheduled id t =>
    by_cases h : row.id = id ∧ row.status = .processing
    · exact .inr ⟨h.2, t, by rw [h.1]⟩
    · exact .inl (by rw [Op.onRow, if_neg h])
  | _ => left; simp only [Op.onRow] <;> (try split) <;> rfl

theorem onRow_of_not_mem {o : Op} {row : Job} (now : Time) (h : row.id ∉ o.writes) :
    o.onRow now row = row := by
  cases o <;> simp only [Op.writes, List.mem_singleton] at h <;> simp [Op.onRow, h]

theorem exec_clock (h : exec n o e w = some (w', r)) : w'.clock = w.clock + e.elapsed := by
  cases o <;> simp only [exec] at h <;> (try split at h) <;> cases h <;> rfl

theorem exec_later (h : exec n o e w = some (w', r)) : w.clock ≤ w'.clock := by
  rw [exec_clock h]
  exact Int.le_add_of_nonneg_right (Int.natCast_nonneg _)

theorem exec_still (he : e.elapsed = 0) (hx : exec n o e w = some (w', r)) :
    w'.clock = w.clock := by
  rw [exec_clock hx, he]
  exact Int.add_zero _

theorem exec_row (h : exec n o e w = some (w', r)) (hc : ∀ m, o ≠ .createJob m) (j : Uuid) :
    w'.jobs.find? j = (w.jobs.find? j).map fun row => o.onRow w'.clock row := by
  have key : ∀ {row}, w.jobs.find? j = some row → row.id = j := Table.find?_key
  cases o with
  | createJob m => exact absurd rfl (hc m)
  | semAcquire c =>
    simp only [exec] at h
    split at h <;> cases h
    cases hj : w.jobs.find? j <;> simp [Op.onRow]
  | _ =>
    simp only [exec, Option.some.injEq, Prod.mk.injEq] at h
    obtain ⟨rfl, -⟩ := h
    cases hj : w.jobs.find? j with
    | none =>
      simp [Repository.markSynced, Repository.claimJob, Repository.completeJob,
        Repository.failJob, Repository.retryToPending, Repository.retryToScheduled,
        Repository.resetFailedToPending, Repository.find?_promote, Repository.initProgress,
        Repository.cancelPendingOrScheduled, Repository.requestCancel, Repository.cancelJob,
        Repository.writeProgress, Repository.find?_updateWhere, hj]
    | some row =>
      have hid := key hj
      simp [Repository.markSynced, Repository.claimJob, Repository.completeJob,
        Repository.failJob, Repository.retryToPending, Repository.retryToScheduled,
        Repository.resetFailedToPending, Repository.find?_promote, Repository.initProgress,
        Repository.cancelPendingOrScheduled, Repository.requestCancel, Repository.cancelJob,
        Repository.writeProgress, Repository.find?_updateWhere, hj, Op.onRow, hid]

theorem exec_create {m : Repository.NewJob} {b : Bool}
    (h : exec n (.createJob m) e w = some (w', b)) :
    if b = true then w.jobs.find? m.id = none ∧
        (∀ j, w'.jobs.find? j = if m.id = j then some (m.row w'.clock) else w.jobs.find? j) ∧
        w'.jobs.rows = w.jobs.rows ++ [m.row w'.clock]
      else w'.jobs = w.jobs ∧ ¬ w.jobs.Fits (m.row w'.clock) := by
  simp only [exec] at h
  split at h
  · rename_i t ht
    cases h
    obtain ⟨h1, h2⟩ := Table.find?_insert ht
    exact ⟨h1, h2, Table.rows_insert ht⟩
  · rename_i ht
    cases h
    exact ⟨rfl, Table.insert?_eq_none.1 ht⟩

def Op.guard (r : Job) : Op → Bool
  | .claimJob id => r.id = id && r.status.claimable
  | .completeJob id _ _ => r.id = id && r.status = .processing
  | .failJob id _ => r.id = id && r.status = .processing
  | .retryToPending id => r.id = id && r.status = .processing
  | .retryToScheduled id _ => r.id = id && r.status = .processing
  | .resetFailedToPending id =>
    r.id = id && r.status = .failed && r.cancelRequestedAt.isNone
  | .cancelPendingOrScheduled id => r.id = id && r.status.claimable
  | .requestCancel id => r.id = id && r.status = .processing
  | .cancelJob id _ => r.id = id && r.status = .processing
  | _ => false

theorem target_of_guard {row : Job} (hg : o.guard row = true) : o.target = some row.id := by
  cases o <;> simp only [Op.guard, Bool.and_eq_true, decide_eq_true_eq, Bool.false_eq_true] at hg
  case resetFailedToPending => exact congrArg some hg.1.1.symm
  all_goals exact congrArg some hg.1.symm

/-- A guarded statement reports a hit exactly when its guard holds of a row. -/
theorem exec_won (h : exec n o e w = some (w', r)) (hc : ∀ m, o ≠ .createJob m) :
    won o r = true ↔ ∃ j row, w.jobs.find? j = some row ∧ o.guard row = true := by
  have key : ∀ {j row}, w.jobs.find? j = some row → row.id = j := Table.find?_key
  have aux : ∀ (id : Uuid) (g : Job → Bool),
      (∃ row, w.jobs.find? id = some row ∧ g row = true) ↔
        ∃ j row, w.jobs.find? j = some row ∧ (decide (row.id = id) && g row) = true := by
    intro id g
    constructor
    · rintro ⟨row, hr, hg⟩
      exact ⟨id, row, hr, by simp [key hr, hg]⟩
    · rintro ⟨j, row, hr, hg⟩
      simp only [Bool.and_eq_true, decide_eq_true_eq] at hg
      exact ⟨row, by rw [← hg.1, key hr]; exact hr, hg.2⟩
  cases o with
  | createJob m => exact absurd rfl (hc m)
  | semAcquire c => simp [won, Op.guard]
  | resetFailedToPending id =>
    simp only [exec, Option.some.injEq, Prod.mk.injEq] at h
    obtain ⟨-, rfl⟩ := h
    simp only [won, Op.guard, Bool.and_assoc, Repository.resetFailedToPending,
      Repository.updateWhere_won]
    exact aux id _
  | claimJob id | completeJob id | failJob id | retryToPending id | retryToScheduled id
  | cancelPendingOrScheduled id | requestCancel id | cancelJob id =>
    simp only [exec, Option.some.injEq, Prod.mk.injEq] at h
    obtain ⟨-, rfl⟩ := h
    simp only [won, Op.guard, Repository.claimJob, Repository.completeJob, Repository.failJob,
      Repository.retryToPending, Repository.retryToScheduled,
      Repository.cancelPendingOrScheduled, Repository.requestCancel, Repository.cancelJob,
      Repository.updateWhere_won]
    exact aux id _
  | _ => simp [won, Op.guard]

theorem exec_target {j : Uuid} (h : exec n o e w = some (w', r)) (ho : o.target = some j) :
    won o r = (w.jobs.find? j).any o.guard := by
  have hc : ∀ m, o ≠ .createJob m := by
    rintro m rfl
    cases ho
  rw [Bool.eq_iff_iff, exec_won h hc, Option.any_eq_true]
  constructor
  · rintro ⟨i, row, hf, hg⟩
    have hid : row.id = i := Table.find?_key hf
    have hij : row.id = j := Option.some.inj ((target_of_guard hg).symm.trans ho)
    rw [← hid, hij] at hf
    exact ⟨row, hf, hg⟩
  · rintro ⟨row, hf, hg⟩
    exact ⟨j, row, hf, hg⟩

/-- Only `sem.acquire` blocks. -/
theorem exec_total (ho : ∀ c, o ≠ .semAcquire c) : ∃ w' r, exec n o e w = some (w', r) := by
  cases o with
  | semAcquire c => exact absurd rfl (ho c)
  | createJob m => simp only [exec]; split <;> exact ⟨_, _, rfl⟩
  | _ => exact ⟨_, _, rfl⟩

theorem exec_row_other {j : Uuid} (h : exec n o e w = some (w', r)) (hc : ∀ m, o ≠ .createJob m)
    (hj : j ∉ o.writes) : w'.jobs.find? j = w.jobs.find? j := by
  rw [exec_row h hc]
  cases hf : w.jobs.find? j with
  | none => rfl
  | some row => rw [Option.map_some, onRow_of_not_mem _ (Table.find?_key hf ▸ hj)]

theorem exec_streams (h : exec n o e w = some (w', r)) (h1 : ∀ s id, o ≠ .xadd s id)
    (h2 : ∀ c ss m, o ≠ .xreadgroup c ss m) (h3 : ∀ s i a m, o ≠ .xautoclaim s i a m)
    (h4 : ∀ s i, o ≠ .xack s i) : w'.streams = w.streams := by
  cases o with
  | xadd s id => exact absurd rfl (h1 s id)
  | xreadgroup c ss m => exact absurd rfl (h2 c ss m)
  | xautoclaim s i a m => exact absurd rfl (h3 s i a m)
  | xack s i => exact absurd rfl (h4 s i)
  | _ => simp only [exec] at h; (try split at h) <;> cases h <;> rfl

theorem exec_delayed (h : exec n o e w = some (w', r)) (h1 : ∀ id s, o ≠ .zadd id s)
    (h2 : ∀ ids, o ≠ .zrem ids) : w'.delayed = w.delayed := by
  cases o with
  | zadd id s => exact absurd rfl (h1 id s)
  | zrem ids => exact absurd rfl (h2 ids)
  | _ => simp only [exec] at h; (try split at h) <;> cases h <;> rfl

theorem exec_redis (h : exec n o e w = some (w', r)) (ho : o.toRedis = false) :
    w'.streams = w.streams ∧ w'.delayed = w.delayed := by
  cases o <;> simp only [Op.toRedis, reduceCtorEq] at ho <;>
    exact ⟨exec_streams h (by simp) (by simp) (by simp) (by simp), exec_delayed h (by simp) (by simp)⟩

theorem exec_score (h : exec n o e w = some (w', r)) (j : Uuid) :
    w'.delayed.score? j =
      match o with
      | .zadd id s => if j = id then some s else w.delayed.score? j
      | .zrem ids => if j ∈ ids then none else w.delayed.score? j
      | _ => w.delayed.score? j := by
  cases o with
  | zadd id s => simp only [exec] at h; cases h; exact ZSet.score?_zadd
  | zrem ids => simp only [exec] at h; cases h; exact ZSet.score?_zrem ids
  | _ => rw [exec_delayed h (by simp) (by simp)]

theorem exec_row_some {j : Uuid} {row : Job} (h : exec n o e w = some (w', r))
    (hj : w.jobs.find? j = some row) : w'.jobs.find? j = some (o.onRow w'.clock row) := by
  by_cases hc : ∃ m, o = .createJob m
  · obtain ⟨m, rfl⟩ := hc
    have hcr := exec_create h
    split at hcr
    · obtain ⟨hnone, hfind, -⟩ := hcr
      have hne : ¬ m.id = j := by
        rintro rfl
        rw [hnone] at hj
        cases hj
      rw [hfind, if_neg hne, hj]
      rfl
    · rw [hcr.1, hj]
      rfl
  · rw [exec_row h (fun m hm => hc ⟨m, hm⟩), hj]
    rfl

theorem exec_row_none {j : Uuid} (h : exec n o e w = some (w', r)) (hj : w.jobs.find? j = none) :
    w'.jobs.find? j = none ∨
      ∃ m, o = .createJob m ∧ won o r = true ∧ m.id = j ∧
        w'.jobs.find? j = some (m.row w'.clock) := by
  by_cases hc : ∃ m, o = .createJob m
  · obtain ⟨m, rfl⟩ := hc
    have hcr := exec_create h
    split at hcr
    · rename_i hr
      obtain ⟨-, hfind, -⟩ := hcr
      by_cases hm : m.id = j
      · exact .inr ⟨m, rfl, hr, hm, by rw [hfind, if_pos hm]⟩
      · left
        rw [hfind, if_neg hm, hj]
    · left
      rw [hcr.1, hj]
  · left
    rw [exec_row h (fun m hm => hc ⟨m, hm⟩), hj]
    rfl

/-- What replies tell for certain. -/
def Valid : (o : Op) → o.Res → Prop
  | .getJob id u, r => ∀ job ∈ r, job.id = id ∧ ∀ v ∈ u, job.userId = some v
  | .getByIdempotencyKey k u, r => ∀ job ∈ r, job.uqUserIdempotencyKey = some (u, k)
  | .listUnsynced _ _, r => ∀ job ∈ r, job.status.claimable = true ∧ job.isSyncedToRedis = false
  | _, _ => True

theorem exec_valid (h : exec n o e w = some (w', r)) : Valid o r := by
  cases o with
  | getJob id u =>
    simp only [exec] at h
    cases h
    intro job hj
    obtain ⟨h1, h2⟩ := Repository.getJob_some hj
    exact ⟨Table.find?_key h1, h2⟩
  | getByIdempotencyKey k u =>
    simp only [exec] at h
    cases h
    intro job hj
    exact (Repository.getByIdempotencyKey_some hj).2
  | listUnsynced t m =>
    simp only [exec] at h
    cases h
    intro job hj
    have := List.mem_of_mem_take hj
    simp only [List.mem_insertionSort, List.mem_filter, Bool.and_eq_true, Bool.not_eq_true',
      decide_eq_true_eq] at this
    exact ⟨this.2.1.2, this.2.1.1⟩
  | _ => trivial

/-! ### The same for events -/

section Events

variable {app : App} {σ σ' : State} {ev : Ev} {j : Uuid}

def onRow (now : Time) (row : Job) : Ev → Job
  | .act _ o _ => o.onRow now row
  | _ => row

theorem move_exec {pid : Nat} {o : Op} {r : o.Res} (h : Move (system app) σ (.act pid o r) σ') :
    ∃ e, exec app.settings.workerConcurrency o e σ.world = some (σ'.world, r) := by
  cases h with
  | act _ _ e he => exact ⟨e, he⟩

theorem move_log (h : Move (system app) σ ev σ') : σ'.log = ev :: σ.log := by
  cases h <;> rfl

theorem move_won {pid : Nat} {o : Op} {r : o.Res} (h : Move (system app) σ (.act pid o r) σ')
    (hc : ∀ m, o ≠ .createJob m) :
    won o r = true ↔ ∃ j row, σ.world.jobs.find? j = some row ∧ o.guard row = true := by
  cases h with
  | act _ _ e he => exact exec_won he hc

/-- A guarded statement that is won has hit the row that it names. -/
theorem move_hit {pid : Nat} {o : Op} {r : o.Res} {j : Uuid}
    (h : Move (system app) σ (.act pid o r) σ') (ho : o.target = some j) (hr : won o r = true) :
    ∃ row, σ.world.jobs.find? j = some row ∧ o.guard row = true := by
  cases h with
  | act _ _ e he =>
    rw [exec_target he ho, Option.any_eq_true] at hr
    exact hr

theorem move_streams {pid : Nat} {o : Op} {r : o.Res} (h : Move (system app) σ (.act pid o r) σ')
    (h1 : ∀ s id, o ≠ .xadd s id) (h2 : ∀ c ss m, o ≠ .xreadgroup c ss m)
    (h3 : ∀ s i a m, o ≠ .xautoclaim s i a m) (h4 : ∀ s i, o ≠ .xack s i) :
    σ'.world.streams = σ.world.streams := by
  cases h with
  | act _ _ e he => exact exec_streams he h1 h2 h3 h4

theorem move_delayed {pid : Nat} {o : Op} {r : o.Res} (h : Move (system app) σ (.act pid o r) σ')
    (h1 : ∀ id s, o ≠ .zadd id s) (h2 : ∀ ids, o ≠ .zrem ids) :
    σ'.world.delayed = σ.world.delayed := by
  cases h with
  | act _ _ e he => exact exec_delayed he h1 h2

theorem move_created {pid : Nat} {n : Repository.NewJob}
    (h : Move (system app) σ (.act pid (.createJob n) true) σ') :
    σ.world.jobs.find? n.id = none ∧
      (∀ j, σ'.world.jobs.find? j =
        if n.id = j then some (n.row σ'.world.clock) else σ.world.jobs.find? j) ∧
      σ'.world.jobs.rows = σ.world.jobs.rows ++ [n.row σ'.world.clock] := by
  cases h with
  | act _ _ e he => exact exec_create (n := app.settings.workerConcurrency) he

theorem move_refused {pid : Nat} {n : Repository.NewJob}
    (h : Move (system app) σ (.act pid (.createJob n) false) σ') :
    σ'.world.jobs = σ.world.jobs ∧ ¬ σ.world.jobs.Fits (n.row σ'.world.clock) := by
  cases h with
  | act _ _ e he => exact exec_create (n := app.settings.workerConcurrency) he

theorem move_clock (h : Move (system app) σ ev σ') : σ.world.clock ≤ σ'.world.clock := by
  cases h with
  | act _ _ e he => exact exec_later (n := app.settings.workerConcurrency) he
  | _ => exact Int.le_refl _

theorem move_row_some {row : Job} (h : Move (system app) σ ev σ')
    (hj : σ.world.jobs.find? j = some row) :
    σ'.world.jobs.find? j = some (onRow σ'.world.clock row ev) := by
  cases h with
  | act pid o e he => exact exec_row_some he hj
  | _ => exact hj

theorem move_row_none (h : Move (system app) σ ev σ') (hj : σ.world.jobs.find? j = none) :
    σ'.world.jobs.find? j = none ∨
      ∃ pid m, ev = .act pid (.createJob m) true ∧ m.id = j ∧
        σ'.world.jobs.find? j = some (m.row σ'.world.clock) := by
  cases h with
  | @act pid o e w r he =>
    rcases exec_row_none he hj with h1 | ⟨m, rfl, hw, h2, h3⟩
    · exact .inl h1
    · change r = true at hw
      exact .inr ⟨pid, m, by rw [hw], h2, h3⟩
  | _ => exact .inl hj

/-- A row after an event: an earlier one that the event may have changed, or a new
one. -/
theorem move_row {row' : Job} (h : Move (system app) σ ev σ')
    (hj : σ'.world.jobs.find? j = some row') :
    (∃ row, σ.world.jobs.find? j = some row ∧ row' = onRow σ'.world.clock row ev) ∨
      ∃ pid m, ev = .act pid (.createJob m) true ∧ m.id = j ∧ row' = m.row σ'.world.clock ∧
        σ.world.jobs.find? j = none := by
  cases hf : σ.world.jobs.find? j with
  | some row =>
    have h1 := move_row_some h hf
    rw [hj, Option.some.injEq] at h1
    exact .inl ⟨row, rfl, h1⟩
  | none =>
    rcases move_row_none h hf with h1 | ⟨pid, m, h1, h2, h3⟩
    · rw [h1] at hj
      cases hj
    · rw [hj, Option.some.injEq] at h3
      exact .inr ⟨pid, m, h1, h2, h3, rfl⟩

end Events

end JobProcessor
