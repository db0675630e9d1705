import JobProcessor.Model.Schema
import JobProcessor.Store.Ordered
import Mathlib.Data.Prod.Lex

/-! `app/repository.py` and the two statements of `app/worker/context.py`: one
function for each SQL statement, each committed on its own. A statement that the
source guards with `WHERE id = … AND …` is an instance of `updateWhere`, and its
`rowcount == 1` is the Boolean returned with the table. -/

namespace JobProcessor.Repository

/-- `UPDATE jobs SET … WHERE id = :id AND guard`, with `rowcount == 1`. -/
def updateWhere (t : Jobs) (id : Uuid) (guard : Job → Bool) (f : Job → Job)
    (hf : ∀ r, (f r).id = r.id ∧ (f r).uqUserIdempotencyKey = r.uqUserIdempotencyKey) :
    Jobs × Bool :=
  (t.update (fun r => decide (r.id = id) && guard r) f hf,
    t.rows.countP (fun r => decide (r.id = id) && guard r) == 1)

/-- What a caller of `create_job` chooses; the id is the fresh one of `Job.__init__`. -/
structure NewJob where
  id : Uuid
  type : JobType
  payload : Json
  status : JobStatus := .pending
  scheduledAt : Option Time := none
  priority : JobPriority := .normal
  maxAttempts : Int := 4
  idempotencyKey : Option String := none
  idempotencyHash : Option String := none
  userId : Option Uuid := none

def NewJob.row (n : NewJob) (now : Time) : Job where
  id := n.id
  userId := n.userId
  type := n.type
  payload := n.payload
  status := n.status
  priority := n.priority
  result := none
  error := none
  attempts := 0
  maxAttempts := n.maxAttempts
  createdAt := now
  startedAt := none
  completedAt := none
  scheduledAt := n.scheduledAt
  isSyncedToRedis := false
  progress := none
  cancelRequestedAt := none
  idempotencyKey := n.idempotencyKey
  idempotencyHash := n.idempotencyHash

/-- The insert of `create_job`; `none` is the `IntegrityError`. -/
def createJob (t : Jobs) (n : NewJob) (now : Time) : Option Jobs := t.insert? (n.row now)

/-- `user_id = None` is the unscoped internal form. -/
def getJob (t : Jobs) (id : Uuid) (userId : Option Uuid) : Option Job :=
  match userId with
  | none => t.find? id
  | some u => (t.find? id).filter fun r => r.userId = some u

structure Filter where
  status : Option JobStatus := none
  jobType : Option JobType := none
  priority : Option JobPriority := none
  userId : Option Uuid := none
  /-- The decoded cursor: rows strictly below it. -/
  before : Option (Time × Uuid) := none

/-- Postgres compares the row values `(created_at, id)` lexicographically. -/
def keyLt (a b : Time × Uuid) : Bool := a.1 < b.1 || (a.1 = b.1 && a.2 < b.2)

def Filter.matches (f : Filter) (r : Job) : Bool :=
  (f.status.all fun s => r.status = s) && (f.jobType.all fun ty => r.type = ty) &&
  (f.priority.all fun p => r.priority = p) && (f.userId.all fun u => r.userId = some u) &&
  (f.before.all fun c => keyLt (r.createdAt, r.id) c)

/-- The statement of `list_jobs`: newest first, one row more than asked for. -/
def listJobs (t : Jobs) (f : Filter) (limit : Nat) : List Job :=
  ((t.rows.filter f.matches).insertionSort
    fun a b => ¬ keyLt (a.createdAt, a.id) (b.createdAt, b.id)).take (limit + 1)

def markSynced (t : Jobs) (id : Uuid) : Jobs × Bool :=
  updateWhere t id (fun _ => true) (fun r => { r with isSyncedToRedis := true })
    fun _ => ⟨rfl, rfl⟩

def claimJob (t : Jobs) (id : Uuid) (now : Time) : Jobs × Bool :=
  updateWhere t id (fun r => r.status.claimable)
    (fun r => { r with status := .processing, startedAt := some now }) fun _ => ⟨rfl, rfl⟩

def completeJob (t : Jobs) (id : Uuid) (result : Json) (progress : Option Int) (now : Time) :
    Jobs × Bool :=
  updateWhere t id (fun r => r.status = .processing)
    (fun r => { r with
      status := .completed
      result := some result
      completedAt := some now
      attempts := r.attempts + 1
      progress := if progress.isSome then progress else r.progress })
    fun _ => ⟨rfl, rfl⟩

def failJob (t : Jobs) (id : Uuid) (error : Json) (now : Time) : Jobs × Bool :=
  updateWhere t id (fun r => r.status = .processing)
    (fun r => { r with
      status := .failed
      error := some error
      completedAt := some now
      attempts := r.attempts + 1 })
    fun _ => ⟨rfl, rfl⟩

def retryToPending (t : Jobs) (id : Uuid) : Jobs × Bool :=
  updateWhere t id (fun r => r.status = .processing)
    (fun r => { r with
      status := .pending
      attempts := r.attempts + 1
      isSyncedToRedis := false
      startedAt := none })
    fun _ => ⟨rfl, rfl⟩

def retryToScheduled (t : Jobs) (id : Uuid) (scheduledAt : Time) : Jobs × Bool :=
  updateWhere t id (fun r => r.status = .processing)
    (fun r => { r with
      status := .scheduled
      scheduledAt := some scheduledAt
      attempts := r.attempts + 1
      isSyncedToRedis := false
      startedAt := none })
    fun _ => ⟨rfl, rfl⟩

def resetFailedToPending (t : Jobs) (id : Uuid) : Jobs × Bool :=
  updateWhere t id (fun r => r.status = .failed && r.cancelRequestedAt.isNone)
    (fun r => { r with
      status := .pending
      attempts := 0
      error := none
      startedAt := none
      completedAt := none
      isSyncedToRedis := false })
    fun _ => ⟨rfl, rfl⟩

/-- The bulk update of the ticker, with the number of rows it hit. -/
def promoteScheduledToPending (t : Jobs) (ids : List Uuid) : Jobs × Nat :=
  (t.update (fun r => decide (r.id ∈ ids) && decide (r.status = .scheduled))
      (fun r => { r with status := .pending }) fun _ => ⟨rfl, rfl⟩,
    t.rows.countP fun r => decide (r.id ∈ ids) && decide (r.status = .scheduled))

def listUnsynced (t : Jobs) (olderThan : Time) (limit : Nat) : List Job :=
  ((t.rows.filter fun r => !r.isSyncedToRedis && r.status.claimable && r.createdAt < olderThan)
    |>.insertionSort fun a b => ¬ keyLt (b.createdAt, b.id) (a.createdAt, a.id)).take limit

def getPromotionInfo (t : Jobs) (ids : List Uuid) : List (Uuid × JobPriority) :=
  (t.rows.filter fun r => r.id ∈ ids).map fun r => (r.id, r.priority)

def initProgress (t : Jobs) (id : Uuid) : Jobs × Bool :=
  updateWhere t id (fun r => r.status = .processing) (fun r => { r with progress := some 0 })
    fun _ => ⟨rfl, rfl⟩

def cancelPendingOrScheduled (t : Jobs) (id : Uuid) (now : Time) : Jobs × Bool :=
  updateWhere t id (fun r => r.status.claimable)
    (fun r => { r with status := .cancelled, completedAt := some now }) fun _ => ⟨rfl, rfl⟩

def requestCancel (t : Jobs) (id : Uuid) (now : Time) : Jobs × Bool :=
  updateWhere t id (fun r => r.status = .processing)
    (fun r => { r with cancelRequestedAt := some now }) fun _ => ⟨rfl, rfl⟩

def cancelJob (t : Jobs) (id : Uuid) (summary : Json) (now : Time) : Jobs × Bool :=
  updateWhere t id (fun r => r.status = .processing)
    (fun r => { r with status := .cancelled, result := some summary, completedAt := some now })
    fun _ => ⟨rfl, rfl⟩

def getByIdempotencyKey (t : Jobs) (key : String) (userId : Uuid) : Option Job :=
  t.rows.find? fun r => r.idempotencyKey = some key && r.userId = some userId

/-- `PgJobContext._write`: `UPDATE … RETURNING cancel_requested_at`. -/
def writeProgress (t : Jobs) (id : Uuid) (pct : Int) : Jobs × Option (Option Time) :=
  ((updateWhere t id (fun r => r.status = .processing)
      (fun r => { r with progress := some pct }) fun _ => ⟨rfl, rfl⟩).1,
    ((t.find? id).filter fun r => r.status = .processing).map Job.cancelRequestedAt)

def readFlags (t : Jobs) (id : Uuid) : Option (Option Time × JobStatus) :=
  (t.find? id).map fun r => (r.cancelRequestedAt, r.status)

/-! ### Rows after a guarded update -/

variable {t : Jobs} {id j : Uuid} {guard : Job → Bool} {f : Job → Job}
  {hf : ∀ r, (f r).id = r.id ∧ (f r).uqUserIdempotencyKey = r.uqUserIdempotencyKey}

theorem find?_updateWhere :
    (updateWhere t id guard f hf).1.find? j =
      (t.find? j).map fun r => if j = id ∧ guard r = true then f r else r := by
  unfold updateWhere
  rw [Store.Table.find?_update]
  cases h : t.find? j with
  | none => rfl
  | some r => simp [Store.Table.find?_key h]

theorem updateWhere_won :
    (updateWhere t id guard f hf).2 = true ↔ ∃ r, t.find? id = some r ∧ guard r = true := by
  unfold updateWhere
  rw [beq_iff_eq]
  exact Store.Table.countP_key guard

/-- A guarded update that hits no row. -/
theorem rows_updateWhere (h : ∀ r, t.find? id = some r → guard r = false) :
    (updateWhere t id guard f hf).1.rows = t.rows := by
  have hsame : ∀ r ∈ t.rows, (if (decide (r.id = id) && guard r) = true then f r else r) = r := by
    intro r hr
    rw [if_neg]
    intro hg
    simp only [Bool.and_eq_true, decide_eq_true_eq] at hg
    have hfind := Store.Table.find?_of_mem hr
    rw [hg.1] at hfind
    rw [h r hfind] at hg
    cases hg.2
  exact (List.map_congr_left hsame).trans (List.map_id _)

theorem find?_markSynced {r : Job} (h : t.find? id = some r) :
    (markSynced t id).1.find? id = some { r with isSyncedToRedis := true } := by
  simp [markSynced, find?_updateWhere, h]

theorem find?_markSynced_ne (h : j ≠ id) : (markSynced t id).1.find? j = t.find? j := by
  simp [markSynced, find?_updateWhere, h]

theorem find?_promote (ids : List Uuid) :
    (promoteScheduledToPending t ids).1.find? j = (t.find? j).map fun r =>
      if j ∈ ids ∧ r.status = .scheduled then { r with status := .pending } else r := by
  unfold promoteScheduledToPending
  rw [Store.Table.find?_update]
  cases h : t.find? j with
  | none => rfl
  | some r => simp [Store.Table.find?_key h]

theorem getJob_some {u : Option Uuid} {r : Job} (h : getJob t id u = some r) :
    t.find? id = some r ∧ ∀ v ∈ u, r.userId = some v := by
  cases u with
  | none => exact ⟨h, by simp⟩
  | some v =>
    simp only [getJob, Option.filter_eq_some_iff, decide_eq_true_eq] at h
    exact ⟨h.1, by simpa using h.2⟩

theorem getByIdempotencyKey_some {k : String} {u : Uuid} {r : Job}
    (h : getByIdempotencyKey t k u = some r) :
    t.find? r.id = some r ∧ r.uqUserIdempotencyKey = some (u, k) := by
  have hp := List.find?_some h
  simp only [Bool.and_eq_true, decide_eq_true_eq] at hp
  exact ⟨Store.Table.find?_of_mem (List.mem_of_find?_eq_some h),
    by simp [Job.uqUserIdempotencyKey, hp.1, hp.2]⟩

theorem getByIdempotencyKey_none {k : String} {u : Uuid}
    (h : getByIdempotencyKey t k u = none) :
    ∀ r ∈ t.rows, r.uqUserIdempotencyKey ≠ some (u, k) := by
  intro r hr he
  have hp := List.find?_eq_none.1 h r hr
  obtain ⟨hu, hk⟩ : r.userId = some u ∧ r.idempotencyKey = some k := by
    unfold Job.uqUserIdempotencyKey at he
    split at he <;> simp_all
  simp [hu, hk] at hp

/-! ### What the pages are cut from -/

theorem keyLt_iff (a b : Time × Uuid) : keyLt a b = true ↔ toLex a < toLex b := by
  simp [keyLt, Prod.Lex.lt_iff]

/-- What the pages are ordered by. -/
def position (r : Job) : Time ×ₗ Uuid := toLex (r.createdAt, r.id)

theorem nodup_position (t : Jobs) : (t.rows.map position).Nodup := by
  have h : (t.rows.map position).map (fun x => (ofLex x).2) = t.rows.map Job.id := by
    rw [List.map_map]
    rfl
  exact List.Nodup.of_map _ (h ▸ t.key_nodup)

/-- Where a row stands in the listing: the newest first. -/
def standing (r : Job) : (Time ×ₗ Uuid)ᵒᵈ := OrderDual.toDual (position r)

theorem nodup_standing (t : Jobs) : (t.rows.map standing).Nodup := by
  have h : t.rows.map standing = (t.rows.map position).map OrderDual.toDual := by
    rw [List.map_map]
    rfl
  rw [h]
  exact (nodup_position t).map OrderDual.toDual.injective

theorem nodup_standing_filter (t : Jobs) (p : Job → Bool) : ((t.rows.filter p).map standing).Nodup :=
  (List.filter_sublist.map standing).nodup (nodup_standing t)

theorem listJobs_orderBy (t : Jobs) (f : Filter) (limit : Nat) :
    listJobs t f limit = (Store.orderBy standing (t.rows.filter f.matches)).take (limit + 1) := by
  unfold listJobs Store.orderBy
  simp only [keyLt_iff, not_lt]
  rfl

/-- The orphans before the limit, oldest first. -/
def arrears (t : Jobs) (olderThan : Time) : List Job :=
  Store.orderBy position
    (t.rows.filter fun r => !r.isSyncedToRedis && r.status.claimable && r.createdAt < olderThan)

theorem listUnsynced_eq (t : Jobs) (olderThan : Time) (limit : Nat) :
    listUnsynced t olderThan limit = (arrears t olderThan).take limit := by
  unfold listUnsynced arrears Store.orderBy
  simp only [keyLt_iff, not_lt]
  rfl

end JobProcessor.Repository
