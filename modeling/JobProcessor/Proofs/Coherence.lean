import JobProcessor.Proofs.Rows
import JobProcessor.Proofs.Writes

/-! Row coherence: which columns are null in which status. The programs decide what
the statements write; the rows follow statement by statement. -/

namespace JobProcessor

open Interleave Prog Store

/-! ### Null columns -/

/-- A JSONB column that is null, or holds the JSON value `null`. -/
def isNull : Option Json → Bool
  | none => true
  | some .null => true
  | some _ => false

theorem isNull_dict {v : Json} (h : v.isDict = true) : isNull (some v) = false := by
  cases v <;> first | rfl | cases h

/-- Which columns are null in which status, and what `progress` says. -/
structure Job.Coherent (r : Job) : Prop where
  queued : r.status.claimable = true → r.startedAt = none ∧ r.completedAt = none ∧
    isNull r.result = true ∧ isNull r.error = true
  scheduled : r.status = .scheduled → r.scheduledAt ≠ none
  processing : r.status = .processing → r.startedAt ≠ none ∧ r.completedAt = none ∧
    isNull r.result = true ∧ isNull r.error = true
  completed : r.status = .completed → r.startedAt ≠ none ∧ r.completedAt ≠ none ∧
    isNull r.result = false ∧ isNull r.error = true ∧ 1 ≤ r.attempts
  failed : r.status = .failed → r.startedAt ≠ none ∧ r.completedAt ≠ none ∧
    isNull r.error = false ∧ isNull r.result = true ∧ 1 ≤ r.attempts
  cancelled : r.status = .cancelled → r.completedAt ≠ none ∧ isNull r.error = true ∧
    (isNull r.result = true ↔ r.startedAt = none)
  unmeasured : r.type ≠ .batch → r.progress = none
  measured : ∀ p ∈ r.progress, 0 ≤ p ∧ p ≤ 100
  finished : r.type = .batch → r.status = .completed → r.progress = some 100

/-! ### One status at a time -/

section Status

variable {r : Job} (hu : r.type ≠ .batch → r.progress = none)
  (hm : ∀ p ∈ r.progress, 0 ≤ p ∧ p ≤ 100)
include hu hm

theorem coherent_of_queued (hs : r.status = .pending ∨ r.status = .scheduled ∧ r.scheduledAt ≠ none)
    (h : r.startedAt = none ∧ r.completedAt = none ∧ isNull r.result = true ∧
      isNull r.error = true) : r.Coherent := by
  refine ⟨fun _ => h, ?_, ?_, ?_, ?_, ?_, hu, hm, ?_⟩
  all_goals rcases hs with hs | ⟨hs, hat⟩
  all_goals simp_all

theorem coherent_of_processing (hs : r.status = .processing)
    (h : r.startedAt ≠ none ∧ r.completedAt = none ∧ isNull r.result = true ∧
      isNull r.error = true) : r.Coherent := by
  refine ⟨?_, ?_, fun _ => h, ?_, ?_, ?_, hu, hm, ?_⟩
  all_goals simp [hs, JobStatus.claimable]

theorem coherent_of_completed (hs : r.status = .completed)
    (h : r.startedAt ≠ none ∧ r.completedAt ≠ none ∧ isNull r.result = false ∧
      isNull r.error = true ∧ 1 ≤ r.attempts) (hfin : r.type = .batch → r.progress = some 100) :
    r.Coherent := by
  refine ⟨?_, ?_, ?_, fun _ => h, ?_, ?_, hu, hm, fun ht _ => hfin ht⟩
  all_goals simp [hs, JobStatus.claimable]

theorem coherent_of_failed (hs : r.status = .failed)
    (h : r.startedAt ≠ none ∧ r.completedAt ≠ none ∧ isNull r.error = false ∧
      isNull r.result = true ∧ 1 ≤ r.attempts) : r.Coherent := by
  refine ⟨?_, ?_, ?_, ?_, fun _ => h, ?_, hu, hm, ?_⟩
  all_goals simp [hs, JobStatus.claimable]

theorem coherent_of_cancelled (hs : r.status = .cancelled)
    (h : r.completedAt ≠ none ∧ isNull r.error = true ∧
      (isNull r.result = true ↔ r.startedAt = none)) : r.Coherent := by
  refine ⟨?_, ?_, ?_, ?_, ?_, fun _ => h, hu, hm, ?_⟩
  all_goals simp [hs, JobStatus.claimable]

end Status

/-! ### One statement -/

/-- What a statement writes into `row` suits its columns. -/
def Op.suits (row : Job) : Op → Prop
  | .initProgress id => row.id = id → row.type = .batch
  | .writeProgress id pct => row.id = id → row.type = .batch ∧ 0 ≤ pct ∧ pct ≤ 100
  | .completeJob id result progress => row.id = id → isNull (some result) = false ∧
    progress = if row.type = .batch then some 100 else none
  | .failJob _ error => isNull (some error) = false
  | .cancelJob _ summary => isNull (some summary) = false
  | _ => True

/-- Marking a row changes no column that coherence speaks of. -/
theorem coherent_synced {row : Job} (h : row.Coherent) :
    { row with isSyncedToRedis := true }.Coherent :=
  ⟨h.queued, h.scheduled, h.processing, h.completed, h.failed, h.cancelled, h.unmeasured,
    h.measured, h.finished⟩

theorem onRow_coherent (now : Time) {row : Job} {o : Op} (hs : o.suits row) (h : row.Coherent) :
    (o.onRow now row).Coherent := by
  have hu := h.unmeasured
  have hm := h.measured
  cases o <;> simp only [Op.onRow] <;> (try split) <;> try exact h
  all_goals rename_i hg
  case markSynced => exact coherent_synced h
  case claimJob =>
    obtain ⟨-, hrest⟩ := h.queued hg.2
    exact coherent_of_processing hu hm rfl ⟨by simp, hrest⟩
  case completeJob id result progress =>
    obtain ⟨hst, -, -, herr⟩ := h.processing hg.2
    obtain ⟨hres, rfl⟩ := hs hg.1
    refine coherent_of_completed ?_ ?_ rfl ⟨hst, by simp, hres, herr, by simp⟩ ?_
    · intro ht
      simpa [show row.type ≠ .batch from ht] using hu ht
    · by_cases ht : row.type = .batch
      · simp [ht]
      · simpa [ht] using hm
    · intro ht
      simp [show row.type = .batch from ht]
  case failJob id error =>
    obtain ⟨hst, -, hres, -⟩ := h.processing hg.2
    exact coherent_of_failed hu hm rfl ⟨hst, by simp, hs, hres, by simp⟩
  case retryToPending =>
    obtain ⟨-, hrest⟩ := h.processing hg.2
    exact coherent_of_queued hu hm (.inl rfl) ⟨rfl, hrest⟩
  case retryToScheduled =>
    obtain ⟨-, hrest⟩ := h.processing hg.2
    exact coherent_of_queued hu hm (.inr ⟨rfl, by simp⟩) ⟨rfl, hrest⟩
  case resetFailedToPending =>
    obtain ⟨-, -, -, hres, -⟩ := h.failed hg.2.1
    exact coherent_of_queued hu hm (.inl rfl) ⟨rfl, rfl, hres, rfl⟩
  case promoteScheduledToPending =>
    exact coherent_of_queued hu hm (.inl rfl) (h.queued (by simp [hg.2, JobStatus.claimable]))
  case initProgress =>
    have ht := hs hg.1
    exact coherent_of_processing (fun hn => absurd ht hn) (by simp) hg.2 (h.processing hg.2)
  case cancelPendingOrScheduled =>
    obtain ⟨hst, -, hres, herr⟩ := h.queued hg.2
    exact coherent_of_cancelled hu hm rfl ⟨by simp, herr, by simp [hres, hst]⟩
  case requestCancel => exact coherent_of_processing hu hm hg.2 (h.processing hg.2)
  case cancelJob id summary =>
    obtain ⟨hst, -, -, herr⟩ := h.processing hg.2
    refine coherent_of_cancelled hu hm rfl ⟨by simp, herr, ?_⟩
    simp [show isNull (some summary) = false from hs, hst]
  case writeProgress id pct =>
    obtain ⟨ht, hpct⟩ := hs hg.1
    exact coherent_of_processing (fun hn => absurd ht hn) (by simpa using hpct) hg.2
      (h.processing hg.2)

theorem coherent_new (now : Time) {n : Repository.NewJob}
    (hn : n.status = .pending ∨ n.status = .scheduled ∧ n.scheduledAt ≠ none) :
    (n.row now).Coherent :=
  coherent_of_queued (fun _ => rfl) (by simp [Repository.NewJob.row]) hn ⟨rfl, rfl, rfl, rfl⟩

/-! ### Runs -/

/-- A handler that returns, returns a dict. -/
def returnsDict : Ev → Bool
  | .act _ (.finishHandler _) (.ok v) => v.isDict
  | _ => true

section Runs

variable {app : App} {σ σ' : State} {ev : Ev}

/-- What the rows need to stay coherent: what was read of them, and that handlers
have returned dicts. -/
structure Coherence (σ : State) : Prop where
  rows : ∀ j row, σ.world.jobs.find? j = some row → row.Coherent
  remembered : Remembered σ
  dicts : ∀ ev ∈ σ.log, returnsDict ev = true

theorem Coherence.type_eq (h : Coherence σ) {pid : Nat} {j : Uuid} {row job : Job}
    (hj : σ.world.jobs.find? j = some row) (hr : Read (own pid σ.log) j job) :
    row.type = job.type := by
  obtain ⟨hmem, hid⟩ := hr
  obtain ⟨row', hf, hx⟩ := h.remembered pid _ _ (mem_own.1 hmem) job (by simp [shows])
  rw [hid, hj, Option.some.injEq] at hf
  rw [hf]
  exact congrArg (fun k => k.2.1) hx

theorem Coherence.suits (h : Coherence σ) {pid : Nat} {o : Op} (ho : fills (own pid σ.log) o)
    {j : Uuid} {row : Job} (hj : σ.world.jobs.find? j = some row) : o.suits row := by
  have hid : row.id = j := Table.find?_key hj
  cases o with
  | initProgress id =>
    rintro rfl
    obtain ⟨job, hr, hb⟩ := ho
    rw [hid] at hr
    exact (h.type_eq hj hr).trans hb
  | writeProgress id pct =>
    rintro rfl
    obtain ⟨⟨job, hr, hb⟩, hpct⟩ := ho
    rw [hid] at hr
    exact ⟨(h.type_eq hj hr).trans hb, hpct⟩
  | completeJob id result progress =>
    rintro rfl
    obtain ⟨job, hr, hp, hres⟩ := ho
    rw [hid] at hr
    have hd : result.isDict = true := by
      rcases hres with hd | ⟨type, hm⟩
      · exact hd
      · exact h.dicts _ (mem_own.1 hm)
    exact ⟨isNull_dict hd, by rw [hp, h.type_eq hj hr]⟩
  | failJob id error => exact isNull_dict ho
  | cancelJob id summary => exact isNull_dict ho.1
  | _ => trivial

theorem Coherence.move (h : Coherence σ) (hm : Move (system app) σ ev σ')
    (hok : ev.isStart = false → returnsDict ev = true)
    (ht : Issued (system app) (fun _ => fills) (fun _ _ _ => True) σ ev) : Coherence σ' := by
  refine ⟨?_, h.remembered.move hm, ?_⟩
  · intro j row' hj'
    rcases move_row hm hj' with ⟨row, hj, rfl⟩ | ⟨pid, n, rfl, -, rfl, -⟩
    · have hrow := h.rows j row hj
      cases ev with
      | act pid o r =>
        obtain ⟨-, p, -, hi⟩ := ht
        exact onRow_coherent _ (h.suits hi hj) hrow
      | _ => exact hrow
    · obtain ⟨-, p, -, hi⟩ := ht
      exact coherent_new _ hi
  · intro ev' hev
    rw [move_log hm] at hev
    rcases List.mem_cons.1 hev with rfl | hev
    · cases hs : ev'.isStart with
      | false => exact hok hs
      | true => cases ev' <;> first | rfl | cases hs
    · exact h.dicts ev' hev

end Runs

theorem rows_coherent (app : App) (c : Cfg)
    (hr : Run (system app) (fun _ ev => returnsDict ev = true) c) (j : Uuid) (row : Job)
    (hj : c.shared.world.jobs.find? j = some row) : row.Coherent := by
  have h : Coherence c.shared := by
    refine Run.inv (fun _ _ _ _ _ he => exec_valid he) (body_fills app) ?_ ?_ hr
    · exact ⟨fun _ _ hj => (nomatch hj), fun _ _ _ h => (nomatch h), fun _ h => (nomatch h)⟩
    · intro σ ev σ' hI hm hok ht
      exact hI.move hm hok ht
  exact h.rows j row hj

def emailDone : List (Choice Env Proc) := List.flatten
  [[.start (.submitJob 7 1 { type := .email, payload := .null })], runs 0 5,
    [.start (.workerLoop "a" 1)], runs 1 5, runs 2 5,
    [.run 2 { finish := .ok (.obj [("message_id", .str "msg_1")]) }], runs 2 1]

theorem rows_coherent_emailDone :
    ∃ c row, Run (system defaultApp) (fun _ ev => returnsDict ev = true) c ∧
      c.shared.world.jobs.find? 1 = some row ∧ row.status = .completed ∧ row.Coherent := by
  obtain ⟨c, hc, hl⟩ := run_of_replay defaultApp (fun _ ev => returnsDict ev = true)
    (fun _ ev => returnsDict ev) (fun _ _ h => h) emailDone
    (fun c => (c.shared.world.jobs.find? 1).any fun row => row.status = .completed)
    (by decide +kernel)
  rw [Option.any_eq_true] at hl
  obtain ⟨row, hj, hs⟩ := hl
  exact ⟨c, row, hc, hj, of_decide_eq_true hs, rows_coherent defaultApp c hc 1 row hj⟩

end JobProcessor
