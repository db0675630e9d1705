import JobProcessor.Proofs.Traces

/-! Starting before the time: the delay of a job is kept by where its id is, so a
message that names a job must not outlive a move of its `scheduled_at`. -/

namespace JobProcessor

open Interleave Prog Store

/-- The time of the row has come, or it has none. -/
def Job.due (row : Job) (now : Time) : Bool := row.scheduledAt.all fun t => t ≤ now

/-- No task of entry `i` has ended. -/
def openEntry (l : List Ev) (i : Nat) : Bool :=
  (started l).all fun p => taskEntry l p.1 != some i || live p.1 l

/-- A message that names `j` and may still be put to `claim_job`. -/
def mayClaim (σ : State) (j : Uuid) (en : Entry (Option Uuid)) : Bool :=
  decide (en.fields = some j) && !usedEntry en.id σ.log && openEntry σ.log en.id

/-- A job is put on a stream only when its time has come, and is put back to
`scheduled` only when no message that names it may still be put to `claim_job`. -/
def onTime (σ : State) : Ev → Bool
  | .act _ (.xadd _ j) _ => (σ.world.jobs.find? j).all fun row => row.due σ.world.clock
  | .act _ (.retryToScheduled j _) _ => (σ.world.jobs.find? j).all fun row =>
    row.status != .processing || !σ.world.streams.entries.any (mayClaim σ j)
  | _ => true

/-- Every claim that the next step may win finds a job whose time has come. -/
def NoEarlyStart (app : App) (c : Cfg) : Prop :=
  ∀ ch ev c' j row, step (system app) c ch = some (ev, c') → wins Op.claims j ev = true →
    c.shared.world.jobs.find? j = some row → row.due c'.shared.world.clock = true

section Steps

variable {app : App} {σ σ' : State} {ev : Ev} {j : Uuid}

theorem Job.due_mono {row : Job} {now now' : Time} (h : row.due now = true) (hle : now ≤ now') :
    row.due now' = true := by
  unfold Job.due at h ⊢
  rw [Option.all_eq_true] at h ⊢
  intro t ht
  have := of_decide_eq_true (h t ht)
  exact decide_eq_true (Int.le_trans this hle)

/-- Messages that may be put to `claim_job` name jobs whose time has come. -/
def OnTime (σ : State) : Prop :=
  ∀ en ∈ σ.world.streams.entries, ∀ j row, mayClaim σ j en = true →
    σ.world.jobs.find? j = some row → row.due σ.world.clock = true

theorem openEntry_iff {l : List Ev} {i : Nat} :
    openEntry l i = true ↔ ∀ q, taskEntry l q = some i → live q l = true := by
  unfold openEntry
  rw [List.all_eq_true]
  constructor
  · intro h q hq
    obtain ⟨c, m, hp, -⟩ := taskEntry_eq hq
    simpa [hq] using h _ (mem_started hp)
  · rintro h ⟨q, p⟩ -
    by_cases hq : taskEntry l q = some i
    · simp [h q hq]
    · simp [hq]

/-- A message that may be claimed through now is new, or could be before. -/
theorem mayClaim_before (ht : Told app σ ev) (hm : Move (system app) σ ev σ')
    {en en' : Entry (Option Uuid)} (hid : en'.id = en.id) (hf : en'.fields = en.fields)
    (h : mayClaim σ' j en' = true) : mayClaim σ j en = true := by
  unfold mayClaim at h ⊢
  simp only [Bool.and_eq_true, Bool.not_eq_true', decide_eq_true_eq] at h ⊢
  obtain ⟨⟨hj, hu⟩, ho⟩ := h
  rw [hid, move_log hm] at hu ho
  refine ⟨⟨hf ▸ hj, ?_⟩, ?_⟩
  · by_contra hu'
    have := (usedEntry_cons en.id ev σ.log).2 (.inl (by simpa using hu'))
    rw [hu] at this
    cases this
  · rw [openEntry_iff] at ho ⊢
    intro q hq
    rcases live_before (ho q (taskEntry_stays ht hq)) with hl | ⟨p, rfl⟩
    · exact hl
    · obtain ⟨c, m, hp, -⟩ := taskEntry_eq hq
      rw [ht.1.1] at hp
      cases hp

theorem OnTime.move (h : OnTime σ) (hb : Base σ) (hm : Move (system app) σ ev σ')
    (hok : ev.isStart = false → onTime σ ev = true) (ht : Told app σ ev) : OnTime σ' := by
  intro en' hen' j row' hmay hj'
  have hf' : σ'.world.streams.find? en'.id = some en' := Streams.find?_of_mem hen'
  cases hf : σ.world.streams.find? en'.id with
  | none =>
    -- a new message: its `XADD` was on time
    rcases move_entry_none hm hf with hn | ⟨pid, s, id, u, rfl, hnew⟩
    · rw [hf'] at hn
      cases hn
    · rw [hf', Option.some.injEq] at hnew
      have hid : id = j := by
        simp only [mayClaim, Bool.and_eq_true, decide_eq_true_eq] at hmay
        rw [hnew] at hmay
        simpa using hmay.1.1
      subst hid
      rcases move_row hm hj' with ⟨row, hj, hrow⟩ | ⟨_, _, he, -⟩
      · have hdue : row.due σ.world.clock = true := by
          have := hok rfl
          rw [onTime, hj] at this
          exact this
        rw [show row' = row from hrow]
        exact Job.due_mono hdue (move_clock hm)
      · cases he
  | some en =>
    obtain ⟨st, hst, -⟩ := move_entry hm hf
    rw [hf', Option.some.injEq] at hst
    have hid : en.id = en'.id := Streams.find?_id hf
    have hmay' : mayClaim σ j en = true :=
      mayClaim_before ht hm hid.symm (by rw [hst]) hmay
    have hen : en ∈ σ.world.streams.entries := Streams.find?_mem hf
    have hfields : en.fields = some j := by
      simp only [mayClaim, Bool.and_eq_true, decide_eq_true_eq] at hmay'
      exact hmay'.1.1
    rcases move_row hm hj' with ⟨row, hj, rfl⟩ | ⟨pid, n, rfl, hn, -, hnone⟩
    · have hdue := Job.due_mono (h en hen j row hmay' hj) (move_clock hm)
      cases ev with
      | act pid o r =>
        rcases onRow_scheduledAt σ'.world.clock row o with hsame | ⟨hs, t, rfl⟩
        · unfold Job.due at hdue ⊢
          rw [show (onRow σ'.world.clock row (.act pid o r)).scheduledAt = row.scheduledAt from hsame]
          exact hdue
        · -- the row is put back while this message may be claimed through
          have hrow : row.id = j := Table.find?_key hj
          have := hok rfl
          rw [onTime, hrow, hj] at this
          simp only [Option.all_some, hs, bne_self_eq_false, Bool.false_or, Bool.not_eq_true',
            List.any_eq_false] at this
          exact absurd hmay' (this en hen)
      | _ => exact hdue
    · obtain ⟨row, hrow⟩ := hb.rows.entries en'.id en j hf hfields
      rw [hnone] at hrow
      cases hrow

theorem due_of_claim {pid : Nat} {row : Job} (h : OnTime σ) (hb : Base σ)
    (ht : Told app σ (.act pid (.claimJob j) true)) (hj : σ.world.jobs.find? j = some row) :
    row.due σ.world.clock = true := by
  obtain ⟨hl, p, hp, hi⟩ := ht
  obtain ⟨⟨c, m, rfl, hmj⟩, hown⟩ := issues_claim hi
  have he : taskEntry σ.log pid = some m.messageId := taskEntry_of_proc hp
  obtain ⟨-, en, hf, hen, -⟩ := hb.procs.begun pid c m hp
  have hid : en.id = m.messageId := Streams.find?_id hf
  refine h en (Streams.find?_mem hf) j row ?_ hj
  simp only [mayClaim, Bool.and_eq_true, decide_eq_true_eq, Bool.not_eq_true', hid]
  refine ⟨⟨?_, ?_⟩, ?_⟩
  · rw [← hmj, ← hen]
    rfl
  · by_contra hu
    obtain ⟨q, id, r, hev, hq⟩ := hb.users m.messageId (by simpa using hu)
    obtain rfl := hb.procs.once q pid _ hq he
    have hmem := mem_own.2 hev
    rw [hown] at hmem
    cases hmem
  · rw [openEntry_iff]
    intro q hq
    rw [hb.procs.once q pid _ hq he]
    exact hl

end Steps

theorem noEarlyStart_of_onTime (app : App) (c : Cfg)
    (hr : Run (system app) (fun σ ev => onTime σ ev = true) c) : NoEarlyStart app c := by
  have h : Base c.shared ∧ OnTime c.shared := by
    refine run_inv (I := fun σ => Base σ ∧ OnTime σ) ?_ ?_ hr
    · exact ⟨base_init, fun _ h => (nomatch h)⟩
    · intro σ ev σ' hI hm hok ht
      exact ⟨hI.1.move hm ht, hI.2.move hI.1 hm hok ht⟩
  intro ch ev c' j row hs hw hj
  obtain ⟨σ, hm, ht, hworld, -⟩ :=
    hr.step_issued (fun _ _ _ _ _ he => exec_valid he) (body_emits app) hs
  obtain ⟨pid, o, r, rfl, ho, hwon⟩ := wins_iff.1 hw
  cases o <;> simp only [Op.claims, Option.some.injEq, reduceCtorEq] at ho
  subst ho
  change r = true at hwon
  subst hwon
  rw [hworld]
  exact Job.due_mono (due_of_claim h.2 h.1 ht hj) (move_clock hm)

/-- The next step of `ch` claims job `j` before its time. -/
def startsEarly (app : App) (j : Uuid) (ch : Choice Env Proc) (c : Cfg) : Bool :=
  match step (system app) c ch with
  | some (ev, c') => wins Op.claims j ev &&
    (c.shared.world.jobs.find? j).any fun row => !row.due c'.shared.world.clock
  | none => false

/-- The submission of job 1 is slow to mark it and the ticker hands it over again. Its
first two attempts fail; the message of the immediate retry is still there when the
job is put back for 30 s. -/
def duplicateHandoff : List (Choice Env Proc) := List.flatten
  [[.start (.submitJob 7 1 { type := .email, payload := .null })], runs 0 3,
    [.start (.ticker 2), .run 1 { elapsed := 61000000 }], runs 1 7,
    [.start (.workerLoop "a" 1)], runs 2 5, runs 3 5,
    [.run 3 { finish := .error ("RuntimeError", "boom") }], runs 3 4,
    [.start (.workerLoop "b" 1)], runs 4 5, runs 5 5,
    [.run 5 { finish := .error ("RuntimeError", "boom") }], runs 5 4,
    [.start (.workerLoop "c" 1)], runs 6 5]

theorem job_starts_early :
    ¬ ∀ c, Reachable (system defaultApp) c → NoEarlyStart defaultApp c := by
  intro h
  obtain ⟨c, hc, hl⟩ := reachable_of_replay defaultApp duplicateHandoff
    (startsEarly defaultApp 1 (.run 7 {})) (by decide +kernel)
  unfold startsEarly at hl
  split at hl
  · rename_i ev c' hs
    rw [Bool.and_eq_true, Option.any_eq_true] at hl
    obtain ⟨hw, row, hj, hdue⟩ := hl
    rw [h c hc _ ev c' 1 row hs hw hj] at hdue
    cases hdue
  · cases hl

/-- Job 1 fails twice without duplicates, waits in the delayed set and is promoted. -/
def delayedRetry : List (Choice Env Proc) := List.flatten
  [[.start (.submitJob 7 1 { type := .email, payload := .null })], runs 0 5,
    [.start (.workerLoop "a" 2)], runs 1 5, runs 2 5,
    [.run 2 { finish := .error ("RuntimeError", "boom") }], runs 2 6,
    runs 1 5, runs 3 5, [.run 3 { finish := .error ("RuntimeError", "boom") }], runs 3 7,
    [.start (.ticker 2), .run 4 { elapsed := 31000000 }], runs 4 7,
    [.start (.workerLoop "b" 1)], runs 5 5]

theorem noEarlyStart_delayedRetry :
    ∃ c, Run (system defaultApp) (fun σ ev => onTime σ ev = true) c ∧
      ((c.shared.world.jobs.find? 1).any fun row => row.scheduledAt.isSome) = true ∧
      ((step (system defaultApp) c (.run 6 {})).any fun s => wins Op.claims 1 s.1) = true ∧
      NoEarlyStart defaultApp c := by
  obtain ⟨c, hc, hl⟩ := run_of_replay defaultApp (fun σ ev => onTime σ ev = true) onTime
    (fun _ _ h => h) delayedRetry
    (fun c => ((c.shared.world.jobs.find? 1).any fun row => row.scheduledAt.isSome) &&
      ((step (system defaultApp) c (.run 6 {})).any fun s => wins Op.claims 1 s.1))
    (by decide +kernel)
  rw [Bool.and_eq_true] at hl
  exact ⟨c, hc, hl.1, hl.2, noEarlyStart_of_onTime defaultApp c hc⟩

end JobProcessor
