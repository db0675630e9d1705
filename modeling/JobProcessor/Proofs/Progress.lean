import JobProcessor.Interleave.Beside
import JobProcessor.Proofs.Budget
import JobProcessor.Proofs.BatchSummary
import JobProcessor.Proofs.Polling

/-! The progress of a batch never goes back, unless somebody retries it by hand: one task
writes it at a time, and a task writes climbing percentages. -/

namespace JobProcessor

open Interleave Prog

/-! ### One task -/

def AtMost (id : Uuid) (pct : Int) (h : Hist) : Prop :=
  ∀ pct' r, (⟨.writeProgress id pct', r⟩ : Reply Op Op.Res) ∈ h → pct' ≤ pct

/-- A task sets the progress to 0 before it writes percentages, which climb. -/
def climbing (h : Hist) : Op → Prop
  | .initProgress id => ∀ pct r, (⟨.writeProgress id pct, r⟩ : Reply Op Op.Res) ∉ h
  | .writeProgress id pct => AtMost id pct h
  | _ => True

section Programs

variable {app : App} {id : Uuid} {pct pct' : Int} {h : Hist}

theorem AtMost.mono (hb : AtMost id pct h) (hle : pct ≤ pct') : AtMost id pct' h :=
  fun p r hm => (hb p r hm).trans hle

theorem AtMost.cons (hb : AtMost id pct h) {x : Reply Op Op.Res}
    (hx : ∀ p, x.1 = .writeProgress id p → p ≤ pct) : AtMost id pct (x :: h) := by
  intro p r hm
  rcases List.mem_cons.1 hm with rfl | hm
  · exact hx p rfl
  · exact hb p r hm

theorem climbing_of_unset {o : Op} (ho : o.setsProgress = none) (h : Hist) : climbing h o := by
  cases o with
  | initProgress _ | writeProgress _ _ => cases ho
  | _ => trivial

theorem climbing_of_plain {o : Op} (ho : o.plain) (h : Hist) : climbing h o := by
  cases o <;> trivial

theorem climbs_of_plain {α : Type} {p : Prg α} (hp : Uses Valid Op.plain p) :
    Emits Valid climbing (fun _ _ => True) h p :=
  ((uses_iff h).2 hp).mono (fun g _ ho => climbing_of_plain ho g) fun _ _ _ => trivial

theorem cancelled_climbs (ctx : PgJobContext) (hb : AtMost ctx.jobId ctx.pendingPct h) :
    Emits Valid climbing (fun g r => r.1.jobId = ctx.jobId ∧ r.1.pendingPct = ctx.pendingPct ∧
      AtMost ctx.jobId ctx.pendingPct g) h ctx.cancelled := by
  simp only [PgJobContext.cancelled, PgJobContext.write, PgJobContext.read, op_bind, mpure_eq]
  refine ⟨trivial, fun now _ => ?_⟩
  have hnow : AtMost ctx.jobId ctx.pendingPct (⟨.now, now⟩ :: h) := hb.cons (by simp)
  beta_reduce
  split
  · split
    · refine ⟨hnow, fun row _ => ?_⟩
      have hw : AtMost ctx.jobId ctx.pendingPct
          (⟨.writeProgress ctx.jobId ctx.pendingPct, row⟩ :: ⟨.now, now⟩ :: h) := by
        refine hnow.cons fun p hp => ?_
        cases hp
        exact Int.le_refl _
      cases row <;> exact ⟨rfl, rfl, hw⟩
    · refine ⟨trivial, fun row _ => ?_⟩
      have hr : AtMost ctx.jobId ctx.pendingPct (⟨.readFlags ctx.jobId, row⟩ :: ⟨.now, now⟩ :: h) :=
        hnow.cons (by simp)
      rcases row with _ | ⟨c, s⟩
      · exact ⟨rfl, rfl, hr⟩
      · change Emits _ _ _ _ ((if s = .processing then _ else _) >>= _)
        split <;> exact ⟨rfl, rfl, hr⟩
  · exact ⟨rfl, rfl, hnow⟩

theorem handleBatch_climbs {n i : Nat} (items : List PayloadItem) (ctx : PgJobContext)
    (s : Summary) (hn : i + items.length = n) (hb : AtMost ctx.jobId ctx.pendingPct h)
    (hnext : i < n → ctx.pendingPct ≤ percent (i + 1) n) :
    Emits Valid climbing (fun _ _ => True) h (handleBatch n i items ctx s) := by
  induction items generalizing i ctx s h with
  | nil => trivial
  | cons item items ih =>
    rw [List.length_cons] at hn
    refine Emits.bind (cancelled_climbs ctx hb) fun g r hr => ?_
    obtain ⟨ctx', c⟩ := r
    obtain ⟨hid, hpct, hb'⟩ := hr
    dsimp only at hid hpct ⊢
    split
    · trivial
    · refine ⟨trivial, fun u _ => ⟨trivial, fun v _ => ?_⟩⟩
      refine ih (i := i + 1) _ _ (by omega) ?_ ?_
      · rw [← hid] at hb'
        exact (((hb'.cons (by simp)).cons (by simp)).mono (hnext (by omega)))
      · intro hlt
        exact Int.ofNat_le.2 (percent_mono (by omega) (by omega))

theorem runWithTimeout_climbs {Q : Hist → Except HandlerExc Json → Prop}
    {p : Prg (Except HandlerExc Json)} {g : Hist} (hp : Emits Valid climbing Q g p)
    (hs : ∀ x ∈ h, x.1 = .timedOut ∨ x ∈ g) :
    Emits Valid climbing (fun _ _ => True) h (runWithTimeout p) := by
  induction p generalizing g h with
  | pure a => trivial
  | act o k ih =>
    refine ⟨trivial, fun fired _ => ?_⟩
    beta_reduce
    have hs' : ∀ x ∈ (⟨.timedOut, fired⟩ : Reply Op Op.Res) :: h, x.1 = .timedOut ∨ x ∈ g := by
      intro x hx
      rcases List.mem_cons.1 hx with rfl | hx
      · exact .inl rfl
      · exact hs x hx
    split
    · trivial
    · refine ⟨?_, fun r hv => ih r (hp.2 r hv) fun x hx => ?_⟩
      · have ho := hp.1
        cases o with
        | initProgress i => exact fun pct r hm => ho pct r ((hs' _ hm).resolve_left (by simp))
        | writeProgress i pct => exact fun p r hm => ho p r ((hs' _ hm).resolve_left (by simp))
        | _ => trivial
      · rcases List.mem_cons.1 hx with rfl | hx
        · exact .inr List.mem_cons_self
        · exact (hs' x hx).imp_right (List.mem_cons_of_mem _)

theorem runHandler_climbs (type : JobType) (payload : Payload) (ctx : PgJobContext)
    (hb : AtMost ctx.jobId ctx.pendingPct h) (hzero : ctx.pendingPct = 0) :
    Emits Valid climbing (fun _ _ => True) h (runHandler type payload ctx) := by
  simp only [runHandler, op_bind, mpure_eq]
  refine ⟨trivial, fun u hu => ?_⟩
  split
  · rename_i items
    refine handleBatch_climbs items ctx _ (Nat.zero_add _) (hb.cons (by simp)) fun _ => ?_
    rw [hzero]
    exact Int.natCast_nonneg _
  · trivial
  · refine ⟨trivial, fun v _ => ?_⟩
    cases v <;> trivial

theorem retry_climbs (job : Job) {error : Json} (label : Label) (he : error.isDict = true) :
    Emits Valid climbing (fun _ _ => True) h (retry app job error label) := by
  refine Emits.bind (climbs_of_plain (scheduleRetryOrFail_plain job he)) fun g r _ => ?_
  cases r <;> trivial

theorem settle_climbs (job : Job) (r : Except HandlerExc Json) :
    Emits Valid climbing (fun _ _ => True) h (settle app job r) := by
  rcases r with (summary | _ | ⟨type, message⟩) | result
  · exact ⟨trivial, fun _ _ => trivial⟩
  · exact retry_climbs job _ rfl
  · exact retry_climbs job _ rfl
  · simp only [settle, op_bind, mpure_eq]
    refine ⟨trivial, fun won _ => ?_⟩
    cases won <;> trivial

theorem runClaimed_climbs (job : Job)
    (hno : ∀ pct r, (⟨.writeProgress job.id pct, r⟩ : Reply Op Op.Res) ∉ h) :
    Emits Valid climbing (fun _ _ => True) h (runClaimed app job) := by
  unfold runClaimed
  split
  · exact ⟨trivial, fun _ _ => trivial⟩
  · exact retry_climbs job _ rfl
  · rename_i payload _
    refine Emits.bind (Q := fun _ _ => True) ?_ fun g r _ => settle_climbs job r
    refine runWithTimeout_climbs (runHandler_climbs job.type payload _ ?_ rfl) fun x hx => .inr hx
    exact fun pct r hm => absurd hm (hno pct r)

theorem processJob_climbs (id : Uuid) :
    Emits Valid climbing (fun _ _ => True) [] (processJob app id) := by
  simp only [processJob, op_bind, mpure_eq]
  refine ⟨trivial, fun claimed _ => ?_⟩
  cases claimed with
  | false => trivial
  | true =>
    refine ⟨trivial, fun row _ => ?_⟩
    cases row with
    | none => trivial
    | some job =>
      dsimp only
      split
      · exact ⟨trivial, fun _ _ => trivial⟩
      · split
        · exact ⟨by simp [climbing], fun _ _ => runClaimed_climbs job (by simp)⟩
        · exact runClaimed_climbs job (by simp)

theorem runOne_climbs (consumer : String) (m : Message) :
    Emits Valid climbing (fun _ _ => True) [] (runOne app consumer m) := by
  refine Emits.bind (Q := fun _ _ => True) ?_ fun g r _ => ⟨trivial, fun _ _ => trivial⟩
  unfold handleMessage
  split
  · exact ⟨trivial, fun _ _ => trivial⟩
  · refine Emits.bind (processJob_climbs _) fun g r _ => ?_
    cases r with
    | error exc => trivial
    | ok out =>
      dsimp only
      split
      · exact ⟨trivial, fun _ _ => trivial⟩
      · trivial

/-- Nobody but a task sets a progress. -/
theorem issues_unset {p : Proc} {o : Op} (hp : ∀ consumer m, p ≠ .runOne consumer m)
    (hi : issues app p h o) : o.setsProgress = none := by
  cases p with
  | runOne consumer m => exact absurd rfl (hp consumer m)
  | _ =>
    cases o with
    | initProgress _ | writeProgress _ _ | completeJob _ _ _ =>
      exact absurd hi (by simp [issues, submitIssues, readIssues, retryJobIssues, cancelIssues,
        listIssues, loopIssues, promoteIssues, tickerIssues])
    | _ => rfl

theorem body_climbs (app : App) (p : Proc) :
    Emits Valid climbing (fun _ _ => True) [] (body app p) := by
  cases p with
  | runOne consumer m => exact Emits.bind (runOne_climbs ..) fun _ _ _ => trivial
  | _ =>
    exact (body_emits app _).mono (fun h o ho => climbing_of_unset (issues_unset (by simp) ho) h)
      fun _ _ _ => trivial

end Programs

/-! ### Where a progress comes from -/

def Op.reports : Op → Option Int
  | .writeProgress _ pct => some pct
  | .completeJob _ _ progress => progress
  | _ => none

/-- `p` is where a batch begins, or was reported for `j`. -/
def Reported (l : List Ev) (j : Uuid) (p : Int) : Prop :=
  p = 0 ∨ ∃ pid o r, .act pid o r ∈ l ∧ o.setsProgress = some j ∧ o.reports = some p

section Runs

variable {app : App} {c c' : Cfg} {j : Uuid} {row : Job} {pid pid' : Nat} {o : Op}

theorem onRow_reported (now : Time) (row : Job) (o : Op) :
    (o.onRow now row).progress = row.progress ∨
      o = .initProgress row.id ∧ (o.onRow now row).progress = some 0 ∨
      o.setsProgress = some row.id ∧ ∃ p, o.reports = some p ∧
        (o.onRow now row).progress = some p := by
  by_cases ho : o.setsProgress = some row.id
  · cases o with
    | initProgress i =>
      cases ho
      simp only [Op.onRow]
      split
      · exact .inr (.inl ⟨trivial, rfl⟩)
      · exact .inl rfl
    | writeProgress i pct =>
      simp only [Op.onRow]
      split
      · exact .inr (.inr ⟨ho, pct, rfl, rfl⟩)
      · exact .inl rfl
    | completeJob i result progress =>
      cases progress with
      | none => cases ho
      | some p =>
        simp only [Op.onRow]
        split
        · exact .inr (.inr ⟨ho, p, rfl, rfl⟩)
        · exact .inl rfl
    | _ => cases ho
  · exact .inl (onRow_progress now row o ho)

theorem Reported.cons {l : List Ev} {p : Int} (h : Reported l j p) (ev : Ev) :
    Reported (ev :: l) j p :=
  h.imp_right fun ⟨pid, o, r, hm, ho⟩ => ⟨pid, o, r, List.mem_cons_of_mem _ hm, ho⟩

theorem progress_reported (hr : Reachable (system app) c) (j : Uuid) :
    ∀ row, c.shared.world.jobs.find? j = some row → ∀ p, row.progress = some p →
      Reported c.shared.log j p := by
  refine run_inv (I := fun σ => ∀ row, σ.world.jobs.find? j = some row → ∀ p,
    row.progress = some p → Reported σ.log j p) ?_ ?_ hr
  · intro row h
    cases h
  · intro σ ev σ' hI hm _ _ row' hj' p hp
    rw [move_log hm]
    cases hj : σ.world.jobs.find? j with
    | none =>
      rcases move_row_none hm hj with hn | ⟨pid, n, rfl, -, hn⟩
      · rw [hn] at hj'
        cases hj'
      · rw [hn, Option.some.injEq] at hj'
        subst hj'
        cases hp
    | some row =>
      rw [move_row_some hm hj, Option.some.injEq] at hj'
      subst hj'
      have hid : row.id = j := Store.Table.find?_key hj
      cases ev with
      | act pid o r =>
        change (o.onRow σ'.world.clock row).progress = some p at hp
        rcases onRow_reported σ'.world.clock row o with hsame | ⟨-, hzero⟩ | ⟨ho, p', hrep, hset⟩
        · rw [hsame] at hp
          exact (hI row hj p hp).cons _
        · rw [hzero, Option.some.injEq] at hp
          exact .inl hp.symm
        · rw [hset, Option.some.injEq] at hp
          subst hp
          exact .inr ⟨pid, o, r, List.mem_cons_self, hid ▸ ho, hrep⟩
      | _ => exact (hI row hj p hp).cons _

/-! ### One writer -/

theorem one_claimer {l : List Ev} (hone : l.countP (wins Op.claims j) ≤ 1)
    (h : .act pid (.claimJob j) true ∈ l) (h' : .act pid' (.claimJob j) true ∈ l) : pid' = pid := by
  have hwin : ∀ q, wins Op.claims j (.act q (.claimJob j) true) = true := fun q =>
    wins_iff.2 ⟨q, _, _, rfl, rfl, rfl⟩
  have hf := List.mem_filter.2 ⟨h, hwin pid⟩
  have hf' := List.mem_filter.2 ⟨h', hwin pid'⟩
  rw [List.countP_eq_length_filter] at hone
  cases hl : l.filter (wins Op.claims j) with
  | nil =>
    rw [hl] at hf
    cases hf
  | cons x xs =>
    rw [hl] at hf hf' hone
    obtain rfl : xs = [] := List.length_eq_zero_iff.1 (by simpa using hone)
    rw [List.mem_singleton] at hf hf'
    have heq := hf'.trans hf.symm
    cases heq
    rfl

/-- What sets the progress of `j` is a task that has claimed it and not settled it yet. -/
theorem issues_progress {p : Proc} {h : Hist} (hi : issues app p h o)
    (ho : o.setsProgress = some j) :
    (⟨.claimJob j, true⟩ : Reply Op Op.Res) ∈ h ∧ ∀ x ∈ h, x.1.settles = none := by
  cases p with
  | runOne consumer m =>
    cases o with
    | initProgress i =>
      cases ho
      exact hi.2
    | writeProgress i pct =>
      cases ho
      exact hi.2
    | completeJob i result progress =>
      cases progress <;> cases ho
      exact hi.2
    | _ => cases ho
  | _ =>
    rw [issues_unset (by simp) hi] at ho
    cases ho

def progressIssues (app : App) (p : Proc) (h : Hist) (o : Op) : Prop :=
  (issues app p h o ∧ fills h o) ∧ climbing h o

theorem body_progress (app : App) (p : Proc) :
    Emits Valid (progressIssues app p) (fun _ _ => True) [] (body app p) :=
  (((body_emits app p).and (body_fills app p)).and (body_climbs app p)).mono (fun _ _ h => h)
    fun _ _ _ => trivial

theorem progress_recorded (hr : Reachable (system app) c) {r : o.Res} {l : List Ev}
    (h : .act pid o r :: l <:+ c.shared.log) : ∃ p, progressIssues app p (own pid l) o :=
  ((hr.recorded (fun _ _ _ _ _ he => exec_valid he) (body_progress app)).1 pid o r l h).imp
    fun _ hp => hp.2

/-- Before a task sets the progress of a batch that nobody retried, only the task itself has
reported percentages for it. -/
theorem reported_own (hr : Reachable (system app) c)
    (hj : c.shared.world.jobs.find? j = some row) (hb : row.type = .batch)
    (hno : c.shared.log.countP (wins Op.resets j) = 0) {p : Proc}
    (hi : issues app p (own pid c.shared.log) o) (ho : o.setsProgress = some j) {pct : Int}
    (hrep : Reported c.shared.log j pct) :
    pct = 0 ∨ pct ≤ 100 ∧
      ∃ r, (⟨.writeProgress j pct, r⟩ : Reply Op Op.Res) ∈ own pid c.shared.log := by
  refine hrep.imp_right ?_
  rintro ⟨pid', o', r', hmem, ho', hrep'⟩
  obtain ⟨hclaim, hopen⟩ := issues_progress hi ho
  obtain ⟨l₂, l₁, hl⟩ := List.append_of_mem hmem
  obtain ⟨p', ⟨hi', hfill⟩, -⟩ := progress_recorded hr ⟨l₂, hl.symm⟩
  obtain ⟨hclaim', -⟩ := issues_progress hi' ho'
  -- both have claimed the job, which was claimed once
  have hone : c.shared.log.countP (wins Op.claims j) ≤ 1 := by
    have h := batchOnce hr j
    unfold BatchOnce at h
    rw [hj] at h
    have := (h hb).2
    omega
  have hsub : l₁ ⊆ c.shared.log := fun x hx => by
    rw [hl]
    exact List.mem_append_right _ (List.mem_cons_of_mem _ hx)
  obtain rfl := one_claimer hone (mem_own.1 hclaim) (hsub (mem_own.1 hclaim'))
  have hown := mem_own.2 hmem
  cases o' with
  | initProgress i => cases hrep'
  | writeProgress i pct' =>
    cases ho'
    cases hrep'
    exact ⟨hfill.2.2, r', hown⟩
  | completeJob i result progress => exact absurd (hopen _ hown) (by simp [Op.settles])
  | _ => cases ho'

theorem progress_step {ch : Choice Env Proc} {ev : Ev} (hr : Reachable (system app) c)
    (hs : step (system app) c ch = some (ev, c'))
    (hj : c.shared.world.jobs.find? j = some row) (hb : row.type = .batch)
    (hno : c.shared.log.countP (wins Op.resets j) = 0) :
    ∃ row', c'.shared.world.jobs.find? j = some row' ∧ row'.type = .batch ∧
      ∀ p, row.progress = some p → ∃ p', row'.progress = some p' ∧ p ≤ p' := by
  obtain ⟨σ, hm, hi, hw, -⟩ :=
    hr.step_issued (fun _ _ _ _ _ he => exec_valid he) (body_progress app) hs
  have hid : row.id = j := Store.Table.find?_key hj
  refine ⟨onRow σ.world.clock row ev, by rw [hw]; exact move_row_some hm hj, ?_, fun p hp => ?_⟩
  · cases ev with
    | act pid o r => exact (congrArg (fun k => k.2.1) (onRow_fixed _ row o)).trans hb
    | _ => exact hb
  · cases ev with
    | act pid o r =>
      obtain ⟨-, p₀, -, ⟨hissue, hfill⟩, hclimb⟩ := hi
      have hrep := progress_reported hr j row hj p hp
      change ∃ p', (o.onRow σ.world.clock row).progress = some p' ∧ p ≤ p'
      rcases onRow_reported σ.world.clock row o with hsame | ⟨rfl, hzero⟩ | ⟨ho, p', hreps, hset⟩
      · exact ⟨p, hsame.trans hp, Int.le_refl _⟩
      · rw [hid] at hissue hclimb
        rcases reported_own hr hj hb hno hissue rfl hrep with rfl | ⟨-, r', hown⟩
        · exact ⟨0, hzero, Int.le_refl _⟩
        · exact absurd hown (hclimb p r')
      · refine ⟨p', hset, ?_⟩
        rw [hid] at ho
        have hlast := reported_own hr hj hb hno hissue ho hrep
        cases o with
        | initProgress i => cases hreps
        | writeProgress i pct =>
          cases ho
          cases hreps
          rcases hlast with rfl | ⟨-, r', hown⟩
          · exact hfill.2.1
          · exact hclimb p r' hown
        | completeJob i result progress =>
          obtain ⟨job, -, hprog, -⟩ := hfill
          cases hreps
          split at hprog
          · cases hprog
            rcases hlast with rfl | ⟨hle, -⟩
            · decide
            · exact hle
          · cases hprog
        | _ => cases ho
    | _ => exact ⟨p, hp, Int.le_refl _⟩

end Runs

theorem progress_climbs (app : App) (c c' : Cfg) (hr : Reachable (system app) c)
    (hl : Leads (system app) c c') (j : Uuid) (row row' : Job)
    (hj : c.shared.world.jobs.find? j = some row)
    (hj' : c'.shared.world.jobs.find? j = some row') (hb : row.type = .batch)
    (hno : c'.shared.log.countP (wins Op.resets j) = 0) :
    ∀ p, row.progress = some p → ∃ p', row'.progress = some p' ∧ p ≤ p' := by
  suffices h : ∃ r, c'.shared.world.jobs.find? j = some r ∧ r.type = .batch ∧
      ∀ p, row.progress = some p → ∃ p', r.progress = some p' ∧ p ≤ p' by
    obtain ⟨r, hfind, -, hclimb⟩ := h
    rw [hj', Option.some.injEq] at hfind
    exact hfind ▸ hclimb
  clear hj' row'
  induction hl with
  | refl => exact ⟨row, hj, hb, fun p hp => ⟨p, hp, Int.le_refl _⟩⟩
  | @step c₁ c₂ ch ev hl hs ih =>
    have hsuf : c₁.shared.log <:+ c₂.shared.log := (Leads.step .refl hs).log_suffix
    have hno₁ : c₁.shared.log.countP (wins Op.resets j) = 0 :=
      Nat.le_zero.1 (hno ▸ hsuf.sublist.countP_le)
    obtain ⟨r₁, hj₁, hb₁, hclimb₁⟩ := ih hno₁
    obtain ⟨r₂, hj₂, hb₂, hclimb₂⟩ := progress_step (hl.reachable hr) hs hj₁ hb₁ hno₁
    refine ⟨r₂, hj₂, hb₂, fun p hp => ?_⟩
    obtain ⟨p₁, hp₁, hle₁⟩ := hclimb₁ p hp
    obtain ⟨p₂, hp₂, hle₂⟩ := hclimb₂ p₁ hp₁
    exact ⟨p₂, hp₂, hle₁.trans hle₂⟩

def batchBegun : List (Choice Env Proc) := List.flatten
  [[.start (.submitJob 7 1 { type := .batch, payload := .null })], runs 0 5,
    [.start (.workerLoop "a" 1)], runs 1 5, runs 2 3]

def shownAt (c : Cfg) (p : Int) : Bool :=
  (c.shared.world.jobs.find? 1).any fun row => row.type = .batch && row.progress = some p

/-- The progress is 0, and 100 three steps of the task later. -/
def endsAtHundred (c : Cfg) : Bool :=
  shownAt c 0 && (exec? (system defaultApp) (fun _ _ => true) (runs 2 3) c).any
    fun c' => shownAt c' 100 && c'.shared.log.countP (wins Op.resets 1) = 0

theorem progress_climbs_batchBegun : ∃ c c' row row', Reachable (system defaultApp) c ∧
    Leads (system defaultApp) c c' ∧ c.shared.world.jobs.find? 1 = some row ∧
    c'.shared.world.jobs.find? 1 = some row' ∧ row.progress = some 0 ∧
    row'.progress = some 100 ∧ ∃ p', row'.progress = some p' ∧ 0 ≤ p' := by
  obtain ⟨c, hr, hp⟩ := reachable_of_replay defaultApp batchBegun endsAtHundred (by decide +kernel)
  rw [endsAtHundred, Bool.and_eq_true, Option.any_eq_true] at hp
  obtain ⟨hzero, c', hsteps, hend⟩ := hp
  rw [Bool.and_eq_true, decide_eq_true_eq] at hend
  obtain ⟨hhundred, hno⟩ := hend
  rw [shownAt, Option.any_eq_true] at hzero hhundred
  obtain ⟨row, hj, hrow⟩ := hzero
  obtain ⟨row', hj', hrow'⟩ := hhundred
  simp only [Bool.and_eq_true, decide_eq_true_eq] at hrow hrow'
  have hl : Leads (system defaultApp) c c' := Leads.exec? _ .refl hsteps
  exact ⟨c, c', row, row', hr, hl, hj, hj', hrow.2, hrow'.2,
    progress_climbs defaultApp c c' hr hl 1 row row' hj hj' hrow.1 hno 0 hrow.2⟩

end JobProcessor
