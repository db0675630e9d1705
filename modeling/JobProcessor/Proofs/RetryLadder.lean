import JobProcessor.Proofs.Settling

/-! The retry decision, and the ladder of a job that fails every time, for every
schedule the settings admit. The decision is defined just when no retry is asked for,
or the schedule has a delay for it that leads to an instant there is. -/

namespace JobProcessor

open Interleave Prog Store

/-- What `schedule_retry_or_fail` makes of `row` is `row'`: failed when the attempts are used
up, else handed off again with the delay of the schedule, its last one repeated. -/
structure RetryExact (settings : Settings) (row row' : Job) (w w' : World) (g : Hist) : Prop where
  found : w'.jobs.find? row.id = some row'
  others : ∀ i, i ≠ row.id → w'.jobs.find? i = w.jobs.find? i
  fixed : row'.fixed = row.fixed
  attempts : row'.attempts = row.attempts + 1
  failed : row'.status = .failed ↔ row.maxAttempts ≤ row.attempts + 1
  kept : row.maxAttempts ≤ row.attempts + 1 → w'.streams = w.streams ∧ w'.delayed = w.delayed
  requeued : ¬ row.maxAttempts ≤ row.attempts + 1 → row'.isSyncedToRedis = true ∧ ∃ delay,
    settings.retryBackoffSchedule[min row.attempts (settings.retryBackoffSchedule.length - 1)]? =
      some delay ∧
    (delay ≤ 0 → row'.status = .pending ∧ w'.delayed = w.delayed ∧
      w'.streams = w.streams.xadd (settings.streamForPriority row.priority) (some row.id)) ∧
    (0 < delay → ∃ now : Time, (⟨.now, now⟩ : Reply Op Op.Res) ∈ g ∧ row'.status = .scheduled ∧
      row'.scheduledAt = some (now + delay * 1000000) ∧ w'.streams = w.streams ∧
      w'.delayed = w.delayed.zadd row.id (now + delay * 1000000))

section Decision

variable {n : Nat} {app : App} {settings : Settings} {w w' : World} {row row' : Job} {h g : Hist}
  {delay : Int}

theorem backoffDelay_succ (attempts : Nat) (schedule : List Int) :
    backoffDelay (attempts + 1) schedule = schedule[min attempts (schedule.length - 1)]? := rfl

theorem retryExact_of_closed {c : List Op}
    (hd : row.maxAttempts ≤ (row.attempts : Int) + 1 ∨
      backoffDelay (row.attempts + 1) settings.retryBackoffSchedule = some delay)
    (ha : row'.attempts = row.attempts + 1)
    (hc : Closed settings w c row (retriedStatus settings row) row' w' g)
    (hat : row'.status = .scheduled → ∃ now : Time, (⟨.now, now⟩ : Reply Op Op.Res) ∈ g ∧
      row'.scheduledAt = some (now + delay * 1000000)) :
    RetryExact settings row row' w w' g := by
  by_cases hmax : row.maxAttempts ≤ (row.attempts : Int) + 1
  · have hs : retriedStatus settings row = .failed := by rw [retriedStatus, if_pos hmax]
    rw [hs] at hc
    exact ⟨hc.found, hc.others, hc.fixed, ha, iff_of_true hc.reached hmax,
      fun _ => ⟨hc.streams, hc.delayed (by simp)⟩, fun hn => absurd hmax hn⟩
  · have hdelay := hd.resolve_left hmax
    have hs : retriedStatus settings row = if delay ≤ 0 then .pending else .scheduled := by
      rw [retriedStatus, if_neg hmax, hdelay, Option.getD_some]
    have hne : row'.status ≠ .failed := by
      rw [hc.reached, hs]
      split <;> simp
    have hclaim : (retriedStatus settings row).claimable = true := by
      rw [hs]
      split <;> rfl
    refine ⟨hc.found, hc.others, hc.fixed, ha, iff_of_false hne hmax, fun h => absurd h hmax,
      fun _ => ⟨hc.synced hclaim, delay, (backoffDelay_succ _ _).symm.trans hdelay, ?_, ?_⟩⟩
    · intro hle
      rw [hs, if_pos hle] at hc
      exact ⟨hc.reached, hc.delayed (by simp), hc.streams⟩
    · intro hlt
      rw [hs, if_neg (by omega)] at hc
      obtain ⟨now, hnow, hdate⟩ := hat hc.reached
      obtain ⟨t, ht, hz⟩ := hc.scheduled rfl
      rw [hdate, Option.some.injEq] at ht
      exact ⟨now, hnow, hc.reached, hdate, hc.streams, ht ▸ hz⟩

end Decision

/-! ### The ladder -/

/-- A job that fails every time: as often as it can be claimed, it is run and goes to
`schedule_retry_or_fail`. Returns the number of runs. -/
def failingRuns (app : App) (id : Uuid) (error : Json) : Nat → Nat → Prg (Except Stop Nat)
  | 0, _ => Pure.pure (.error .outOfFuel)
  | fuel + 1, runs => do
    let won : Bool ← perform (.claimJob id)
    if won then do
      let row : Option Job ← perform (.getJob id none)
      match row with
      | none => Pure.pure (.ok runs)
      | some job => do
        match ← scheduleRetryOrFail app job error with
        | .error exc => Pure.pure (.error (.raised exc))
        | .ok _ => failingRuns app id error fuel (runs + 1)
    else Pure.pure (.ok runs)

/-- `o` hands the job off with the `k`-th delay of the schedule, the last one repeated. -/
def HandedAfter (settings : Settings) (row : Job) (g : Hist) (k : Nat) (o : Op) : Prop :=
  ∃ delay, settings.retryBackoffSchedule[min k (settings.retryBackoffSchedule.length - 1)]? =
      some delay ∧
    (delay ≤ 0 ∧ o = .xadd (settings.streamForPriority row.priority) row.id ∨
      0 < delay ∧ ∃ now : Time, (⟨.now, now⟩ : Reply Op Op.Res) ∈ g ∧
        o = .zadd row.id (now + delay * 1000000))

section Ladder

variable {n : Nat} {app : App} {settings : Settings} {w w' : World} {row row' : Job} {h g : Hist}

theorem HandedAfter.mono {k : Nat} {o : Op} (hsub : h ⊆ g) (hh : HandedAfter settings row h k o) :
    HandedAfter settings row g k o := by
  obtain ⟨delay, hd, hpos | ⟨hpos, now, hnow, ho⟩⟩ := hh
  · exact ⟨delay, hd, .inl hpos⟩
  · exact ⟨delay, hd, .inr ⟨hpos, now, hsub hnow, ho⟩⟩

theorem priority_of_fixed (hfix : row'.fixed = row.fixed) : row'.priority = row.priority := by
  simpa [Job.fixed] using congrArg (fun f => f.2.2.2.2.2.2) hfix

theorem maxAttempts_of_fixed (hfix : row'.fixed = row.fixed) :
    row'.maxAttempts = row.maxAttempts := by
  simpa [Job.fixed] using congrArg (fun f => f.2.2.1) hfix

theorem plans_attempts {T : Time} (hmax : row'.maxAttempts = row.maxAttempts) (k : Nat) :
    settings.plans { row' with attempts := k } T = settings.plans { row with attempts := k } T := by
  simp only [Settings.plans, hmax]

/-- Where an attempt leaves the job, and the handoff behind it. -/
structure Rung (settings : Settings) (row row' : Job) (w' : World) (c : List Op) (g : Hist) :
    Prop where
  found : w'.jobs.find? row.id = some row'
  fixed : row'.fixed = row.fixed
  attempts : row'.attempts = row.attempts + 1
  failed : row.maxAttempts ≤ row.attempts + 1 → row'.status = .failed ∧ commands g = c
  retried : ¬ row.maxAttempts ≤ row.attempts + 1 → row'.status.claimable = true ∧
    ∃ o, commands g = o :: c ∧ HandedAfter settings row g row.attempts o

theorem rung_of_closed {c : List Op} {job : Job} {delay : Int} {w₀ : World}
    (hid : job.id = row.id) (hfix : job.fixed = row.fixed) (hat : job.attempts = row.attempts)
    (hd : job.maxAttempts ≤ (job.attempts : Int) + 1 ∨
      backoffDelay (job.attempts + 1) settings.retryBackoffSchedule = some delay)
    (ha : row'.attempts = job.attempts + 1)
    (hc : Closed settings w₀ c job (retriedStatus settings job) row' w' g)
    (hdate : row'.status = .scheduled → ∃ now : Time, (⟨.now, now⟩ : Reply Op Op.Res) ∈ g ∧
      row'.scheduledAt = some (now + delay * 1000000)) :
    Rung settings row row' w' c g := by
  have hx := retryExact_of_closed hd ha hc hdate
  have hid' : row'.id = row.id := (Table.find?_key hc.found).trans hid
  have hprio : row'.priority = row.priority := priority_of_fixed (hc.fixed.trans hfix)
  have hmax : job.maxAttempts = row.maxAttempts := maxAttempts_of_fixed hfix
  refine ⟨hid ▸ hc.found, hc.fixed.trans hfix, by rw [ha, hat], ?_, ?_⟩
  · intro hle
    have hf := hx.failed.2 (by rw [hmax, hat]; exact hle)
    refine ⟨hf, ?_⟩
    rw [hc.issued, handoff, hf]
    rfl
  · intro hle
    obtain ⟨-, delay, hdelay, hnow, hlater⟩ := hx.requeued (by rw [hmax, hat]; exact hle)
    rw [hat] at hdelay
    by_cases hpos : delay ≤ 0
    · obtain ⟨hs, -⟩ := hnow hpos
      refine ⟨by rw [hs]; rfl, .xadd (settings.streamForPriority row.priority) row.id, ?_, delay,
        hdelay, .inl ⟨hpos, rfl⟩⟩
      rw [hc.issued, handoff, hs, hprio, hid']
      rfl
    · obtain ⟨now, hin, hs, hat', -⟩ := hlater (by omega)
      refine ⟨by rw [hs]; rfl, .zadd row.id (now + delay * 1000000), ?_, delay, hdelay,
        .inr ⟨by omega, now, hin, rfl⟩⟩
      rw [hc.issued, handoff, hs, hat', hid']
      rfl

/-- What follows the claim, up to the next one. -/
def failedRun (app : App) (error : Json) (fuel runs : Nat) (job : Job) : Prg (Except Stop Nat) := do
  match ← scheduleRetryOrFail app job error with
  | .error exc => Pure.pure (.error (.raised exc))
  | .ok _ => failingRuns app job.id error fuel (runs + 1)

theorem failingRuns_run {Q : World → Except Stop Nat → Hist → Prop} {F E : Env → Prop}
    {error : Json} {fuel runs : Nat} (hf : w.jobs.find? row.id = some row)
    (hc : row.status.claimable = true)
    (hgo : ∀ e e' w₁ g, F e → E e' → w₁.clock = w.clock + e.elapsed + e'.elapsed →
      InHand (claimedRow row (w.clock + e.elapsed)) w₁ → commands g = commands h →
      Ends (exec n) E Q (failedRun app error fuel runs (claimedRow row (w.clock + e.elapsed))) w₁ g) :
    EndsFrom (exec n) F E Q (failingRuns app row.id error (fuel + 1) runs) w h := by
  simp only [failingRuns, op_bind, mpure_eq]
  intro e he
  obtain ⟨w₁, hx, hrow⟩ := exec_claimed (n := n) (e := e) hf hc
  refine ⟨w₁, true, hx, fun e' he' => ⟨_, _, exec_getClaimed hrow, ?_⟩⟩
  rw [exec_clock hx] at hrow ⊢
  exact hgo e e' { w₁ with clock := w.clock + e.elapsed + e'.elapsed } _ he he' rfl
    ⟨rfl, row.progress, hrow⟩ rfl

theorem scheduleRetryOrFail_uses (job : Job) (error : Json) :
    Uses Valid (fun o => ∀ c, o ≠ .semAcquire c) (scheduleRetryOrFail app job error) := by
  refine (uses_iff []).1 ((scheduleRetryOrFail_emits job error []).mono ?_ fun _ _ _ => trivial)
  rintro g o ho c rfl
  exact ho

theorem failingRuns_uses (id : Uuid) (error : Json) (fuel runs : Nat) :
    Uses Valid (fun o => ∀ c, o ≠ .semAcquire c) (failingRuns app id error fuel runs) := by
  induction fuel generalizing runs with
  | zero => trivial
  | succ fuel ih =>
    simp only [failingRuns, op_bind, mpure_eq]
    refine Uses.act (by simp) fun won _ => ?_
    split
    · refine Uses.act (by simp) fun found _ => ?_
      split
      · trivial
      · refine Uses.bind (scheduleRetryOrFail_uses _ _) fun out => ?_
        split
        · trivial
        · exact ih _
    · trivial

theorem ends_later {α : Type} {p : Prg α} {E : Env → Prop}
    (hp : Uses Valid (fun o => ∀ c, o ≠ .semAcquire c) p) :
    Ends (exec n) E (fun w' _ _ => w.clock ≤ w'.clock) p w h := by
  refine (((uses_iff h).2 hp).ends (I := fun w' _ => w.clock ≤ w'.clock) ?_ le_rfl).mono
    fun _ _ _ hend => hend.2
  intro g o e w₁ _ ho hw
  obtain ⟨w₂, r, hx⟩ := exec_total (n := n) (e := e) (w := w₁) ho
  exact ⟨w₂, r, hx, exec_valid hx, hw.trans (exec_later hx)⟩

theorem failedRun_ends {Q : World → Except Stop Nat → Hist → Prop} {E : Env → Prop} {T : Time}
    {error : Json} {fuel runs : Nat} {now : Time} (hT : app.settings.plans row T = true)
    (hh : InHand (claimedRow row now) w)
    (hgo : ∀ w' row' g, w.clock ≤ w'.clock → w'.clock ≤ T →
      Rung app.settings row row' w' (commands h) g →
        Ends (exec n) E (fun w' out g => w'.clock ≤ T → Q w' out g)
          (failingRuns app row.id error fuel (runs + 1)) w' g) :
    Ends (exec n) E (fun w' out g => w'.clock ≤ T → Q w' out g)
      (failedRun app error fuel runs (claimedRow row now)) w h := by
  have hT' : app.settings.plans (claimedRow row now) T = true := hT
  refine Ends.bind ((scheduleRetryOrFail_ends hT' hh error E).and
    (ends_later (scheduleRetryOrFail_uses _ _))) ?_
  rintro w' out g ⟨hdecided, hlater⟩
  by_cases hlate : ¬ w'.clock ≤ T
  · cases out with
    | error exc => exact fun hle => absurd hle hlate
    | ok won =>
      refine (ends_later (failingRuns_uses _ _ _ _)).mono fun w'' _ _ hlater' hle => ?_
      exact absurd (hlater'.trans hle) hlate
  · have hle := not_not.1 hlate
    obtain ⟨delay, hd, rfl, -, row', ha, hcl, hdate⟩ := hdecided hle
    refine hgo w' row' g hlater hle ?_
    exact @rung_of_closed app.settings w' row row' g _ (claimedRow row now) delay w rfl rfl rfl hd ha
      hcl hdate

theorem failingRuns_over {E : Env → Prop} {error : Json} {fuel runs : Nat} {id : Uuid}
    (hf : w.jobs.find? id = some row) (hs : row.status = .failed) :
    Ends (exec n) E (fun w' out g => out = .ok runs ∧ w'.jobs.find? id = some row ∧
        commands g = commands h) (failingRuns app id error (fuel + 1) runs) w h := by
  simp only [failingRuns, op_bind, mpure_eq]
  intro e _
  obtain ⟨w', b, he⟩ := exec_total (n := n) (o := .claimJob id) (e := e) (w := w) (by simp)
  have hlost : won (.claimJob id) b = false := by
    rw [exec_target he rfl, hf]
    simp [Op.guard, hs, JobStatus.claimable]
  have hrow := exec_row_some he hf
  have hon : Op.onRow w'.clock row (.claimJob id) = row := by
    simp [Op.onRow, hs, JobStatus.claimable]
  change b = false at hlost
  refine ⟨w', b, he, ?_⟩
  rw [hlost]
  exact ⟨rfl, hon ▸ hrow, rfl⟩

theorem failingRuns_ends {T : Time} (fuel runs left : Nat) (hf : w.jobs.find? row.id = some row)
    (hc : row.status.claimable = true)
    (hleft : (left : Int) = max (row.maxAttempts - row.attempts - 1) 0)
    (hT : ∀ k, app.settings.plans { row with attempts := k } T = true) (hfuel : left + 1 < fuel)
    (error : Json) (E : Env → Prop) :
    Ends (exec n) E
      (fun w' out g => w'.clock ≤ T → out = .ok (runs + left + 1) ∧
        (∃ row', w'.jobs.find? row.id = some row' ∧ row'.status = .failed) ∧
        ∃ new, commands g = new ++ commands h ∧
          List.Forall₂ (HandedAfter app.settings row g) (List.range' row.attempts left) new.reverse)
      (failingRuns app row.id error fuel runs) w h := by
  induction left generalizing fuel runs row w h with
  | zero =>
    obtain ⟨fuel, rfl⟩ : ∃ k, fuel = k + 2 := ⟨fuel - 2, by omega⟩
    have hmax : row.maxAttempts ≤ (row.attempts : Int) + 1 := by omega
    refine EndsFrom.ends (failingRuns_run hf hc ?_) fun _ => id
    intro e e' w₁ g _ _ _ hh hcom
    refine failedRun_ends (hT row.attempts) hh ?_
    intro w' row' g' _ _ hr
    refine (failingRuns_over hr.found (hr.failed hmax).1).mono ?_
    rintro w'' out g'' ⟨rfl, hf', hcom'⟩ -
    exact ⟨rfl, ⟨row', hf', (hr.failed hmax).1⟩, [],
      hcom'.trans ((hr.failed hmax).2.trans hcom), .nil⟩
  | succ left ih =>
    obtain ⟨fuel, rfl⟩ : ∃ k, fuel = k + 1 := ⟨fuel - 1, by omega⟩
    have hmax : ¬ row.maxAttempts ≤ (row.attempts : Int) + 1 := by omega
    refine EndsFrom.ends (failingRuns_run hf hc ?_) fun _ => id
    intro e e' w₁ g _ _ _ hh hsame
    refine failedRun_ends (hT row.attempts) hh ?_
    intro w' row' g' _ _ hr
    obtain ⟨hclaim, o, hcom, ho⟩ := hr.retried hmax
    have hid : row'.id = row.id := Table.find?_key hr.found
    have hmax' : row'.maxAttempts = row.maxAttempts := maxAttempts_of_fixed hr.fixed
    have hleft' : (left : Int) = max (row'.maxAttempts - row'.attempts - 1) 0 := by
      rw [hmax', hr.attempts]
      omega
    have hT' : ∀ k, app.settings.plans { row' with attempts := k } T = true := fun k =>
      (plans_attempts hmax' k).trans (hT k)
    have hnext := ih (h := g') fuel (runs + 1) (hid ▸ hr.found) hclaim hleft' hT' (by omega)
    rw [hid] at hnext
    refine hnext.suffix.mono ?_
    rintro w'' out g'' ⟨hend, hsuf⟩ hle
    obtain ⟨rfl, hfail, new, hnew, hall⟩ := hend hle
    refine ⟨?_, hfail, new ++ [o], ?_, ?_⟩
    · rw [show runs + 1 + left + 1 = runs + (left + 1) + 1 by omega]
    · rw [hnew, hcom, hsame, List.append_assoc]
      rfl
    · rw [List.reverse_append, List.range'_succ, ← hr.attempts]
      refine .cons (ho.mono hsuf.subset) ?_
      refine hall.imp ?_
      intro k o' hk
      unfold HandedAfter at hk ⊢
      rw [priority_of_fixed hr.fixed, hid] at hk
      exact hk

/-- A job comes to a failure whose retry cannot be planned: up to `k` it is retried. -/
theorem failingRuns_raises {T : Time} {k : Nat} (fuel runs : Nat)
    (hf : w.jobs.find? row.id = some row) (hc : row.status.claimable = true)
    (hle : row.attempts ≤ k) (hT : app.settings.plans { row with attempts := k } T = false)
    (error : Json) :
    EndsFrom (exec n) (fun e => w.clock + e.elapsed = T) (fun e => e.elapsed = 0)
      (fun w' out _ => w'.clock ≤ T → ∃ stop, out = .error stop)
      (failingRuns app row.id error fuel runs) w h := by
  induction fuel generalizing runs row w h with
  | zero => exact fun _ => ⟨_, rfl⟩
  | succ fuel ih =>
    refine failingRuns_run hf hc ?_
    intro e e' w₁ g he he' hclock hh _
    have hT₁ : w₁.clock = T := by
      rw [hclock, he', he]
      exact Int.add_zero T
    by_cases hnow : app.settings.plans row T = true
    · refine failedRun_ends hnow hh ?_
      intro w' row' g' hlater hearlier hr
      have hne : row.attempts ≠ k := by
        rintro rfl
        rw [hT] at hnow
        cases hnow
      have hmax : ¬ row.maxAttempts ≤ (k : Int) + 1 := fun hmax => by
        rw [Settings.plans_iff.2 (.inl hmax)] at hT
        cases hT
      obtain ⟨hclaim, -⟩ := hr.retried (by omega)
      have hid : row'.id = row.id := Table.find?_key hr.found
      have hT' : app.settings.plans { row' with attempts := k } T = false :=
        (plans_attempts (maxAttempts_of_fixed hr.fixed) k).trans hT
      have hle' : row'.attempts ≤ k := by
        rw [hr.attempts]
        omega
      have hnext := ih (h := g') (runs + 1) (hid ▸ hr.found) hclaim hle' hT'
      rw [hid] at hnext
      refine hnext.ends fun e'' he'' => ?_
      rw [he'']
      exact (Int.add_zero _).trans (hearlier.antisymm (hT₁ ▸ hlater))
    · refine Ends.bind ((scheduleRetryOrFail_raises error _).ends fun e'' he'' => ?_) ?_
      · rw [he'', hT₁]
        exact (Int.add_zero T).symm ▸ hnow
      · rintro w' out g' ⟨⟨exc, rfl⟩, -⟩
        exact fun _ => ⟨_, rfl⟩

end Ladder

/-- The ladder of `row`, up to `T`: as many runs as it has attempts, the handoffs between
them as the schedule says, and the job failed at the end. -/
def WalksLadder (app : App) (error : Json) (row : Job) (w : World) (T : Time) : Prop :=
  ∃ fuel, ∀ env, ∃ w' out g,
    (failingRuns app row.id error fuel 0).trace (exec app.settings.workerConcurrency) env w [] =
      some (w', out, g) ∧
    (w'.clock ≤ T → out = .ok (max 1 row.maxAttempts).toNat ∧
      (∃ row', w'.jobs.find? row.id = some row' ∧ row'.status = .failed) ∧
      List.Forall₂ (HandedAfter app.settings row g)
        (List.range ((max 1 row.maxAttempts).toNat - 1)) (commands g).reverse)

/-- The decision is the one of the schedule just when the retry that is due can be planned
at the instant it is taken; and so is the ladder just when every retry that is due on it
can be planned at `T`. -/
theorem retry_decision_iff (app : App) (error : Json) :
    (∀ env row w, InHand row w →
      ((∃ w' row' g, (scheduleRetryOrFail app row error).trace (exec app.settings.workerConcurrency)
          env w [] = some (w', .ok true, g) ∧ RetryExact app.settings row row' w w' g) ↔
        app.settings.plans row (w.clock + (env 0).elapsed) = true)) ∧
    ∀ row w T, w.jobs.find? row.id = some row → row.status.claimable = true → row.attempts = 0 →
      w.clock ≤ T →
      (WalksLadder app error row w T ↔ ∀ k, app.settings.plans { row with attempts := k } T = true) := by
  refine ⟨fun env row w hh => ⟨?_, fun hplans => ?_⟩, fun row w T hf hc h0 hle => ⟨?_, ?_⟩⟩
  · rintro ⟨w', row', g, ht, -⟩
    by_contra hno
    have hraises := @scheduleRetryOrFail_raises app.settings.workerConcurrency app w row [] error
      fun _ => True
    obtain ⟨w₁, out, g₁, ht₁, ⟨exc, rfl⟩, -⟩ := hraises.trace env hno fun _ => trivial
    rw [ht] at ht₁
    cases ht₁
  · obtain ⟨delay, hd⟩ : ∃ delay, row.maxAttempts ≤ (row.attempts : Int) + 1 ∨
        backoffDelay (row.attempts + 1) app.settings.retryBackoffSchedule = some delay :=
      exists_delay hplans
    have hdecides := scheduleRetryOrFail_decides (n := app.settings.workerConcurrency) (h := []) hd
      hh error fun _ => True
    obtain ⟨w', out, g, ht, rfl, -, row', ha, hcl, hdate⟩ :=
      hdecides.trace env hplans fun _ => trivial
    exact ⟨w', row', g, ht, retryExact_of_closed hd ha hcl hdate⟩
  · rintro ⟨fuel, hall⟩ k
    by_contra hno
    rw [Bool.not_eq_true] at hno
    have hraises := failingRuns_raises (n := app.settings.workerConcurrency) (h := []) fuel 0 hf hc
      (h0.trans_le (Nat.zero_le k)) hno error
    obtain ⟨w₁, out, g₁, ht₁, hstop, hle₁⟩ :=
      (endsFrom_still hraises (fun _ he => he) hle).trace (reaching w.clock T) (reaching_elapsed hle)
        fun _ => rfl
    obtain ⟨w', out', g, ht, hdone⟩ := hall (reaching w.clock T)
    rw [ht₁] at ht
    cases ht
    obtain ⟨stop, rfl⟩ := hstop hle₁
    obtain ⟨hout, -⟩ := hdone hle₁
    cases hout
  · intro hT
    refine ⟨(max 1 row.maxAttempts).toNat - 1 + 2, fun env => ?_⟩
    have hleft : ((max 1 row.maxAttempts).toNat - 1 : Nat) =
        max (row.maxAttempts - (row.attempts : Int) - 1) 0 := by omega
    have hends := failingRuns_ends (n := app.settings.workerConcurrency) (h := [])
      ((max 1 row.maxAttempts).toNat - 1 + 2) 0 ((max 1 row.maxAttempts).toNat - 1) hf hc hleft hT
      (by omega) error fun _ => True
    obtain ⟨w', out, g, ht, hdone⟩ := hends.trace env fun _ => trivial
    refine ⟨w', out, g, ht, fun hle' => ?_⟩
    obtain ⟨rfl, hfailed, new, hnew, hhanded⟩ := hdone hle'
    refine ⟨?_, hfailed, ?_⟩
    · rw [show 0 + ((max 1 row.maxAttempts).toNat - 1) + 1 = (max 1 row.maxAttempts).toNat by omega]
    · rw [h0, ← List.range_eq_range'] at hhanded
      rw [hnew]
      simpa [commands] using hhanded

def noSchedule : App :=
  { defaultApp with
    settings := { retryBackoffSchedule := [], checkTimeoutInvariant := Settings.default_timeouts } }

def firstAttempt : Job :=
  { Repository.NewJob.row { id := 1, type := .webhook, payload := .null, userId := some 8 } 0 with
    status := .processing }

def firstFailure : World :=
  { World.init with jobs := ⟨[firstAttempt], by decide, by decide⟩ }

def beforeAttempt : Job := { firstAttempt with status := .pending }

def beforeFailure : World :=
  { World.init with jobs := ⟨[beforeAttempt], by decide, by decide⟩ }

/-- Its first failure raises instead of scheduling a retry. -/
theorem retry_raises_noSchedule :
    ¬ ∃ w' row' g, (scheduleRetryOrFail noSchedule firstAttempt (errorJson "E" "x")).trace (exec 10)
      (fun _ => {}) firstFailure [] = some (w', .ok true, g) ∧
        RetryExact noSchedule.settings firstAttempt row' firstFailure w' g := by
  rintro ⟨w', row', g, ht, -⟩
  cases ht

/-- With the default schedule it is queued again at once, and a job that fails every time
runs four times. -/
theorem retry_decision_firstFailure :
    (∃ w' row' g, (scheduleRetryOrFail defaultApp firstAttempt (errorJson "E" "x")).trace (exec 10)
      (fun _ => {}) firstFailure [] = some (w', .ok true, g) ∧ row'.attempts = 1 ∧
        w'.jobs.find? 1 = some row') ∧
    WalksLadder defaultApp (errorJson "E" "x") beforeAttempt beforeFailure 3600000000 := by
  obtain ⟨hone, hall⟩ := retry_decision_iff defaultApp (errorJson "E" "x")
  refine ⟨?_, (hall beforeAttempt beforeFailure 3600000000 rfl rfl rfl (by decide)).2 ?_⟩
  · obtain ⟨w', row', g, ht, hx⟩ :=
      (hone (fun _ => {}) firstAttempt firstFailure ⟨rfl, none, rfl⟩).2 (by decide)
    exact ⟨w', row', g, ht, hx.attempts, hx.found⟩
  · exact fun k => Settings.plans_of_schedule (by decide) (by decide) _

end JobProcessor
