import JobProcessor.Interleave.Alone
import JobProcessor.Proofs.Issues

/-! Settling a job with nothing in between: the row after the statement, the handoff
behind it, and everything else as it was. -/

namespace JobProcessor

open Interleave Prog Store

def commands (h : Hist) : List Op := (h.map Sigma.fst).filter Op.toRedis

def NoHandler (h : Hist) : Prop := ∀ x ∈ h, ∀ i type, x.1 ≠ .startHandler i type

theorem commands_cons (x : Reply Op Op.Res) (h : Hist) :
    commands (x :: h) = if x.1.toRedis = true then x.1 :: commands h else commands h := by
  unfold commands
  rw [List.map_cons, List.filter_cons]

def handoffs (j : Uuid) (h : Hist) : List Op :=
  (commands h).filter fun o => o.handsOff = some j

theorem handoffs_cons {j : Uuid} {h : Hist} {x : Reply Op Op.Res} (hx : x.1.handsOff = none) :
    handoffs j (x :: h) = handoffs j h := by
  unfold handoffs
  rw [commands_cons]
  split
  · rw [List.filter_cons_of_neg (by simp [hx])]
  · rfl

theorem handoffs_cons_some {i j : Uuid} {h : Hist} {x : Reply Op Op.Res}
    (hx : x.1.handsOff = some j) :
    handoffs i (x :: h) = (if i = j then [x.1] else []) ++ handoffs i h := by
  have hredis : x.1.toRedis = true := by
    cases ho : x.1 <;> simp_all [Op.handsOff, Op.toRedis]
  unfold handoffs
  rw [commands_cons, if_pos hredis, List.filter_cons]
  by_cases hi : i = j
  · simp [hx, hi]
  · have hi' : ¬ j = i := fun h => hi h.symm
    simp [hx, hi, hi']

def requeue (settings : Settings) (row : Job) : Op :=
  match row.status, row.scheduledAt with
  | .scheduled, some scheduledAt => .zadd row.id scheduledAt
  | _, _ => .xadd (settings.streamForPriority row.priority) row.id

theorem NoHandler.cons {h : Hist} (hh : NoHandler h) {x : Reply Op Op.Res}
    (hx : ∀ i type, x.1 ≠ .startHandler i type) : NoHandler (x :: h) := by
  intro y hy
  rcases List.mem_cons.1 hy with rfl | hy
  · exact hx
  · exact hh y hy

/-- Where a failed attempt at `row` leaves it. -/
def retriedStatus (settings : Settings) (row : Job) : JobStatus :=
  if row.maxAttempts ≤ row.attempts + 1 then .failed
  else if (backoffDelay (row.attempts + 1) settings.retryBackoffSchedule).getD 0 ≤ 0 then .pending
  else .scheduled

/-- A failed attempt at `row` needs no retry, or it has a delay that can be added to the
instant `now`. -/
def Settings.plans (settings : Settings) (row : Job) (now : Time) : Bool :=
  decide (row.maxAttempts ≤ row.attempts + 1) ||
    (backoffDelay (row.attempts + 1) settings.retryBackoffSchedule).any fun delay =>
      decide (delay ≤ 0) || decide (now + delay * 1000000 ≤ maxInstant)

theorem retriedStatus_ne_processing (settings : Settings) (row : Job) :
    retriedStatus settings row ≠ .processing := by
  unfold retriedStatus
  split
  · simp
  · split <;> simp

/-- The row a worker reads after its claim. -/
def claimedRow (row : Job) (now : Time) : Job :=
  { row with status := .processing, startedAt := some now }

/-- `row` is processing, as far as the table goes; its progress may have moved on. -/
structure InHand (row : Job) (w : World) : Prop where
  processing : row.status = .processing
  found : ∃ p, w.jobs.find? row.id = some { row with progress := p }

def handoff (settings : Settings) (row : Job) : List Op :=
  match row.status, row.scheduledAt with
  | .pending, _ => [.xadd (settings.streamForPriority row.priority) row.id]
  | .scheduled, some scheduledAt => [.zadd row.id scheduledAt]
  | _, _ => []

/-- The attempt at `row` is over. Since `w₀`, with the commands `c₀` behind it, `row'` has
come into the table with `status` and was handed off if it has to be, and that is all. -/
structure Closed (settings : Settings) (w₀ : World) (c₀ : List Op) (row : Job)
    (status : JobStatus) (row' : Job) (w : World) (g : Hist) : Prop where
  found : w.jobs.find? row.id = some row'
  fixed : row'.fixed = row.fixed
  reached : row'.status = status
  others : ∀ i, i ≠ row.id → w.jobs.find? i = w₀.jobs.find? i
  streams : w.streams = if status = .pending then
    w₀.streams.xadd (settings.streamForPriority row.priority) (some row.id) else w₀.streams
  delayed : status ≠ .scheduled → w.delayed = w₀.delayed
  scheduled : status = .scheduled →
    ∃ t, row'.scheduledAt = some t ∧ w.delayed = w₀.delayed.zadd row.id t
  issued : commands g = handoff settings row' ++ c₀
  synced : status.claimable = true → row'.isSyncedToRedis = true

section Settling

variable {n : Nat} {app : App} {settings : Settings} {w₀ w w' : World} {row : Job} {h : Hist}
  {o : Op} {e : Env} {r : o.Res}

theorem exec_claimed (hf : w.jobs.find? row.id = some row) (hc : row.status.claimable = true) :
    ∃ w', exec n (.claimJob row.id) e w = some (w', true) ∧
      w'.jobs.find? row.id = some (claimedRow row w'.clock) := by
  obtain ⟨w', b, he⟩ := exec_total (n := n) (o := .claimJob row.id) (e := e) (w := w) (by simp)
  obtain rfl : b = true := by
    have hwon := exec_target he rfl
    rw [hf, Option.any_some] at hwon
    exact hwon.trans (by simp [Op.guard, hc])
  refine ⟨w', he, ?_⟩
  rw [exec_row_some he hf]
  simp [Op.onRow, hc, claimedRow]

theorem exec_getClaimed {now : Time} (hf : w.jobs.find? row.id = some (claimedRow row now)) :
    exec n (.getJob row.id none) e w =
      some ({ w with clock := w.clock + e.elapsed }, some (claimedRow row now)) := by
  simp only [exec, Repository.getJob, hf]

/-- A run that stands still once `T` is reached. -/
theorem endsFrom_still {α : Type} {p : Prg α} {Q : World → α → Hist → Prop} {F : Env → Prop}
    {T : Time} (hp : EndsFrom (exec n) F (fun e => e.elapsed = 0) Q p w h)
    (hF : ∀ e, F e → w.clock + e.elapsed = T) (hle : w.clock ≤ T) :
    EndsFrom (exec n) F (fun e => e.elapsed = 0) (fun w' a g => Q w' a g ∧ w'.clock ≤ T) p w h := by
  cases p with
  | pure a => exact ⟨hp, hle⟩
  | act o k =>
    intro e he
    obtain ⟨w', r, hx, hk⟩ := hp e he
    refine ⟨w', r, hx, (hk.keeps (f := World.clock) fun _ _ _ _ _ => exec_still).mono ?_⟩
    rintro w'' a g ⟨hQ, hclock⟩
    exact ⟨hQ, (hclock.trans ((exec_clock hx).trans (hF e he))).le⟩

theorem trace_later {α : Type} {p : Prg α} {env : Nat → Env} {a : α} {g : Hist}
    (ht : p.trace (exec n) env w h = some (w', a, g)) : w.clock ≤ w'.clock := by
  induction p generalizing env w h with
  | pure b =>
    cases ht
    exact Int.le_refl _
  | act o k ih =>
    simp only [trace] at ht
    split at ht
    · cases ht
    · rename_i hx
      exact (exec_later hx).trans (ih _ ht)

/-- With the next decision `T` is reached, and a handler given up; then time stands still. -/
def reaching (now T : Time) : Nat → Env
  | 0 => { elapsed := (T - now).toNat, answer := true }
  | _ + 1 => {}

theorem reaching_elapsed {now T : Time} (hle : now ≤ T) :
    now + ((reaching now T 0).elapsed : Int) = T := by
  change now + ((T - now).toNat : Int) = T
  rw [Int.toNat_of_nonneg (Int.sub_nonneg.2 hle), add_sub_cancel]

theorem InHand.won (hh : InHand row w) (ho : o.settles = some row.id)
    (he : exec n o e w = some (w', r)) : won o r = true := by
  have htarget : o.target = some row.id := by
    cases o <;> first | exact ho | cases ho
  obtain ⟨p, hp⟩ := hh.found
  have hst := hh.processing
  rw [exec_target he htarget, hp, Option.any_some]
  cases o <;> simp_all [Op.settles, Op.guard]

theorem InHand.settle (hh : InHand row w) (ho : o.settles = some row.id)
    (he : exec n o e w = some (w', r)) :
    (∃ p, w'.jobs.find? row.id = some (o.onRow w'.clock { row with progress := p })) ∧
      (∀ i, i ≠ row.id → w'.jobs.find? i = w.jobs.find? i) ∧ w'.streams = w.streams ∧
      w'.delayed = w.delayed ∧ commands (⟨o, r⟩ :: h) = commands h := by
  have hredis : o.toRedis = false := by
    cases o <;> first | rfl | cases ho
  have hwrites : o.writes = [row.id] := by
    cases o <;> simp_all [Op.settles, Op.writes]
  have hcreate : ∀ m, o ≠ .createJob m := by
    rintro m rfl
    cases ho
  obtain ⟨hst, hde⟩ := exec_redis he hredis
  obtain ⟨p, hp⟩ := hh.found
  refine ⟨⟨p, exec_row_some he hp⟩, ?_, hst, hde, ?_⟩
  · intro i hi
    apply exec_row_other he hcreate
    rw [hwrites, List.mem_singleton]
    exact hi
  · rw [commands_cons, hredis, if_neg (by simp)]

theorem InHand.close (settings : Settings) (hh : InHand row w) (ho : o.settles = some row.id)
    (he : exec n o e w = some (w', r)) (status : JobStatus)
    (hs : ∀ now p, (o.onRow now { row with progress := p }).status = status)
    (hc : status.claimable = false) :
    ∃ p, Closed settings w (commands h) row status (o.onRow w'.clock { row with progress := p })
      w' (⟨o, r⟩ :: h) := by
  obtain ⟨⟨p, hp⟩, hothers, hst, hde, hcom⟩ := hh.settle (h := h) ho he
  have hpending : status ≠ .pending := by
    rintro rfl
    cases hc
  have hscheduled : status ≠ .scheduled := by
    rintro rfl
    cases hc
  refine ⟨p, hp, onRow_fixed _ _ _, hs _ p, hothers, ?_, fun _ => hde, ?_, ?_, ?_⟩
  · rw [if_neg hpending, hst]
  · exact fun h => absurd h hscheduled
  · rw [hcom]
    unfold handoff
    rw [hs]
    split
    · exact absurd rfl hpending
    · exact absurd rfl hscheduled
    · rfl
  · rw [hc]
    exact fun h => nomatch h

theorem backoffDelay_some {schedule : List Int} (h : schedule ≠ []) (attempts : Nat) :
    ∃ delay, backoffDelay attempts schedule = some delay := by
  have hpos := List.length_pos_iff.2 h
  refine ⟨_, List.getElem?_eq_getElem ?_⟩
  omega

/-- What happened before the base world does not matter if it left everything but the
row. -/
theorem Closed.rebase {w₁ : World} {c₀ c₁ : List Op} {status : JobStatus} {row' : Job} {g : Hist}
    (hc : Closed settings w₁ c₁ row status row' w g)
    (hothers : ∀ i, i ≠ row.id → w₁.jobs.find? i = w₀.jobs.find? i)
    (hst : w₁.streams = w₀.streams) (hde : w₁.delayed = w₀.delayed) (hcom : c₁ = c₀) :
    Closed settings w₀ c₀ row status row' w g where
  found := hc.found
  fixed := hc.fixed
  reached := hc.reached
  others i hi := (hc.others i hi).trans (hothers i hi)
  streams := hst ▸ hc.streams
  delayed hs := (hc.delayed hs).trans hde
  scheduled hs := hde ▸ hc.scheduled hs
  issued := hcom ▸ hc.issued
  synced := hc.synced

theorem Closed.relabel {c₀ : List Op} {status status' : JobStatus} {row' : Job} {g : Hist}
    (hc : Closed settings w₀ c₀ row status row' w g) (hs : status' = status) :
    Closed settings w₀ c₀ row status' row' w g := by
  subst hs
  exact hc

theorem handoff_ends {α : Type} {row' : Job} (settings : Settings) (hf : w.jobs.find? row.id = some row')
    (hfix : row'.fixed = row.fixed) (ho : handoff settings row' = [o]) (a : α) (E : Env → Prop) :
    Ends (exec n) E
      (fun w' out g => out = a ∧ (NoHandler h → NoHandler g) ∧
        Closed settings w (commands h) row row'.status { row' with isSyncedToRedis := true } w' g)
      (.act o fun _ => .act (.markSynced row.id) fun _ => .pure a) w h := by
  have hid : row'.id = row.id := Table.find?_key hf
  have hprio : row'.priority = row.priority := by
    simpa [Job.fixed] using congrArg (fun f => f.2.2.2.2.2.2) hfix
  have hdone : handoff settings { row' with isSyncedToRedis := true } = [o] := ho
  have hmark := Repository.find?_markSynced hf
  have hothers : ∀ i, i ≠ row.id →
      (Repository.markSynced w.jobs row.id).1.find? i = w.jobs.find? i :=
    fun i hi => Repository.find?_markSynced_ne hi
  unfold handoff at ho
  split at ho
  · rename_i hs
    obtain rfl := List.singleton_inj.1 ho
    intro e _
    refine ⟨_, _, rfl, fun e' _ => ⟨_, _, rfl, rfl, ?_, ?_⟩⟩
    · exact fun hn => (hn.cons (by simp)).cons (by simp)
    · refine ⟨hmark, hfix, rfl, hothers, ?_, fun _ => rfl, ?_, ?_, fun _ => rfl⟩
      · rw [if_pos hs, ← hprio, ← hid]
      · rw [hs]
        exact fun h => nomatch h
      · rw [hdone]
        rfl
  · rename_i t hs ht
    obtain rfl := List.singleton_inj.1 ho
    intro e _
    refine ⟨_, _, rfl, fun e' _ => ⟨_, _, rfl, rfl, ?_, ?_⟩⟩
    · exact fun hn => (hn.cons (by simp)).cons (by simp)
    · refine ⟨hmark, hfix, rfl, hothers, ?_, ?_, fun _ => ⟨t, ht, by rw [← hid]⟩, ?_, fun _ => rfl⟩
      · rw [hs]
        rfl
      · exact fun h => absurd hs h
      · rw [hdone]
        rfl
  · cases ho

theorem InHand.sendBack {α : Type} {o' : Op} (settings : Settings) (hh : InHand row w)
    (row' : Option Int → Job) (ho : o.settles = some row.id)
    (hrow : ∀ now p, o.onRow now { row with progress := p } = row' p)
    (ho' : ∀ p, handoff settings (row' p) = [o']) (a b : α) (E : Env → Prop) :
    Ends (exec n) E
      (fun w' out g => out = a ∧ (NoHandler h → NoHandler g) ∧ ∃ p,
        Closed settings w (commands h) row (row' p).status
          { row' p with isSyncedToRedis := true } w' g)
      (.act o fun r => if JobProcessor.won o r = true then
        .act o' fun _ => .act (.markSynced row.id) fun _ => .pure a else .pure b) w h := by
  intro e _
  have hnone : ∀ x : Reply Op Op.Res, x.1 = o → ∀ i type, x.1 ≠ .startHandler i type := by
    rintro x rfl i type hx
    rw [hx] at ho
    cases ho
  obtain ⟨w', r, he⟩ := exec_total (n := n) (o := o) (e := e) (w := w) (by rintro c rfl; cases ho)
  obtain ⟨⟨p, hp⟩, hothers, hstr, hdel, hcom⟩ := hh.settle (h := h) ho he
  have hfix := onRow_fixed w'.clock { row with progress := p } o
  rw [hrow] at hp hfix
  refine ⟨w', r, he, ?_⟩
  beta_reduce
  rw [if_pos (hh.won ho he)]
  refine (handoff_ends settings hp hfix (ho' p) a E).mono ?_
  rintro w'' out g ⟨rfl, hn, hcl⟩
  exact ⟨rfl, fun h0 => hn (h0.cons (hnone _ rfl)), p, hcl.rebase hothers hstr hdel hcom⟩

theorem Settings.plans_iff {row : Job} {now : Time} : settings.plans row now = true ↔
    row.maxAttempts ≤ (row.attempts : Int) + 1 ∨
      ∃ delay, backoffDelay (row.attempts + 1) settings.retryBackoffSchedule = some delay ∧
        (delay ≤ 0 ∨ now + delay * 1000000 ≤ maxInstant) := by
  simp [Settings.plans, Option.any_eq_true]

theorem exists_delay {row : Job} {now : Time} (h : settings.plans row now = true) :
    ∃ delay, row.maxAttempts ≤ (row.attempts : Int) + 1 ∨
      backoffDelay (row.attempts + 1) settings.retryBackoffSchedule = some delay := by
  rcases Settings.plans_iff.1 h with hmax | ⟨delay, hd, -⟩
  · exact ⟨0, .inl hmax⟩
  · exact ⟨delay, .inr hd⟩

theorem Settings.plans_anti {row : Job} {now now' : Time} (hle : now ≤ now')
    (h : settings.plans row now' = true) : settings.plans row now = true := by
  rw [Settings.plans_iff] at h ⊢
  refine h.imp_right fun ⟨delay, hd, hfit⟩ => ⟨delay, hd, hfit.imp_right fun hfit => ?_⟩
  exact (Int.add_le_add_right hle _).trans hfit

theorem Settings.plans_of_schedule {now : Time} (hb : settings.retryBackoffSchedule ≠ [])
    (hd : ∀ delay ∈ settings.retryBackoffSchedule, now + delay * 1000000 ≤ maxInstant) (row : Job) :
    settings.plans row now = true := by
  obtain ⟨delay, hdelay⟩ := backoffDelay_some hb (row.attempts + 1)
  exact Settings.plans_iff.2 (.inr ⟨delay, hdelay, .inr (hd delay (List.mem_of_getElem? hdelay))⟩)

/-- The failed attempt at `row` was settled, its retry after `delay` if one was due. -/
def Decided (settings : Settings) (w : World) (row : Job) (h : Hist) (delay : Int) (w' : World)
    (out : Except Exc Bool) (g : Hist) : Prop :=
  out = .ok true ∧ (NoHandler h → NoHandler g) ∧ ∃ row', row'.attempts = row.attempts + 1 ∧
    Closed settings w (commands h) row (retriedStatus settings row) row' w' g ∧
    (row'.status = .scheduled → ∃ now : Time, (⟨.now, now⟩ : Reply Op Op.Res) ∈ g ∧
      row'.scheduledAt = some (now + delay * 1000000))

theorem InHand.fails (hh : InHand row w) (hmax : row.maxAttempts ≤ (row.attempts : Int) + 1)
    (error : Json) (delay : Int) (E : Env → Prop) :
    Ends (exec n) E (Decided app.settings w row h delay)
      (.act (.failJob row.id error) fun won : Bool => .pure (.ok won) : Prg (Except Exc Bool)) w h := by
  have hst := hh.processing
  intro e _
  obtain ⟨w', b, he⟩ := exec_total (n := n) (o := .failJob row.id error) (e := e) (w := w) (by simp)
  obtain ⟨p, hcl⟩ := hh.close (h := h) app.settings rfl he .failed (by simp [Op.onRow, hst]) rfl
  have hreached : retriedStatus app.settings row = .failed := if_pos hmax
  refine ⟨w', b, he, congrArg _ (hh.won rfl he), fun hn => hn.cons (by simp), _, ?_,
    hcl.relabel hreached, ?_⟩
  · simp [Op.onRow, hst]
  · rw [hcl.reached]
    intro hscheduled
    cases hscheduled

theorem InHand.retriesNow (hh : InHand row w) {delay : Int}
    (hs : retriedStatus app.settings row = .pending) (E : Env → Prop) :
    Ends (exec n) E (Decided app.settings w row h delay)
      (.act (.retryToPending row.id) fun won : Bool =>
        if won = true then
          .act (.xadd (app.settings.streamForPriority row.priority) row.id) fun _ =>
            .act (.markSynced row.id) fun _ => .pure (.ok true)
        else .pure (.ok false) : Prg (Except Exc Bool)) w h := by
  refine (hh.sendBack (o := .retryToPending row.id) app.settings (fun p => { row with
    progress := p
    status := .pending
    attempts := row.attempts + 1
    isSyncedToRedis := false
    startedAt := none }) rfl (by simp [Op.onRow, hh.processing]) (fun _ => rfl)
    (Except.ok true) (Except.ok false) E).mono ?_
  rintro w' out g ⟨rfl, hn, p, hcl⟩
  refine ⟨rfl, hn, _, rfl, hcl.relabel hs, fun hscheduled => ?_⟩
  cases hscheduled

theorem InHand.retriesLater (hh : InHand row w) {delay : Int} {now : Time} (hnow : ⟨.now, now⟩ ∈ h)
    (hs : retriedStatus app.settings row = .scheduled) (E : Env → Prop) :
    Ends (exec n) E (Decided app.settings w row h delay)
      (.act (.retryToScheduled row.id (now + delay * 1000000)) fun won : Bool =>
        if won = true then
          .act (.zadd row.id (now + delay * 1000000)) fun _ =>
            .act (.markSynced row.id) fun _ => .pure (.ok true)
        else .pure (.ok false) : Prg (Except Exc Bool)) w h := by
  refine (hh.sendBack (o := .retryToScheduled row.id (now + delay * 1000000)) app.settings
    (fun p => { row with
      progress := p
      status := .scheduled
      scheduledAt := some (now + delay * 1000000)
      attempts := row.attempts + 1
      isSyncedToRedis := false
      startedAt := none }) rfl (by simp [Op.onRow, hh.processing]) (fun _ => rfl)
    (Except.ok true) (Except.ok false) E).suffix.mono ?_
  rintro w' out g ⟨⟨rfl, hn, p, hcl⟩, hsuf⟩
  exact ⟨rfl, hn, _, rfl, hcl.relabel hs, fun _ => ⟨now, hsuf.subset hnow, rfl⟩⟩

/-- Where `scheduleRetryOrFail` leaves the job it is called on, when a retry that is due can
be planned at the instant it reads. -/
theorem scheduleRetryOrFail_decides {delay : Int}
    (hd : row.maxAttempts ≤ (row.attempts : Int) + 1 ∨
      backoffDelay (row.attempts + 1) app.settings.retryBackoffSchedule = some delay)
    (hh : InHand row w) (error : Json) (E : Env → Prop) :
    EndsFrom (exec n) (fun e => app.settings.plans row (w.clock + e.elapsed) = true) E
      (Decided app.settings w row h delay) (scheduleRetryOrFail app row error) w h := by
  simp only [scheduleRetryOrFail, op_bind, mpure_eq, perform]
  split
  · rename_i hmax
    exact (hh.fails hmax error delay _).endsFrom
  · rename_i hmax
    change ¬ row.maxAttempts ≤ (row.attempts : Int) + 1 at hmax
    have hdelay := hd.resolve_left hmax
    rw [hdelay]
    dsimp only
    split
    · rename_i hle
      refine (hh.retriesNow ?_ _).endsFrom
      rw [retriedStatus, if_neg hmax, hdelay, Option.getD_some, if_pos hle]
    · rename_i hpos
      intro e hfit
      have hnow : ¬ maxInstant < w.clock + e.elapsed + delay * 1000000 := by
        rcases Settings.plans_iff.1 hfit with hmax' | ⟨delay', hdelay', hfit⟩
        · exact absurd hmax' hmax
        · rw [hdelay, Option.some.injEq] at hdelay'
          subst hdelay'
          exact Int.not_lt.2 (hfit.resolve_left hpos)
      refine ⟨_, _, rfl, ?_⟩
      beta_reduce
      rw [if_neg hnow]
      have hh' : InHand row { w with clock := w.clock + e.elapsed } := ⟨hh.processing, hh.found⟩
      have hs : retriedStatus app.settings row = .scheduled := by
        rw [retriedStatus, if_neg hmax, hdelay, Option.getD_some, if_neg hpos]
      refine (hh'.retriesLater List.mem_cons_self hs E).mono ?_
      rintro w' out g ⟨rfl, hn, row', ha, hcl, hat⟩
      exact ⟨rfl, fun h0 => hn (h0.cons (by simp)), row', ha,
        hcl.rebase (fun _ _ => rfl) rfl rfl rfl, hat⟩

theorem scheduleRetryOrFail_raises (error : Json) (E : Env → Prop) :
    EndsFrom (exec n) (fun e => ¬ app.settings.plans row (w.clock + e.elapsed) = true) E
      (fun w' out _ => (∃ exc, out = .error exc) ∧ app.settings.plans row w'.clock = false)
      (scheduleRetryOrFail app row error) w h := by
  simp only [scheduleRetryOrFail, op_bind, mpure_eq, perform]
  split
  · rename_i hmax
    exact fun e he => absurd (Settings.plans_iff.2 (.inl hmax)) he
  · rename_i hmax
    change ¬ row.maxAttempts ≤ (row.attempts : Int) + 1 at hmax
    split
    · rename_i hnone
      refine ⟨⟨_, rfl⟩, ?_⟩
      simp [Settings.plans, hnone, hmax]
    · rename_i delay hdelay
      split
      · rename_i hle
        exact fun e he => absurd (Settings.plans_iff.2 (.inr ⟨delay, hdelay, .inl hle⟩)) he
      · intro e he
        have hlate : maxInstant < w.clock + e.elapsed + delay * 1000000 := by
          rw [← Int.not_le]
          exact fun hle => he (Settings.plans_iff.2 (.inr ⟨delay, hdelay, .inr hle⟩))
        refine ⟨_, _, rfl, ?_⟩
        beta_reduce
        rw [if_pos hlate]
        exact ⟨⟨_, rfl⟩, Bool.eq_false_iff.2 he⟩

theorem scheduleRetryOrFail_ends {T : Time} (hT : app.settings.plans row T = true)
    (hh : InHand row w) (error : Json) (E : Env → Prop) :
    Ends (exec n) E
      (fun w' out g => w'.clock ≤ T → ∃ delay,
        (row.maxAttempts ≤ (row.attempts : Int) + 1 ∨
          backoffDelay (row.attempts + 1) app.settings.retryBackoffSchedule = some delay) ∧
        Decided app.settings w row h delay w' out g)
      (scheduleRetryOrFail app row error) w h := by
  obtain ⟨delay, hd⟩ := exists_delay hT
  refine ((scheduleRetryOrFail_decides hd hh error E).or
    (scheduleRetryOrFail_raises error E)).mono ?_
  rintro w' out g (hdec | ⟨-, hno⟩) hle
  · exact ⟨delay, hd, hdec⟩
  · rw [Settings.plans_anti hle hT] at hno
    cases hno

theorem scheduleRetryOrFail_still (hT : app.settings.plans row w.clock = true) (hh : InHand row w)
    (error : Json) :
    Ends (exec n) (fun e => e.elapsed = 0)
      (fun w' out g => ∃ delay, Decided app.settings w row h delay w' out g)
      (scheduleRetryOrFail app row error) w h := by
  obtain ⟨delay, hd⟩ := exists_delay hT
  refine ((scheduleRetryOrFail_decides hd hh error _).ends fun e he => ?_).mono
    fun _ _ _ hdecided => ⟨delay, hdecided⟩
  rw [he]
  exact (Int.add_zero w.clock).symm ▸ hT

end Settling

end JobProcessor
