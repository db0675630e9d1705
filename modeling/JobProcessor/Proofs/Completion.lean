import JobProcessor.Proofs.Chronology
import JobProcessor.Proofs.Drain
import JobProcessor.Proofs.OneMessage
import JobProcessor.Proofs.Slots
import JobProcessor.Store.Backlog

/-! The queue runs dry. Whole messages and whole promotions, one after the other in
any order, are a finite amount of work: every retry uses up an attempt, so handing
jobs back and forth between the streams and the delayed set comes to an end, and
where nothing is left to do every job has ended. -/

namespace JobProcessor

open Interleave Prog Store

variable {app : App} {consumer : String} {w w' : World}

/-! ### The attempt a message uses up -/

theorem processJob_parksLater (id : Uuid) (h : Hist) :
    Emits Valid parksLater (fun _ _ => True) h (processJob app id) := by
  refine processJob_of_retry (fun _ o ho => ?_) (fun job error h _ =>
    scheduleRetryOrFail_parksLater job error h) id
  cases o <;> trivial

/-- Where a row that was claimed after `a` attempts may stand: still processing, or
over with one attempt more if it is queued again, and then not before the epoch. -/
def Spent (a : Nat) (row : Job) : Prop :=
  row.status = .processing ∧ row.attempts = a ∨
    row.status ≠ .processing ∧ (row.status.claimable = true → row.attempts = a + 1) ∧
      (row.status = .scheduled → ∀ t ∈ row.scheduledAt, 0 ≤ t)

/-- While a task is at work on job `j`. -/
structure Spending (w₀ : World) (j : Uuid) (a : Nat) (w : World) (h : Hist) : Prop where
  begun : h ≠ []
  inUse : w.inUse = w₀.inUse
  clock : w₀.clock ≤ w.clock
  told : ∀ now : Time, (⟨.now, now⟩ : Reply Op Op.Res) ∈ h → w₀.clock ≤ now
  row : ∀ row, w.jobs.find? j = some row → Spent a row

theorem Spent.onRow {a : Nat} {row : Job} {m : Message} {h : Hist} {o : Op} (hs : Spent a row)
    (hh : h ≠ []) (hi : taskIssues consumer m h o)
    (hp : ∀ id t, o = .retryToScheduled id t → 0 ≤ t) (now : Time) : Spent a (o.onRow now row) := by
  -- a settlement needs a processing row
  have hguard : ∀ {row' : Job} {id : Uuid},
      (row.status = .processing → row.attempts = a → Spent a row') →
      Spent a (if row.id = id ∧ row.status = .processing then row' else row) := by
    intro row' id hf
    split
    · rename_i hc
      rcases hs with ⟨hst, ha⟩ | ⟨hst, -⟩
      · exact hf hst ha
      · exact absurd hc.2 hst
    · exact hs
  cases o with
  | claimJob id => exact absurd hi.2 hh
  | completeJob id result progress =>
    exact hguard fun _ _ => .inr ⟨by simp, by simp [JobStatus.claimable], by simp⟩
  | failJob id error =>
    exact hguard fun _ _ => .inr ⟨by simp, by simp [JobStatus.claimable], by simp⟩
  | cancelJob id summary =>
    exact hguard fun _ _ => .inr ⟨by simp, by simp [JobStatus.claimable], by simp⟩
  | retryToPending id =>
    refine hguard fun _ ha => .inr ⟨by simp, fun _ => ?_, by simp⟩
    exact congrArg (· + 1) ha
  | retryToScheduled id t =>
    refine hguard fun _ ha => .inr ⟨by simp, fun _ => congrArg (· + 1) ha, fun _ t' ht' => ?_⟩
    rw [Option.mem_some_iff] at ht'
    exact ht' ▸ hp id t rfl
  | initProgress id => exact hguard fun hst ha => .inl ⟨hst, ha⟩
  | writeProgress id pct => exact hguard fun hst ha => .inl ⟨hst, ha⟩
  | markSynced id =>
    simp only [Op.onRow]
    split
    · exact hs
    · exact hs
  | resetFailedToPending id => exact hi.elim
  | promoteScheduledToPending ids => exact hi.elim
  | cancelPendingOrScheduled id => exact hi.elim
  | requestCancel id => exact hi.elim
  | _ => exact hs

theorem Spending.step {n a : Nat} {w₀ w w' : World} {j : Uuid} {m : Message} {h : Hist} {o : Op}
    {e : Env} {r : o.Res} (hs : Spending w₀ j a w h) (h0 : 0 ≤ w₀.clock)
    (hi : taskIssues consumer m h o) (hq : o.onSlots = false) (hp : parksLater h o)
    (he : exec n o e w = some (w', r)) : Spending w₀ j a w' (⟨o, r⟩ :: h) where
  begun := by simp
  inUse := by
    rw [← hs.inUse]
    funext c
    rw [exec_inUse he]
    cases o <;> first | rfl | cases hq
  clock := by
    rw [exec_clock he]
    exact hs.clock.trans (Int.le_add_of_nonneg_right (Int.natCast_nonneg _))
  told now hmem := by
    rcases List.mem_cons.1 hmem with heq | hmem
    · cases heq
      simp only [exec, Option.some.injEq, Prod.mk.injEq] at he
      rw [← he.2]
      exact hs.clock.trans (Int.le_add_of_nonneg_right (Int.natCast_nonneg _))
    · exact hs.told now hmem
  row row' hf' := by
    have hc : ∀ m, o ≠ .createJob m := by
      rintro m rfl
      exact hi
    rw [exec_row he hc, Option.map_eq_some_iff] at hf'
    obtain ⟨row, hf, rfl⟩ := hf'
    refine (hs.row row hf).onRow hs.begun hi ?_ _
    rintro id t rfl
    obtain ⟨now, hmem, hle⟩ := hp
    exact h0.trans ((hs.told now hmem).trans hle)

/-- What handling a message leaves of the job it names, besides what `MessageSettled`
says. -/
structure AttemptSpent (w : World) (j : Uuid) (w' : World) : Prop where
  inUse : w'.inUse = w.inUse
  clock : w.clock ≤ w'.clock
  row : ∀ row row', w.jobs.find? j = some row → row.status.claimable = true →
    w'.jobs.find? j = some row' → Spent row.attempts row'

theorem processJob_spent {w : World} (h0 : 0 ≤ w.clock) (j : Uuid) :
    Ends (exec app.settings.workerConcurrency) (fun _ => True)
      (fun w' _ _ => AttemptSpent w j w') (processJob app j) w [] := by
  have hm : (Message.mk "" 0 (some j)).jobId = some j := rfl
  have hslots : Emits Valid (fun _ o => o.onSlots = false) (fun _ _ => True) []
      (processJob app j) := by
    refine processJob_of_retry (fun _ o ho => ?_) (fun job error h _ => ?_) j
    · cases o <;> first | rfl | cases ho
    · refine (scheduleRetryOrFail_emits job error h).mono (fun g o ho => ?_) fun _ _ _ => trivial
      cases o <;> first | rfl | exact ho.elim
  have htask : Emits Valid (taskIssues "" (Message.mk "" 0 (some j)))
      (fun g r => ∀ out, r = .ok out → out.ack = true → MayAck ⟨"", 0, some j⟩ g) []
      (processJob app j) := processJob_task hm
  have hall := (htask.and hslots).and (processJob_parksLater j [])
  simp only [processJob, op_bind, mpure_eq] at hall ⊢
  intro e _
  obtain ⟨w₁, b, he⟩ := exec_total (n := app.settings.workerConcurrency) (o := .claimJob j)
    (e := e) (w := w) (by simp)
  refine ⟨w₁, b, he, ?_⟩
  have hrest := hall.2 b trivial
  have hclock : w.clock ≤ w₁.clock := by
    rw [exec_clock he]
    exact Int.le_add_of_nonneg_right (Int.natCast_nonneg _)
  have huse : w₁.inUse = w.inUse := funext fun c => exec_inUse he c
  cases b with
  | false =>
    refine ⟨huse, hclock, fun row row' hf hc _ => ?_⟩
    have hwon := exec_target he rfl
    have hid : row.id = j := Table.find?_key hf
    rw [hf, Option.any_some] at hwon
    simp [won, Op.guard, hc, hid] at hwon
  | true =>
    have hwon := exec_target he rfl
    change true = _ at hwon
    rw [eq_comm, Option.any_eq_true] at hwon
    obtain ⟨row, hf, hg⟩ := hwon
    have hid : row.id = j := Table.find?_key hf
    have hc : row.status.claimable = true := by simpa [Op.guard, hid] using hg
    have hstart : Spending w j row.attempts w₁ [⟨.claimJob j, true⟩] := by
      refine ⟨by simp, huse, hclock, by simp, fun row' hf' => ?_⟩
      rw [exec_row_some he hf, Option.some.injEq] at hf'
      subst hf'
      exact .inl ⟨by simp [Op.onRow, hid, hc], by simp [Op.onRow, hid, hc]⟩
    refine (hrest.ends (I := fun w' h => Spending w j row.attempts w' h) ?_ hstart).mono ?_
    · rintro h o e' w' - ⟨⟨hi, hq⟩, hp⟩ hs
      obtain ⟨w'', r, he'⟩ := exec_total (n := app.settings.workerConcurrency) (o := o) (e := e')
        (w := w') (by rintro c rfl; exact hi)
      exact ⟨w'', r, he', exec_valid he', hs.step h0 hi hq hp he'⟩
    · rintro w' out g ⟨-, hs⟩
      refine ⟨hs.inUse, hs.clock, fun row₀ row' hf₀ _ hf' => ?_⟩
      rw [hf, Option.some.injEq] at hf₀
      exact hf₀ ▸ hs.row row' hf'

theorem handleMessage_spent {w : World} (h0 : 0 ≤ w.clock) (m : Message) :
    Ends (exec app.settings.workerConcurrency) (fun _ => True)
      (fun w' _ _ => w'.inUse = w.inUse ∧ w.clock ≤ w'.clock ∧
        ∀ j, m.jobId = some j → AttemptSpent w j w') (handleMessage app m) w [] := by
  have hack : ∀ {w₁ : World} {j : Uuid} (t : Nat), AttemptSpent w j w₁ → AttemptSpent w j
      { w₁ with clock := w₁.clock + t, streams := w₁.streams.xack m.stream m.messageId } := by
    intro w₁ j t hs
    exact ⟨hs.inUse, hs.clock.trans (Int.le_add_of_nonneg_right (Int.natCast_nonneg _)), hs.row⟩
  unfold handleMessage
  split
  · rename_i hm
    intro e _
    refine ⟨_, _, rfl, rfl, Int.le_add_of_nonneg_right (Int.natCast_nonneg _), fun j hj => ?_⟩
    rw [hm] at hj
    cases hj
  · rename_i j hm
    refine (processJob_spent h0 j).bind ?_
    intro w₁ out h hs
    have hend : ∀ {w' : World}, AttemptSpent w j w' → w'.inUse = w.inUse ∧ w.clock ≤ w'.clock ∧
        ∀ j', m.jobId = some j' → AttemptSpent w j' w' := by
      intro w' hs
      refine ⟨hs.inUse, hs.clock, fun j' hj' => ?_⟩
      rw [hm, Option.some.injEq] at hj'
      exact hj' ▸ hs
    cases out with
    | error exc => exact hend hs
    | ok outcome =>
      dsimp only
      split
      · intro e _
        exact ⟨_, _, rfl, hend (hack e.elapsed hs)⟩
      · exact hend hs

/-! ### Taking one message -/

def tasks (h : Hist) : List Proc := h.filterMap fun x => forks x.1

/-- What one read of the streams `ss` does: the oldest entry that waits in one of them is
delivered, or none waits. -/
structure Fetched (consumer : String) (ss : List String) (w w' : World) (msgs : List Message) :
    Prop where
  jobs : w'.jobs = w.jobs
  delayed : w'.delayed = w.delayed
  inUse : w'.inUse = w.inUse
  clock : w.clock ≤ w'.clock
  taken : (msgs = [] ∧ w'.streams = w.streams ∧ ∀ s ∈ ss, w.streams.undelivered s = []) ∨
    ∃ e now, msgs = [.ofEntry e] ∧ e ∈ w.streams.entries ∧ Streams.waits ss e = true ∧
      w'.streams = w.streams.deliver consumer now [e.id]

theorem Streams.ready_one {b : Streams (Option Uuid)} {s : String} :
    b.ready s 1 = (b.undelivered s).head?.toList := by
  rw [Streams.ready_eq]
  cases b.undelivered s <;> rfl

theorem probe_ends {n : Nat} (ss : List String) (w : World) (h : Hist) :
    Ends (exec n) (fun _ => True)
      (fun w' msgs g => Fetched consumer ss w w' msgs ∧ tasks g = tasks h)
      (probe consumer 1 ss) w h := by
  induction ss generalizing w h with
  | nil =>
    exact ⟨⟨rfl, rfl, rfl, Int.le_refl _, .inl ⟨rfl, rfl, by simp⟩⟩, rfl⟩
  | cons s ss ih =>
    simp only [probe, op_bind, mpure_eq]
    intro e _
    refine ⟨_, _, rfl, ?_⟩
    have hclock : w.clock ≤ w.clock + (e.elapsed : Int) :=
      Int.le_add_of_nonneg_right (Int.natCast_nonneg _)
    simp only [Streams.xreadgroup, List.flatMap_cons, List.flatMap_nil, List.append_nil,
      Streams.ready_one]
    cases hu : w.streams.undelivered s with
    | nil =>
      simp only [List.head?_nil, Option.toList_none, List.map_nil, List.isEmpty_nil, if_true,
        Streams.deliver_nil]
      refine (ih _ _).mono ?_
      rintro w' msgs g ⟨hf, hg⟩
      refine ⟨⟨hf.jobs, hf.delayed, hf.inUse, hclock.trans hf.clock, ?_⟩, hg⟩
      rcases hf.taken with ⟨rfl, hst, hnone⟩ | ⟨en, now, rfl, hmem, hw, hst⟩
      · refine .inl ⟨rfl, hst, fun s' hs' => ?_⟩
        rcases List.mem_cons.1 hs' with rfl | hs'
        · exact hu
        · exact hnone s' hs'
      · refine .inr ⟨en, now, rfl, hmem, ?_, hst⟩
        simp only [Streams.waits, Bool.and_eq_true, decide_eq_true_eq] at hw ⊢
        exact ⟨List.mem_cons_of_mem _ hw.1, hw.2⟩
    | cons en es =>
      simp only [List.head?_cons, Option.toList_some, List.map_cons, List.map_nil,
        List.isEmpty_cons, Bool.false_eq_true, if_false]
      have hen := Streams.mem_undelivered.1 (hu ▸ List.mem_cons_self : en ∈ w.streams.undelivered s)
      refine ⟨⟨rfl, rfl, rfl, hclock, .inr ⟨en, _, rfl, hen.1, ?_, rfl⟩⟩, rfl⟩
      simp [Streams.waits, hen.2.1, hen.2.2]

theorem readPriority_ends {n : Nat} (ss : List String) (w : World) (h : Hist) :
    Ends (exec n) (fun _ => True)
      (fun w' msgs g => Fetched consumer ss w w' msgs ∧ tasks g = tasks h)
      (readPriority consumer ss 1) w h := by
  refine (probe_ends ss w h).bind ?_
  rintro w₁ msgs g ⟨hf, hg⟩
  split
  · -- the blocking read over all streams finds nothing either
    rename_i hempty
    rw [List.isEmpty_iff] at hempty
    subst hempty
    rcases hf.taken with ⟨-, hst, hnone⟩ | ⟨_, _, hmsgs, _⟩
    · intro e _
      refine ⟨_, _, rfl, ?_, hg⟩
      have hready : (ss.eraseDups.flatMap fun s => w₁.streams.ready s 1) = [] := by
        rw [List.flatMap_eq_nil_iff]
        intro s hs
        rw [Streams.ready_one, hst, hnone s (List.mem_eraseDups.1 hs)]
        rfl
      refine ⟨hf.jobs, hf.delayed, hf.inUse,
        hf.clock.trans (Int.le_add_of_nonneg_right (Int.natCast_nonneg _)), .inl ⟨?_, ?_, hnone⟩⟩
      · simp only [Streams.xreadgroup, hready, List.map_nil]
      · simp only [Streams.xreadgroup, hready, List.map_nil, Streams.deliver_nil]
        exact hst
    · cases hmsgs
  · exact ⟨hf, hg⟩

/-- What one round of the pull loop does: it creates the task of one message, and holds
a slot for it, or it creates none. -/
structure Pulled (app : App) (consumer : String) (w : World) (e : Entry (Option Uuid))
    (w' : World) : Prop where
  jobs : w'.jobs = w.jobs
  delayed : w'.delayed = w.delayed
  clock : w.clock ≤ w'.clock
  inUse : w'.inUse = Function.update w.inUse consumer (w.inUse consumer + 1)
  mem : e ∈ w.streams.entries
  waits : Streams.waits app.settings.orderedStreams e = true
  taken : ∃ now, w'.streams = w.streams.deliver consumer now [e.id]

theorem workerLoop_ends (hfree : w.inUse consumer < app.settings.workerConcurrency) (stop : Bool) :
    Ends (exec app.settings.workerConcurrency) (fun e => e.answer = true → stop = true)
      (fun w' _ g => (tasks g = [] ∧ (stop = false →
          ∀ s ∈ app.settings.orderedStreams, w.streams.undelivered s = [])) ∨
        ∃ e, tasks g = [.runOne consumer (.ofEntry e)] ∧ Pulled app consumer w e w')
      (workerLoop app consumer 1) w [] := by
  simp only [workerLoop, op_bind, mpure_eq]
  intro e he
  refine ⟨_, _, rfl, ?_⟩
  dsimp only
  split
  · rename_i hstop
    exact .inl ⟨rfl, fun h => by simp [he hstop] at h⟩
  · intro e₁ _
    refine ⟨{ w with
      clock := w.clock + e.elapsed + e₁.elapsed
      inUse := Function.update w.inUse consumer (w.inUse consumer + 1) }, (), ?_, ?_⟩
    · simp only [exec, if_pos hfree]
    refine ((readPriority_ends _ _ _).weaken fun _ _ => trivial).bind ?_
    rintro w₁ msgs g ⟨hf, hg⟩
    have hclock : w.clock ≤ w₁.clock :=
      ((Int.le_add_of_nonneg_right (Int.natCast_nonneg _)).trans
        (Int.le_add_of_nonneg_right (Int.natCast_nonneg _))).trans hf.clock
    rcases hf.taken with ⟨rfl, hst, hnone⟩ | ⟨en, now, rfl, hmem, hw, hst⟩
    · intro e₂ _
      exact ⟨_, _, rfl, .inl ⟨hg, fun _ => hnone⟩⟩
    · intro e₂ _
      refine ⟨_, _, rfl, .inr ⟨en, ?_, hf.jobs, hf.delayed, ?_, hf.inUse, hmem, hw, now, hst⟩⟩
      · exact congrArg _ hg
      · exact hclock.trans (Int.le_add_of_nonneg_right (Int.natCast_nonneg _))

/-! ### Promoting what is due -/

/-- What a promotion from `w` does: it takes the page `ids` of what is due at `now`. -/
structure PagePromoted (app : App) (w : World) (now : Time) (ids : List Uuid) (w' : World) :
    Prop where
  page : ids = w.delayed.zrangebyscore 0 now app.settings.tickerBatchSize
  clock : w.clock ≤ w'.clock
  inUse : w'.inUse = w.inUse
  delayed : w'.delayed = w.delayed.zrem ids
  rows : w'.jobs.rows = w.jobs.rows.map (Job.promoted ids)
  streams : w'.streams =
    w.streams.xaddMany ((routed app.settings w.jobs ids).map fun q => (q.1, some q.2))

theorem xaddAll_ends {n : Nat} {E : Env → Prop} (qs : List (String × Uuid)) (w : World) (h : Hist) :
    Ends (exec n) E (fun w' _ _ => w'.jobs = w.jobs ∧ w'.delayed = w.delayed ∧ w'.inUse = w.inUse ∧
      w.clock ≤ w'.clock ∧ w'.streams = w.streams.xaddMany (qs.map fun q => (q.1, some q.2)))
      (xaddAll qs) w h := by
  induction qs generalizing w h with
  | nil => exact ⟨rfl, rfl, rfl, Int.le_refl _, rfl⟩
  | cons q qs ih =>
    obtain ⟨s, i⟩ := q
    intro e _
    refine ⟨_, _, rfl, (ih _ _).mono ?_⟩
    rintro w' - - ⟨hj, hd, hu, hc, hs⟩
    exact ⟨hj, hd, hu, (Int.le_add_of_nonneg_right (Int.natCast_nonneg _)).trans hc, hs⟩

theorem promoteDue_ends {n d : Nat} (w : World) :
    Ends (exec n) (fun e => d ≤ e.elapsed)
      (fun w' k _ => ∃ now ids, w.clock + d ≤ now ∧ k = ids.length ∧ PagePromoted app w now ids w')
      (promoteDue app) w [] := by
  have hle : ∀ (t : Time) (e : Env), t ≤ t + (e.elapsed : Int) := fun _ _ =>
    Int.le_add_of_nonneg_right (Int.natCast_nonneg _)
  simp only [promoteDue, op_bind, mpure_eq]
  intro e he
  refine ⟨_, _, rfl, fun e₁ _ => ⟨_, _, rfl, ?_⟩⟩
  have hnow : w.clock + (d : Int) ≤ w.clock + (e.elapsed : Int) :=
    Int.add_le_add_left (Int.ofNat_le.2 he) _
  have hc : w.clock ≤ w.clock + (e.elapsed : Int) + (e₁.elapsed : Int) :=
    (hle w.clock e).trans (hle _ e₁)
  dsimp only
  split
  · rename_i hempty
    rw [List.isEmpty_iff] at hempty
    refine ⟨_, [], hnow, rfl, hempty.symm, hc, rfl, (ZSet.zrem_nil _).symm, ?_, rfl⟩
    have hid : Job.promoted [] = id := funext fun r => if_neg (by simp)
    rw [hid, List.map_id]
  · intro e₂ _
    refine ⟨_, _, rfl, ?_⟩
    generalize hids : w.delayed.zrangebyscore 0 (w.clock + (e.elapsed : Int))
      app.settings.tickerBatchSize = ids
    refine (xaddAll_ends _ _ _).bind ?_
    rintro w₁ - g ⟨hj, hd, hu, hc₁, hs⟩
    intro e₃ _
    refine ⟨_, _, rfl, fun e₄ _ => ⟨_, _, rfl, _, ids, hnow, rfl, hids.symm, ?_, hu, ?_, ?_, ?_⟩⟩
    · exact (hc.trans (hle _ e₂)).trans (hc₁.trans ((hle _ e₃).trans (hle _ e₄)))
    · exact congrArg (ZSet.zrem · ids) hd
    · have hid : Job.promoted [] = id := funext fun r => if_neg (by simp)
      have hrows : w₁.jobs.rows = w.jobs.rows.map (Job.promoted []) := by
        rw [hj, hid, List.map_id]
      exact rows_promote hrows ids
    · rw [← route_eq]
      exact hs

/-! ### The work, and how much of it there is -/

/-- One piece of work done to its end: a worker pulls a message and runs its task, or the
ticker promotes a page that is not empty. -/
inductive Works (app : App) : World → World → Prop where
  | handled {consumer : String} {env env' : Nat → Env} {w w₁ w' : World} {g g' : Hist} {m : Message}
      {r : Except Exc Outcome} :
    (workerLoop app consumer 1).trace (exec app.settings.workerConcurrency) env w [] =
      some (w₁, (), g) → tasks g = [.runOne consumer m] →
    (runOne app consumer m).trace (exec app.settings.workerConcurrency) env' w₁ [] =
      some (w', r, g') → Works app w w'
  | promoted {env : Nat → Env} {w w' : World} {g : Hist} {k : Nat} :
    (promoteDue app).trace (exec app.settings.workerConcurrency) env w [] = some (w', k + 1, g) →
      Works app w w'

/-- `k` pieces of work, one after the other. -/
inductive Worked (app : App) : Nat → World → World → Prop where
  | none {w : World} : Worked app 0 w w
  | more {k : Nat} {w w₁ w' : World} : Worked app k w w₁ → Works app w₁ w' → Worked app (k + 1) w w'

/-- Redis will bring job `j` to a worker. -/
def Awaited (app : App) (w : World) (j : Uuid) : Prop :=
  (∃ e ∈ w.streams.entries, Streams.waits app.settings.orderedStreams e = true ∧ e.fields = some j) ∨
    ∃ s, w.delayed.score? j = some s ∧ 0 ≤ s

/-- Nobody is at work, and every job has ended or is awaited. -/
structure Queued (app : App) (w : World) : Prop where
  clock : 0 ≤ w.clock
  free : ∀ c, w.inUse c < app.settings.workerConcurrency
  awaited : ∀ j row, w.jobs.find? j = some row →
    row.status.terminal = true ∨ row.status.claimable = true ∧ Awaited app w j

def Job.slack (row : Job) : Nat :=
  if row.status.claimable then (row.maxAttempts - row.attempts).toNat else 0

/-- An upper bound on the pieces of work: a message is one, an entry of the delayed set
becomes a message, and a failed attempt becomes either. -/
def effort (app : App) (w : World) : Nat :=
  w.streams.waiting app.settings.orderedStreams + 2 * w.delayed.size + 3 * w.jobs.total Job.slack

/-! ### What a message costs -/

theorem Settings.streamForPriority_mem (s : Settings) (p : JobPriority) :
    s.streamForPriority p ∈ s.orderedStreams := by
  cases p <;> simp [Settings.streamForPriority, Settings.orderedStreams]

theorem Ending.left {settings : Settings} {row : Job} {ending : Ending}
    (h : (ending.status settings row).claimable = true) : row.attempts + 1 < row.maxAttempts := by
  have hretry : (retriedStatus settings row).claimable = true →
      (row.attempts : Int) + 1 < row.maxAttempts := by
    intro h
    unfold retriedStatus at h
    split at h
    · cases h
    · rename_i hmax
      exact Int.not_le.1 hmax
  cases ending with
  | raised type message => exact hretry h
  | timeout => exact hretry h
  | _ => cases h

/-- The job `j` of a handled message: its row was `row` and is `row'`, and it went from the
streams `b` to a stream or to the delayed set where it is to be tried again. -/
structure Requeued (app : App) (w : World) (b : Streams (Option Uuid)) (e : Entry (Option Uuid))
    (j : Uuid) (row row' : Job) (w' : World) : Prop where
  names : e.fields = some j
  found : w.jobs.find? j = some row
  claimable : row.status.claimable = true
  found' : w'.jobs.find? j = some row'
  others : ∀ i, i ≠ j → w'.jobs.find? i = w.jobs.find? i
  ended : row'.status ≠ .processing
  slack : row'.status.claimable = true → row'.slack + 1 ≤ row.slack
  streams : w'.streams = (if row'.status = .pending then
    b.xadd (app.settings.streamForPriority row.priority) (some j) else b).xack e.stream e.id
  delayed : row'.status ≠ .scheduled → w'.delayed = w.delayed
  scheduled : row'.status = .scheduled → ∃ t, 0 ≤ t ∧ w'.delayed = w.delayed.zadd j t

/-- A message of `w` has been delivered and handled. -/
structure Handled (app : App) (w : World) (b : Streams (Option Uuid)) (e : Entry (Option Uuid))
    (w' : World) : Prop where
  clock : w.clock ≤ w'.clock
  inUse : w'.inUse = w.inUse
  done : (w'.jobs.rows = w.jobs.rows ∧ w'.delayed = w.delayed ∧
      w'.streams = b.xack e.stream e.id ∧
      ∀ j row, e.fields = some j → w.jobs.find? j = some row → row.status.claimable = false) ∨
    ∃ j row row', Requeued app w b e j row row' w'

theorem MessageSettled.handled {e : Entry (Option Uuid)} {outcome : Outcome} {g : Hist}
    (hm : MessageSettled app e w w' outcome g) (hclock : w.clock ≤ w'.clock)
    (hinUse : w'.inUse = w.inUse) (hs : ∀ j, e.fields = some j → AttemptSpent w j w') :
    Handled app w w.streams e w' where
  clock := hclock
  inUse := hinUse
  done := by
    by_cases hcl : ∃ j row, e.fields = some j ∧ w.jobs.find? j = some row ∧
        row.status.claimable = true
    · right
      obtain ⟨j, row, hj, hf, hcl⟩ := hcl
      obtain ⟨ending, row', -, -, hjob⟩ := hm.settled j row hj hf hcl
      have hid : row.id = j := Table.find?_key hf
      subst hid
      have hspent := (hs row.id hj).row row row' hf hcl hjob.found
      have hended : row'.status ≠ .processing := hjob.reached ▸ hjob.ended
      rcases hspent with ⟨hst, -⟩ | ⟨-, hatt, hdue⟩
      · exact absurd hst hended
      refine ⟨row.id, row, row', hj, hf, hcl, hjob.found, hjob.others, hended, fun hcl' => ?_, ?_,
        fun hne => hjob.delayed (hjob.reached ▸ hne), fun hst => ?_⟩
      · have hmax : row'.maxAttempts = row.maxAttempts := congrArg (fun k => k.2.2.1) hjob.fixed
        have hleft := Ending.left (hjob.reached ▸ hcl')
        simp only [Job.slack, hcl, hcl', if_true, hmax, hatt hcl']
        omega
      · rw [hjob.streams, hjob.reached]
      · obtain ⟨t, ht, hde⟩ := hjob.scheduled (hjob.reached ▸ hst)
        exact ⟨t, hdue hst t ht, hde⟩
    · left
      have hno : ∀ j row, e.fields = some j → w.jobs.find? j = some row →
          row.status.claimable = false := by
        intro j row hj hf
        rw [← Bool.not_eq_true]
        exact fun h => hcl ⟨j, row, hj, hf, h⟩
      obtain ⟨hrows, hst, hde, -, -⟩ := hm.untouched hno
      exact ⟨hrows, hde, hst, hno⟩

section Step

variable {b : Streams (Option Uuid)} {e : Entry (Option Uuid)}

theorem runOne_ends {w : World} (h0 : 0 ≤ w.clock) (m : Message) :
    Ends (exec app.settings.workerConcurrency) (fun _ => True) (fun _ _ _ => True)
      (runOne app consumer m) w [] :=
  (handleMessage_spent h0 m).bind fun _ _ _ _ _ _ => ⟨_, _, rfl, trivial⟩

/-- The task of a message that was just pulled, if it is over by `T`. -/
theorem Pulled.runOne_ends {w₁ : World} {T : Time} (hT : ∀ row, app.settings.plans row T = true)
    (h0 : 0 ≤ w.clock) (hp : Pulled app consumer w e w₁) :
    ∃ now, Ends (exec app.settings.workerConcurrency) (fun _ => True)
      (fun w' _ _ => w'.clock ≤ T → Handled app w (w.streams.deliver consumer now [e.id]) e w')
      (runOne app consumer (.ofEntry e)) w₁ [] := by
  obtain ⟨now, htaken⟩ := hp.taken
  refine ⟨now, ?_⟩
  have hmem : { e with state := .pending consumer now } ∈ w₁.streams.entries := by
    rw [htaken]
    exact List.mem_map.2 ⟨e, hp.mem, by simp⟩
  have hm := handleMessage_ends (fun _ row _ _ _ => .inr (hT row)) hmem rfl
  have hs := @handleMessage_spent app w₁ (h0.trans hp.clock) (.ofEntry e)
  refine (hm.and hs).bind ?_
  rintro w₂ out g ⟨hsettled, huse, hclock, hspent⟩
  intro env _
  refine ⟨_, _, rfl, fun hle => ?_⟩
  obtain ⟨outcome, rfl, hset⟩ :=
    hsettled ((Int.le_add_of_nonneg_right (Int.natCast_nonneg env.elapsed)).trans hle)
  have hh := hset.handled hclock huse hspent
  refine ⟨(hp.clock.trans hclock).trans
    (Int.le_add_of_nonneg_right (Int.natCast_nonneg _)), ?_, ?_⟩
  · simp only [huse, hp.inUse, Function.update_self, Nat.add_sub_cancel, Function.update_idem,
      Function.update_eq_self]
  · rcases hh.done with ⟨hrows, hde, hst, hno⟩ | ⟨j, row, row', hr⟩
    · left
      rw [hp.jobs] at hrows hno
      exact ⟨hrows, hde.trans hp.delayed, hst.trans (by rw [htaken]), hno⟩
    · right
      have hf := hr.found
      have ho := hr.others
      have hst := hr.streams
      have hde := hr.delayed
      have hsc := hr.scheduled
      rw [hp.jobs] at hf ho
      rw [htaken] at hst
      rw [hp.delayed] at hde hsc
      exact ⟨j, row, row', hr.names, hf, hr.claimable, hr.found', ho, hr.ended, hr.slack, hst, hde, hsc⟩

/-- The message that brings a job stays when another message is handled. -/
theorem Awaited.handled {j : Uuid} (ha : Awaited app w j) (consumer : String) (now : Int)
    (hmem : e ∈ w.streams.entries) (hne : e.fields ≠ some j)
    (hstreams : ∀ en ∈ (w.streams.deliver consumer now [e.id]).entries, en.state = .undelivered →
      en ∈ w'.streams.entries)
    (hscore : w'.delayed.score? j = w.delayed.score? j) : Awaited app w' j := by
  rcases ha with ⟨en, hen, hw, hj⟩ | ⟨s, hs, h0⟩
  · refine .inl ⟨en, hstreams en (Streams.mem_deliver consumer now hen ?_) ?_, hw, hj⟩
    · intro hid
      have : en = e := List.inj_on_of_nodup_map w.streams.nodup_ids hen hmem hid
      exact hne (this ▸ hj)
    · simp only [Streams.waits, Bool.and_eq_true, decide_eq_true_eq] at hw
      exact hw.2
  · exact .inr ⟨s, hscore.trans hs, h0⟩

theorem Handled.queued {now : Int} (hq : Queued app w) (hmem : e ∈ w.streams.entries)
    (hh : Handled app w (w.streams.deliver consumer now [e.id]) e w') : Queued app w' where
  clock := hq.clock.trans hh.clock
  free c := hh.inUse ▸ hq.free c
  awaited i rowᵢ hf := by
    rcases hh.done with ⟨hrows, hde, hst, hno⟩ | ⟨j, row, row', hr⟩
    · have hf₀ : w.jobs.find? i = some rowᵢ := by
        rw [← hf]
        unfold Table.find?
        rw [hrows]
      rcases hq.awaited i rowᵢ hf₀ with hterm | ⟨hcl, ha⟩
      · exact .inl hterm
      · refine .inr ⟨hcl, ha.handled consumer now hmem (fun hj => ?_) (fun en hen hu => ?_) (by rw [hde])⟩
        · rw [hno i rowᵢ hj hf₀] at hcl
          cases hcl
        · exact hst ▸ Streams.mem_xack _ _ hen hu
    · by_cases hij : i = j
      · subst hij
        rw [hr.found', Option.some.injEq] at hf
        subst hf
        cases hs : row'.status with
        | processing => exact absurd hs hr.ended
        | pending =>
          refine .inr ⟨rfl, .inl ⟨⟨w.streams.next, app.settings.streamForPriority row.priority,
            some i, .undelivered⟩, ?_, ?_, rfl⟩⟩
          · rw [hr.streams, if_pos hs]
            exact Streams.mem_xack _ _ (List.mem_append_right _ List.mem_cons_self) rfl
          · simp [Streams.waits, Settings.streamForPriority_mem]
        | scheduled =>
          obtain ⟨t, ht, hde⟩ := hr.scheduled hs
          refine .inr ⟨rfl, .inr ⟨t, ?_, ht⟩⟩
          rw [hde, ZSet.score?_zadd, if_pos rfl]
        | _ => exact .inl rfl
      · rw [hr.others i hij] at hf
        rcases hq.awaited i rowᵢ hf with hterm | ⟨hcl, ha⟩
        · exact .inl hterm
        · refine .inr ⟨hcl, ha.handled consumer now hmem (fun hi => ?_) (fun en hen hu => ?_) ?_⟩
          · rw [hr.names, Option.some.injEq] at hi
            exact hij hi.symm
          · rw [hr.streams]
            refine Streams.mem_xack _ _ ?_ hu
            split
            · exact List.mem_append_left _ hen
            · exact hen
          · by_cases hs : row'.status = .scheduled
            · obtain ⟨t, -, hde⟩ := hr.scheduled hs
              rw [hde, ZSet.score?_zadd, if_neg hij]
            · rw [hr.delayed hs]

/-- A retry costs an attempt, which weighs more than what it puts back. -/
theorem Handled.effort {now : Int} (hmem : e ∈ w.streams.entries)
    (hw : Streams.waits app.settings.orderedStreams e = true)
    (hh : Handled app w (w.streams.deliver consumer now [e.id]) e w') :
    effort app w' + 1 ≤ effort app w := by
  have hdel := Streams.waiting_deliver consumer now hmem hw
  rcases hh.done with ⟨hrows, hde, hst, -⟩ | ⟨j, row, row', hr⟩
  · have hslack : w'.jobs.total Job.slack = w.jobs.total Job.slack := by
      unfold Table.total
      rw [hrows]
    simp only [JobProcessor.effort, hst, hde, hslack, Streams.waiting_xack]
    omega
  · have htotal := Table.total_change Job.slack hr.found hr.found' hr.others
    have hstreams := congrArg (Streams.waiting · app.settings.orderedStreams) hr.streams
    simp only [Streams.waiting_xack] at hstreams
    have hzero : row'.status.claimable = false → row'.slack = 0 := by
      intro h
      simp [Job.slack, h]
    unfold JobProcessor.effort
    cases hs : row'.status with
    | processing => exact absurd hs hr.ended
    | pending =>
      have hslack := hr.slack (by rw [hs]; rfl)
      rw [if_pos hs] at hstreams
      have hadd := Streams.waiting_xadd (w.streams.deliver consumer now [e.id])
        app.settings.orderedStreams (app.settings.streamForPriority row.priority) (some j)
      rw [hr.delayed (by simp [hs])]
      omega
    | scheduled =>
      have hslack := hr.slack (by rw [hs]; rfl)
      rw [if_neg (by simp [hs])] at hstreams
      obtain ⟨t, -, hde⟩ := hr.scheduled hs
      have hsize := ZSet.size_zadd w.delayed j t
      rw [hde]
      omega
    | _ =>
      have hslack := hzero (by rw [hs]; rfl)
      rw [if_neg (by simp [hs])] at hstreams
      rw [hr.delayed (by simp [hs])]
      omega

/-! ### What a promotion costs -/

theorem PagePromoted.queued {now : Time} {ids : List Uuid} (hq : Queued app w)
    (hp : PagePromoted app w now ids w') : Queued app w' where
  clock := hq.clock.trans hp.clock
  free c := hp.inUse ▸ hq.free c
  awaited j row' hf := by
    have hfind : w'.jobs.find? j = (w.jobs.find? j).map (Job.promoted ids) := by
      unfold Table.find?
      rw [hp.rows, List.find?_map]
      congr 2
      funext r
      simp [Job.promoted_id]
    rw [hfind, Option.map_eq_some_iff] at hf
    obtain ⟨row, hf, rfl⟩ := hf
    rcases hq.awaited j row hf with hterm | ⟨hcl, ha⟩
    · left
      unfold Job.promoted
      split
      · rename_i hs
        rw [hs.2] at hterm
        cases hterm
      · exact hterm
    · right
      constructor
      · unfold Job.promoted
        split
        · rfl
        · exact hcl
      · by_cases hj : j ∈ ids
        · -- the promotion has put a message where the sorted set had a score
          have hroute : (app.settings.streamForPriority row.priority, some j) ∈
              (routed app.settings w.jobs ids).map fun q => (q.1, some q.2) := by
            refine List.mem_map.2 ⟨(app.settings.streamForPriority row.priority, j), ?_, rfl⟩
            exact List.mem_filterMap.2 ⟨j, hj, by rw [hf]; rfl⟩
          obtain ⟨en, hen, hs, hfields, hu⟩ := Streams.added_xaddMany hroute w.streams
          refine .inl ⟨en, hp.streams ▸ hen, ?_, hfields⟩
          simp [Streams.waits, hs, hu, Settings.streamForPriority_mem]
        · rcases ha with ⟨en, hen, hw, hfields⟩ | ⟨s, hs, h0⟩
          · exact .inl ⟨en, hp.streams ▸ Streams.mem_xaddMany hen _, hw, hfields⟩
          · refine .inr ⟨s, ?_, h0⟩
            rw [hp.delayed, ZSet.score?_zrem, if_neg hj, hs]

theorem PagePromoted.effort {now : Time} {ids : List Uuid} (hp : PagePromoted app w now ids w')
    (hne : 1 ≤ ids.length) : effort app w' + 1 ≤ effort app w := by
  have hnodup : ids.Nodup := by
    rw [hp.page, ZSet.zrangebyscore_eq]
    exact (ZSet.nodup_range _ _ _).sublist (List.take_sublist _ _)
  have hsize := ZSet.size_zrem (z := w.delayed) hnodup (by
    intro i hi
    rw [hp.page] at hi
    obtain ⟨s, hs, -⟩ := ZSet.mem_zrangebyscore hi
    exact ⟨s, hs⟩)
  have hslack : w'.jobs.total Job.slack = w.jobs.total Job.slack := by
    unfold Table.total
    rw [hp.rows, List.map_map]
    congr 2
    funext r
    simp only [Function.comp_apply, Job.promoted]
    split
    · rename_i hs
      simp [Job.slack, hs.2, JobStatus.claimable]
    · rfl
  have hwait := Streams.waiting_xaddMany w.streams app.settings.orderedStreams
    ((routed app.settings w.jobs ids).map fun q => (q.1, some q.2))
  have hlen : (routed app.settings w.jobs ids).length ≤ ids.length := List.length_filterMap_le _ _
  rw [List.length_map] at hwait
  unfold JobProcessor.effort
  rw [hp.streams, hp.delayed, hslack]
  omega

end Step

/-! ### Work keeps the queue, and comes to an end -/

theorem Works.later (hw : Works app w w') : w.clock ≤ w'.clock := by
  cases hw with
  | handled hloop _ hone => exact (trace_later hloop).trans (trace_later hone)
  | promoted hpro => exact trace_later hpro

theorem Works.step {T : Time} (hT : ∀ row, app.settings.plans row T = true) (hq : Queued app w)
    (hw : Works app w w') (hle : w'.clock ≤ T) : Queued app w' ∧ effort app w' + 1 ≤ effort app w := by
  cases hw with
  | @handled consumer env env' _ w₁ _ g g' m r hloop htask hone =>
    have hends := workerLoop_ends (hq.free consumer) true
    obtain ⟨w₂, u, g₂, htrace, hpull⟩ := hends.trace env fun _ _ => rfl
    rw [hloop, Option.some.injEq, Prod.mk.injEq, Prod.mk.injEq] at htrace
    obtain ⟨rfl, -, rfl⟩ := htrace
    rcases hpull with ⟨hnone, -⟩ | ⟨e, htask', hpull⟩
    · rw [htask] at hnone
      cases hnone
    · rw [htask] at htask'
      cases htask'
      obtain ⟨now, hrun⟩ := hpull.runOne_ends hT hq.clock
      obtain ⟨w₃, r₃, g₃, htrace, hh⟩ := hrun.trace env' fun _ => trivial
      rw [hone, Option.some.injEq, Prod.mk.injEq] at htrace
      obtain ⟨rfl, -⟩ := htrace
      replace hh := hh hle
      exact ⟨hh.queued hq hpull.mem, hh.effort hpull.mem hpull.waits⟩
  | @promoted env _ _ g k hpro =>
    obtain ⟨w₁, k₁, g₁, htrace, now, ids, -, hk, hp⟩ :=
      (promoteDue_ends w).trace env fun _ => Nat.zero_le _
    rw [hpro, Option.some.injEq, Prod.mk.injEq, Prod.mk.injEq] at htrace
    obtain ⟨rfl, rfl, -⟩ := htrace
    exact ⟨hp.queued hq, hp.effort (by omega)⟩

/-- Where a job is open, there is something to do. -/
theorem Queued.progress (hsize : 1 ≤ app.settings.tickerBatchSize) (hq : Queued app w) {row : Job}
    (hrow : row ∈ w.jobs.rows) (hopen : row.status.terminal = false) : ∃ w', Works app w w' := by
  rcases hq.awaited row.id row (Table.find?_of_mem hrow) with hterm | ⟨-, ha⟩
  · rw [hopen] at hterm
    cases hterm
  · rcases ha with ⟨e, he, hw, -⟩ | ⟨s, hs, h0⟩
    · -- a worker that is not asked to stop pulls
      obtain ⟨w₁, u, g, hloop, hpull⟩ := (workerLoop_ends (hq.free "") false).trace
        (fun _ => {}) fun _ h => by cases h
      rcases hpull with ⟨-, hnone⟩ | ⟨e', htask, hpull⟩
      · simp only [Streams.waits, Bool.and_eq_true, decide_eq_true_eq] at hw
        have hmem := Streams.mem_undelivered.2 ⟨he, rfl, hw.2⟩
        rw [hnone rfl e.stream hw.1] at hmem
        cases hmem
      · obtain ⟨w', r, g', hone, -⟩ := (runOne_ends (hq.clock.trans hpull.clock)
          (.ofEntry e')).trace (fun _ => {}) fun _ => trivial
        exact ⟨w', .handled hloop htask hone⟩
    · -- once enough time has passed the ticker promotes
      obtain ⟨w', k, g, hpro, now, ids, hnow, hk, hp⟩ :=
        (promoteDue_ends (d := s.toNat) w).trace (fun _ => { elapsed := s.toNat }) fun _ =>
          Nat.le_refl _
      have hdue : s ≤ now := by
        have h1 : (s.toNat : Int) = s := Int.toNat_of_nonneg h0
        have h2 : (s.toNat : Int) ≤ w.clock + s.toNat := Int.le_add_of_nonneg_left hq.clock
        exact h1 ▸ h2.trans hnow
      have hmem : row.id ∈ w.delayed.range 0 now := ZSet.mem_range.2 ⟨s, hs, h0, hdue⟩
      have hpos : 1 ≤ ids.length := by
        rw [hp.page, ZSet.zrangebyscore_eq, List.length_take]
        exact Nat.le_min.2 ⟨hsize, List.length_pos_of_mem hmem⟩
      obtain ⟨k', rfl⟩ : ∃ k', k = k' + 1 := ⟨k - 1, by omega⟩
      exact ⟨w', .promoted hpro⟩

theorem Worked.keeps {k : Nat} {T : Time} (hw : Worked app k w w')
    (hT : ∀ row, app.settings.plans row T = true) (hle : w'.clock ≤ T) (hq : Queued app w) :
    Queued app w' ∧ k + effort app w' ≤ effort app w := by
  induction hw with
  | none => exact ⟨hq, by omega⟩
  | more hw hstep ih =>
    obtain ⟨hq₁, hle₁⟩ := ih (hstep.later.trans hle) hq
    obtain ⟨hq₂, hlt⟩ := hstep.step hT hq₁ hle
    exact ⟨hq₂, by omega⟩

theorem Queued.over (hsize : 1 ≤ app.settings.tickerBatchSize) (hq : Queued app w)
    (hdone : ∀ w', ¬ Works app w w') : ∀ row ∈ w.jobs.rows, row.status.terminal = true := by
  intro row hrow
  rw [← Bool.not_eq_false]
  intro hopen
  obtain ⟨w', hwork⟩ := hq.progress hsize hrow hopen
  exact hdone w' hwork

/-- Messages and promotions done one after the other, by any workers and in any order, as
long as every delay of the schedule leads to an instant there is: there is an end to
them, and then every job has ended. -/
theorem queue_settles (app : App) (hb : app.settings.retryBackoffSchedule ≠ [])
    (hsize : 1 ≤ app.settings.tickerBatchSize) (w w' : World) (k : Nat) (hq : Queued app w)
    (hw : Worked app k w w')
    (hd : ∀ delay ∈ app.settings.retryBackoffSchedule, w'.clock + delay * 1000000 ≤ maxInstant) :
    Queued app w' ∧ k + effort app w' ≤ effort app w ∧
      ((∀ w'', ¬ Works app w' w'') → ∀ row ∈ w'.jobs.rows, row.status.terminal = true) := by
  obtain ⟨hq', hle⟩ := hw.keeps (Settings.plans_of_schedule hb hd) (Int.le_refl _) hq
  exact ⟨hq', hle, hq'.over hsize⟩

/-- Job 1 is in its stream, job 2 waits for instant 50. -/
def twoQueued : World :=
  { World.init with
    clock := 10
    jobs := ⟨[Repository.NewJob.row { id := 1, type := .webhook, payload := .null, userId := some 8 } 0,
      { Repository.NewJob.row
          { id := 2, type := .email, payload := .null, userId := some 8, scheduledAt := some 50 } 0
        with status := .scheduled }], by decide, by decide⟩
    streams := ⟨[⟨0, "jobs:stream:normal", some 1, .undelivered⟩], 1, by decide, by decide⟩
    delayed := ⟨[(2, 50)], by decide⟩ }

theorem twoQueued_queued : Queued defaultApp twoQueued where
  clock := by decide
  free _ := show 0 < 10 by decide
  awaited j row hf := by
    have hid : row.id = j := Table.find?_key hf
    subst hid
    have hmem := Table.find?_mem hf
    simp only [twoQueued, List.mem_cons, List.not_mem_nil, or_false] at hmem
    rcases hmem with rfl | rfl
    · exact .inr ⟨rfl, .inl ⟨_, List.mem_cons_self, by decide, rfl⟩⟩
    · exact .inr ⟨rfl, .inr ⟨50, by decide, by decide⟩⟩

/-- A worker takes the message and completes job 1, and nothing has been retried. -/
theorem queue_settles_twoQueued :
    ∃ w', Worked defaultApp 1 twoQueued w' ∧ Queued defaultApp w' ∧ effort defaultApp w' < 27 := by
  obtain ⟨w', hwork, hclock⟩ : ∃ w', Works defaultApp twoQueued w' ∧ w'.clock = 10 :=
    ⟨_, @Works.handled defaultApp "a" (fun _ => {}) (fun _ => {}) twoQueued _ _ _ _ _ _ rfl rfl rfl,
      rfl⟩
  have hworked : Worked defaultApp 1 twoQueued w' := .more .none hwork
  obtain ⟨hq, hle, -⟩ := queue_settles defaultApp (by decide) (by decide) twoQueued w' 1
    twoQueued_queued hworked (by rw [hclock]; decide)
  have heffort : effort defaultApp twoQueued = 27 := by decide
  exact ⟨w', hworked, hq, by omega⟩

end JobProcessor
