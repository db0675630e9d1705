import JobProcessor.Proofs.LateItems

/-! Polling that writes only changes is polling that always writes: one simulation
between the two contexts, kept whatever the other actors do to the row as long as
they leave its progress alone. -/

namespace JobProcessor

open Interleave Interleave.Prog

inductive Call where
  | setProgress (pct : Int)
  | cancelled

/-- Make the calls in order and collect the answers; with `stop`, only up to the first
true one. -/
def runCalls {σ : Type} (C : JobContext σ) (stop : Bool) :
    List Call → σ → List Bool → Prg (σ × List Bool)
  | [], ctx, answers => Pure.pure (ctx, answers)
  | .setProgress pct :: calls, ctx, answers => runCalls C stop calls (C.setProgress ctx pct) answers
  | .cancelled :: calls, ctx, answers => do
    let (ctx, c) ← C.cancelled ctx
    if stop && c then Pure.pure (ctx, answers ++ [c])
    else runCalls C stop calls ctx (answers ++ [c])

/-- The plain context: every poll is the guarded `UPDATE … RETURNING`. -/
def alwaysWrite : JobContext PgJobContext where
  jobId := PgJobContext.jobId
  setProgress := PgJobContext.setProgress
  cancelled ctx := do
    let now : Time ← perform .now
    if ctx.due now then do
      let (alive, requested) ← ctx.write ctx.pendingPct
      let c := requested || !alive
      Pure.pure ({ ctx with lastPoll := some now, cached := c }, c)
    else Pure.pure (ctx, ctx.cached)

theorem alwaysWrite_eq (ctx : PgJobContext) :
    alwaysWrite.cancelled ctx = .act .now fun now : Time =>
      if ctx.due now then
        .act (.writeProgress ctx.jobId ctx.pendingPct) fun row : Option (Option Time) =>
          .pure ({ ctx with lastPoll := some now, cached := writeAnswer row }, writeAnswer row)
      else .pure (ctx, ctx.cached) := by
  unfold alwaysWrite PgJobContext.write
  dsimp only
  rw [op_bind]
  refine congrArg (Prog.act Op.now) (funext fun now => ?_)
  split
  · refine congrArg (Prog.act _) (funext fun row => ?_)
    cases row with
    | none => rfl
    | some c => simp [writeAnswer, Prog.bind]
  · rfl

/-! ### The same answers and the same rows -/

/-- The row whose progress an action may set. -/
def Op.setsProgress : Op → Option Uuid
  | .initProgress id => some id
  | .writeProgress id _ => some id
  | .completeJob id _ (some _) => some id
  | _ => none

theorem onRow_progress (now : Time) (row : Job) (o : Op) (h : o.setsProgress ≠ some row.id) :
    (o.onRow now row).progress = row.progress := by
  cases o with
  | completeJob id result progress =>
    cases progress with
    | none => simp only [Op.onRow]; split <;> rfl
    | some p =>
      have hne : ¬ row.id = id := fun he => h (congrArg some he.symm)
      simp [Op.onRow, hne]
  | initProgress id | writeProgress id _ =>
    have hne : ¬ row.id = id := fun he => h (congrArg some he.symm)
    simp [Op.onRow, hne]
  | _ => simp only [Op.onRow] <;> split <;> rfl

/-- What the context has written last is what the row says. -/
def Mirrored (j : Uuid) (written : Option Int) (w : World) : Prop :=
  ∀ p ∈ written, ∃ row, w.jobs.find? j = some row ∧ row.progress = some p

theorem Mirrored.exec {n : Nat} {o : Op} {e : Env} {w w' : World} {r : o.Res} {j : Uuid}
    {written : Option Int} (h : Mirrored j written w) (ho : o.setsProgress ≠ some j)
    (hx : exec n o e w = some (w', r)) : Mirrored j written w' := by
  intro p hp
  obtain ⟨row, hf, hrow⟩ := h p hp
  refine ⟨_, exec_row_some hx hf, ?_⟩
  rw [onRow_progress _ _ _ (by rw [Store.Table.find?_key hf]; exact ho), hrow]

/-- The others leave the progress of `j` alone. -/
abbrev SparesProgress (j : Uuid) (o : Op) : Prop := o.setsProgress ≠ some j

theorem Mirrored.others {n : Nat} {j : Uuid} {written : Option Int} {w : World}
    {os : List (Op × Env)} (h : Mirrored j written w) (hO : ∀ x ∈ os, SparesProgress j x.1) :
    Mirrored j written (others (JobProcessor.exec n) os w []).1 :=
  others_inv (I := fun w _ => Mirrored j written w) hO
    (fun _ _ _ _ _ _ ho hx hm => hm.exec ho hx) h

/-- Writing what is there changes nothing. -/
theorem writeProgress_same {t : Jobs} {j : Uuid} {pct : Int}
    (h : ∀ row, t.find? j = some row → row.progress = some pct) :
    (Repository.writeProgress t j pct).1 = t := by
  have hrows : (Repository.writeProgress t j pct).1.rows = t.rows := by
    refine (List.map_congr_left (g := id) ?_).trans (List.map_id _)
    intro row hrow
    split
    · rename_i hg
      simp only [Bool.and_eq_true, decide_eq_true_eq] at hg
      have hf := Store.Table.find?_of_mem hrow
      rw [hg.1] at hf
      have hp := h row hf
      obtain ⟨id, _⟩ := row
      simp_all
    · rfl
  obtain ⟨rows, _, _⟩ := t
  exact Store.Table.mk.injEq .. |>.mpr hrows

/-- The read of a row that says what would be written is the write. -/
theorem read_write {n : Nat} {e : Env} {w : World} {j : Uuid} {pct : Int}
    (h : Mirrored j (some pct) w) :
    ∃ (w' : World) (r : Option (Option Time × JobStatus)) (r' : Option (Option Time)),
      exec n (.readFlags j) e w = some (w', r) ∧ exec n (.writeProgress j pct) e w = some (w', r') ∧
      readAnswer r = writeAnswer r' := by
  obtain ⟨row, hf, hrow⟩ := h pct rfl
  refine ⟨_, _, (Repository.writeProgress w.jobs j pct).2, rfl, ?_, ?_⟩
  · have hsame : (Repository.writeProgress w.jobs j pct).1 = w.jobs :=
      writeProgress_same fun row' hf' => by
        rw [hf, Option.some.injEq] at hf'
        exact hf' ▸ hrow
    simp only [exec, hsame]
  · by_cases hs : row.status = .processing <;>
      simp [Repository.readFlags, Repository.writeProgress, hf, hs, readAnswer, writeAnswer,
        Option.filter]

theorem write_mirrored {n : Nat} {e : Env} {w w' : World} {j : Uuid} {pct : Int}
    {r : Option (Option Time)} (hx : exec n (.writeProgress j pct) e w = some (w', r))
    (hr : writeAnswer r = false) : Mirrored j (some pct) w' := by
  have hrep : r = (Repository.writeProgress w.jobs j pct).2 := by
    simp only [exec, Option.some.injEq, Prod.mk.injEq] at hx
    exact hx.2.symm
  cases hf : w.jobs.find? j with
  | none => simp [hrep, Repository.writeProgress, hf, writeAnswer] at hr
  | some row =>
    by_cases hs : row.status = .processing
    · rintro p hp
      obtain rfl : pct = p := by simpa using hp
      refine ⟨_, exec_row_some hx hf, ?_⟩
      simp [Op.onRow, Store.Table.find?_key hf, hs]
    · simp [hrep, Repository.writeProgress, hf, hs, writeAnswer, Option.filter] at hr

/-- The two contexts agree on everything but what was written last, which the row of
the first one's job shows. -/
structure Tandem (j : Uuid) (w : World) (ctx ref : PgJobContext) : Prop where
  jobId : ctx.jobId = j
  same : ref = { ctx with lastWrittenPct := ref.lastWrittenPct }
  mirrored : Mirrored j ctx.lastWrittenPct w

theorem cancelled_tandem {n : Nat} {j : Uuid} {w : World} {ctx ref : PgJobContext}
    (h : Tandem j w ctx ref) :
    Abreast (exec n) (SparesProgress j)
      (fun w a b => a.2 = b.2 ∧ (a.2 = false → Tandem j w a.1 b.1))
      (pgJobContext.cancelled ctx) (alwaysWrite.cancelled ref) w := by
  show Abreast _ _ _ ctx.cancelled _ _
  rw [cancelled_eq, alwaysWrite_eq]
  intro os e hO
  refine ⟨_, _, _, rfl, rfl, ?_⟩
  have ht : Tandem j { (others (exec n) os w []).1 with
      clock := (others (exec n) os w []).1.clock + e.elapsed } ctx ref :=
    ⟨h.jobId, h.same, h.mirrored.others hO⟩
  generalize (others (exec n) os w []).1 = v at ht ⊢
  obtain ⟨rfl, hsame, hm⟩ := ht
  generalize ref.lastWrittenPct = written at hsame
  subst hsame
  dsimp only at hm ⊢
  by_cases hdue : ctx.due (v.clock + e.elapsed) = true
  · rw [if_pos hdue, if_pos (show PgJobContext.due { ctx with lastWrittenPct := written }
      (v.clock + e.elapsed) = true from hdue)]
    split
    · intro os e hO
      refine ⟨_, _, _, rfl, rfl, rfl, fun hc => ⟨rfl, rfl, ?_⟩⟩
      exact write_mirrored (n := n) rfl hc
    · rename_i hsame
      intro os e hO
      have hm' := hm.others (n := n) hO
      rw [← not_not.1 hsame] at hm'
      obtain ⟨w', r, r', hx, hx', hr⟩ := read_write (n := n) (e := e) hm'
      refine ⟨w', r, r', hx, hx', hr, fun hc => ⟨rfl, ?_, ?_⟩⟩
      · dsimp only
        rw [hr]
      · dsimp only
        rw [← not_not.1 hsame]
        exact hm'.exec (by simp [Op.setsProgress]) hx
  · rw [if_neg hdue, if_neg (show ¬ PgJobContext.due { ctx with lastWrittenPct := written }
      (v.clock + e.elapsed) = true from hdue)]
    exact ⟨rfl, fun _ => ⟨rfl, rfl, hm⟩⟩

theorem runCalls_tandem {n : Nat} {j : Uuid} (calls : List Call) {w : World}
    (ctx ref : PgJobContext) {answers : List Bool} (h : Tandem j w ctx ref) :
    Abreast (exec n) (SparesProgress j) (fun _ a b => a.2 = b.2)
      (runCalls pgJobContext true calls ctx answers)
      (runCalls alwaysWrite true calls ref answers) w := by
  induction calls generalizing w ctx ref answers with
  | nil => exact rfl
  | cons call calls ih =>
    cases call with
    | setProgress pct =>
      refine ih (ctx.setProgress pct) (ref.setProgress pct) ⟨h.jobId, ?_, h.mirrored⟩
      rw [h.same]
      rfl
    | cancelled =>
      refine (cancelled_tandem h).bind ?_
      rintro w' ⟨ctx', c⟩ ⟨ref', c'⟩ ⟨hc, ht⟩
      dsimp only at hc ht ⊢
      subst hc
      cases c with
      | true => exact rfl
      | false => exact ih _ _ (ht rfl)

/-! ### The throttle -/

def reading : Happening → Option Time
  | ⟨_, .now, t, _⟩ => some t
  | _ => none

def Op.isPoll : Op → Bool
  | .writeProgress _ _ | .readFlags _ => true
  | _ => false

/-- When the polls were made, newest first: the clock as it was last read before. -/
def pollTimes : List Happening → List (Option Time)
  | [] => []
  | m :: l => if m.op.isPoll then l.findSome? reading :: pollTimes l else pollTimes l

def written : Happening → Option Int
  | ⟨_, .writeProgress _ pct, _, _⟩ => some pct
  | _ => none

def Apart (P : Time) (later earlier : Option Time) : Prop :=
  ∃ t t', later = some t ∧ earlier = some t' ∧ P ≤ t - t'

/-- The polls are `P` apart, and no percentage is written twice in a row. -/
structure Throttled (P : Time) (l : List Happening) : Prop where
  apart : (pollTimes l).Pairwise (Apart P)
  changes : (l.filterMap written).IsChain (· ≠ ·)

structure Remembers (ctx : PgJobContext) (w : World) (l : List Happening) : Prop where
  throttled : Throttled ctx.interval l
  polled : ∀ x ∈ pollTimes l, ∃ t ∈ ctx.lastPoll, ∃ t' ∈ x, t' ≤ t
  past : ∀ t ∈ ctx.lastPoll, t ≤ w.clock
  last : (l.filterMap written).head? = ctx.lastWrittenPct

theorem Remembers.exec {n : Nat} {ctx : PgJobContext} {w w' : World} {l : List Happening} {o : Op}
    {e : Env} {r : o.Res} (h : Remembers ctx w l) (hx : exec n o e w = some (w', r)) :
    Remembers ctx w' l := by
  refine ⟨h.throttled, h.polled, fun t ht => (h.past t ht).trans ?_, h.last⟩
  rw [exec_clock hx]
  exact le_add_of_nonneg_right (Int.natCast_nonneg _)

theorem Remembers.poll {ctx ctx' : PgJobContext} {w w' w₁ : World} {l : List Happening} {t : Time}
    {o : Op} {r : o.Res} (h : Remembers ctx w l) (hdue : ctx.due t = true)
    (hpast : ∀ t' ∈ ctx.lastPoll, t' ≤ t) (ht : t ≤ w'.clock) (ho : o.isPoll = true)
    (hint : ctx'.interval = ctx.interval) (hlast : ctx'.lastPoll = some t)
    (hchain : ((written ⟨true, o, r, w'⟩).toList ++ l.filterMap written).IsChain (· ≠ ·))
    (hhead : ((written ⟨true, o, r, w'⟩).toList ++ l.filterMap written).head? =
      ctx'.lastWrittenPct) :
    Remembers ctx' w' (⟨true, o, r, w'⟩ :: ⟨true, .now, t, w₁⟩ :: l) := by
  have htimes : pollTimes (⟨true, o, r, w'⟩ :: ⟨true, .now, t, w₁⟩ :: l) =
      some t :: pollTimes l := by
    rw [pollTimes, if_pos ho]
    rfl
  have hwritten : List.filterMap written (⟨true, o, r, w'⟩ :: ⟨true, .now, t, w₁⟩ :: l) =
      (written ⟨true, o, r, w'⟩).toList ++ l.filterMap written := by
    cases hw : written ⟨true, o, r, w'⟩ <;> simp [List.filterMap_cons, hw] <;> rfl
  refine ⟨⟨?_, ?_⟩, ?_, ?_, ?_⟩
  · rw [htimes, hint, List.pairwise_cons]
    refine ⟨fun x hx => ?_, h.throttled.apart⟩
    obtain ⟨t₀, ht₀, t', hx', hle⟩ := h.polled x hx
    have hgap : ctx.interval ≤ t - t₀ := by
      rw [Option.mem_def] at ht₀
      simpa [PgJobContext.due, ht₀] using hdue
    exact ⟨t, t', rfl, hx', by linarith⟩
  · rw [hwritten]
    exact hchain
  · rw [htimes]
    intro x hx
    refine ⟨t, hlast, ?_⟩
    rcases List.mem_cons.1 hx with rfl | hx
    · exact ⟨t, rfl, le_refl t⟩
    · obtain ⟨t₀, ht₀, t', hx', hle⟩ := h.polled x hx
      exact ⟨t', hx', hle.trans (hpast t₀ ht₀)⟩
  · intro t' ht'
    rw [hlast, Option.mem_def, Option.some.injEq] at ht'
    exact ht' ▸ ht
  · rw [hwritten]
    exact hhead

theorem cancelled_remembers {n : Nat} {ctx : PgJobContext} {w : World} {g : List Happening}
    (h : Remembers ctx w (mine g)) :
    Amid (exec n) (fun _ => True)
      (fun w a g => Remembers a.1 w (mine g) ∧ a.1.interval = ctx.interval)
      ctx.cancelled w g := by
  rw [cancelled_eq]
  refine Amid.act (I := fun w g => Remembers ctx w (mine g)) h
    (fun _ _ _ _ _ _ _ hx h => h.exec hx) ?_
  intro e w g h
  refine ⟨_, _, rfl, ?_⟩
  have hpast : ∀ t' ∈ ctx.lastPoll, t' ≤ w.clock + e.elapsed := fun t' ht' =>
    (h.past t' ht').trans (le_add_of_nonneg_right (Int.natCast_nonneg _))
  -- the world at the reading
  obtain ⟨w₁, hw₁⟩ : ∃ w₁ : World, w₁ = { w with clock := w.clock + e.elapsed } := ⟨_, rfl⟩
  have hclock : w₁.clock = w.clock + e.elapsed := by rw [hw₁]
  rw [← hclock] at hpast
  rw [← hw₁]
  -- between the reading and the poll only the clock moves on
  have hwait : ∀ (o : Op) (e' : Env) (v v' : World) (r : o.Res) (g' : List Happening),
      True → exec n o e' v = some (v', r) →
      (mine g' = ⟨true, .now, w₁.clock, w₁⟩ :: mine g ∧ w₁.clock ≤ v.clock) →
      mine (⟨false, o, r, v'⟩ :: g') = ⟨true, .now, w₁.clock, w₁⟩ :: mine g ∧
        w₁.clock ≤ v'.clock := by
    intro o e' v v' r g' _ hx hg
    rw [exec_clock hx]
    exact ⟨hg.1, hg.2.trans (le_add_of_nonneg_right (Int.natCast_nonneg _))⟩
  split
  · rename_i hdue
    split
    · rename_i hne
      refine Amid.act (I := fun v g' => mine g' = ⟨true, .now, w₁.clock, w₁⟩ :: mine g ∧
        w₁.clock ≤ v.clock) ⟨rfl, le_refl _⟩ hwait ?_
      rintro e' v g' ⟨hg, hv⟩
      refine ⟨_, _, rfl, ?_, rfl⟩
      rw [mine_cons_own, hg]
      refine h.poll hdue hpast (hv.trans ?_) rfl rfl rfl ?_ rfl
      · exact le_add_of_nonneg_right (Int.natCast_nonneg _)
      · refine List.isChain_cons.2 ⟨fun y hy hyx => hne ?_, h.throttled.changes⟩
        rw [← h.last]
        exact (hyx ▸ hy).symm
    · refine Amid.act (I := fun v g' => mine g' = ⟨true, .now, w₁.clock, w₁⟩ :: mine g ∧
        w₁.clock ≤ v.clock) ⟨rfl, le_refl _⟩ hwait ?_
      rintro e' v g' ⟨hg, hv⟩
      refine ⟨_, _, rfl, ?_, rfl⟩
      rw [mine_cons_own, hg]
      refine h.poll hdue hpast (hv.trans ?_) rfl rfl rfl h.throttled.changes h.last
      exact le_add_of_nonneg_right (Int.natCast_nonneg _)
  · refine ⟨⟨⟨h.throttled.apart, h.throttled.changes⟩, h.polled, fun t ht => ?_, h.last⟩, rfl⟩
    exact hpast t ht

theorem runCalls_remembers {n : Nat} (calls : List Call) (ctx : PgJobContext) {w : World}
    {g : List Happening} {answers : List Bool} (h : Remembers ctx w (mine g)) :
    Amid (exec n) (fun _ => True) (fun _ _ g => Throttled ctx.interval (mine g))
      (runCalls pgJobContext false calls ctx answers) w g := by
  induction calls generalizing ctx w g answers with
  | nil => exact h.throttled
  | cons call calls ih =>
    cases call with
    | setProgress pct =>
      exact ih (ctx.setProgress pct) ⟨h.throttled, h.polled, h.past, h.last⟩
    | cancelled =>
      refine (cancelled_remembers h).bind ?_
      rintro w' ⟨ctx', c⟩ g' ⟨hr, hint⟩
      dsimp only at hr hint ⊢
      rw [← hint]
      exact ih ctx' hr

/-- Whatever the calls and whatever the others do: as long as these leave the progress
of the job alone, the context gives the same answers and leaves the same world as
the one that always writes, up to and including the first true answer; and its
polls are at least an interval apart, and it never writes a percentage twice in a
row. -/
theorem polling_exact (n : Nat) (j : Uuid) (P : Time) (calls : List Call)
    (script : Nat → List (Op × Env) × Env) (w : World) :
    ((∀ i, ∀ x ∈ (script i).1, SparesProgress j x.1) →
      ∃ w' answers ctx ref g g',
        (runCalls pgJobContext true calls { jobId := j, interval := P } []).among (exec n) script w
          [] = some (w', (ctx, answers), g) ∧
        (runCalls alwaysWrite true calls { jobId := j, interval := P } []).among (exec n) script w
          [] = some (w', (ref, answers), g')) ∧
    ∃ w' out g,
      (runCalls pgJobContext false calls { jobId := j, interval := P } []).among (exec n) script w
        [] = some (w', out, g) ∧ Throttled P (mine g) := by
  constructor
  · intro hO
    have hstart : Tandem j w { jobId := j, interval := P } { jobId := j, interval := P } :=
      ⟨rfl, rfl, by simp [Mirrored]⟩
    obtain ⟨w', ⟨ctx, answers⟩, ⟨ref, answers'⟩, g, g', ha, hb, rfl⟩ :=
      (runCalls_tandem (n := n) calls _ _ hstart).among script hO [] []
    exact ⟨w', answers, ctx, ref, g, g', ha, hb⟩
  · have hstart : Remembers { jobId := j, interval := P } w (mine []) :=
      ⟨⟨.nil, .nil⟩, by simp [mine, pollTimes], by simp, rfl⟩
    obtain ⟨w', out, g, ha, ht, -⟩ :=
      (runCalls_remembers (n := n) calls _ hstart).among script (by simp) .start
    exact ⟨w', out, g, ha, ht⟩

/-- Four polls, the third and fourth with nothing new to write. -/
def fourPolls : List Call := [.cancelled, .setProgress 50, .cancelled, .cancelled, .cancelled]

def requestedLast (i : Nat) : List (Op × Env) × Env :=
  (if i = 6 then [(.requestCancel 1, {})] else [], { elapsed := 2 })

theorem polling_exact_fourPolls :
    ∃ w' ctx ref g g',
      (runCalls pgJobContext true fourPolls { jobId := 1, interval := 1 } []).among (exec 1)
        requestedLast batchUnderWay [] = some (w', (ctx, [false, false, false, true]), g) ∧
      (runCalls alwaysWrite true fourPolls { jobId := 1, interval := 1 } []).among (exec 1)
        requestedLast batchUnderWay [] = some (w', (ref, [false, false, false, true]), g') := by
  obtain ⟨w', answers, ctx, ref, g, g', ha, hb⟩ :=
    (polling_exact 1 1 1 fourPolls requestedLast batchUnderWay).1 (by
      intro i x hx
      simp only [requestedLast] at hx
      split at hx
      · rw [List.mem_singleton] at hx
        subst hx
        simp [SparesProgress, Op.setsProgress]
      · cases hx)
  have hanswers : ((runCalls pgJobContext true fourPolls { jobId := 1, interval := 1 } []).among
      (exec 1) requestedLast batchUnderWay []).map (fun x => x.2.1.2) =
        some [false, false, false, true] := by
    decide +kernel
  rw [ha, Option.map_some, Option.some.injEq] at hanswers
  dsimp only at hanswers
  subst hanswers
  exact ⟨w', ctx, ref, g, g', ha, hb⟩

end JobProcessor
