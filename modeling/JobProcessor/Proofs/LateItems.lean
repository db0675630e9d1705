import JobProcessor.Interleave.Among
import JobProcessor.Proofs.BatchSummary
import JobProcessor.Proofs.Cancellation
import Mathlib.Data.List.Chain

/-! A cancelled batch starts no item late. The batch runs among any other actions on
the shared world; between the reading of the clock at a checkpoint, the poll it
leads to and the start of the item no time passes. -/

namespace JobProcessor

open Interleave Interleave.Prog

abbrev Happening := Moment Op Op.Res World

/-- What the program itself did, newest first. -/
def mine (g : List Happening) : List Happening := g.filter Moment.mine

@[simp] theorem mine_cons_other {o : Op} {r : o.Res} {w : World} {g : List Happening} :
    mine (⟨false, o, r, w⟩ :: g) = mine g := rfl

@[simp] theorem mine_cons_own {o : Op} {r : o.Res} {w : World} {g : List Happening} :
    mine (⟨true, o, r, w⟩ :: g) = ⟨true, o, r, w⟩ :: mine g := rfl

namespace Op

def starts : Op → Bool
  | .startHandler _ _ => true
  | _ => false

def checks : Op → Bool
  | .now => true
  | _ => false

/-- What follows the clock reading of a checkpoint without delay. -/
def prompt : Op → Bool
  | .writeProgress _ _ | .readFlags _ | .startHandler _ _ => true
  | _ => false

end Op

/-- Polls, and the starts of items after them, take no time. -/
def Instant (g : List Happening) : Prop :=
  (mine g).IsChain fun m m' => m.op.prompt = true → m.after.clock = m'.after.clock

instance Instant.decidable (g : List Happening) : Decidable (Instant g) :=
  inferInstanceAs (Decidable (List.IsChain _ _))

/-- The row is not being processed, or its cancellation is requested. -/
def Doomed (j : Uuid) (w : World) : Prop :=
  ∀ row, w.jobs.find? j = some row → row.status = .processing →
    row.cancelRequestedAt.isSome = true

/-- Polls take no time, and after the instant `T` the job `j` is doomed. -/
def Over (j : Uuid) (T : Time) (g : List Happening) : Prop :=
  Instant g ∧ ∀ m ∈ g, T < m.after.clock → Doomed j m.after

theorem Instant.tail {m : Happening} {g : List Happening} (h : Instant (m :: g)) : Instant g := by
  obtain ⟨b, o, r, w⟩ := m
  cases b with
  | false => exact h
  | true => exact List.IsChain.tail h

theorem Over.tail {j : Uuid} {T : Time} {m : Happening} {g : List Happening}
    (h : Over j T (m :: g)) : Over j T g :=
  ⟨h.1.tail, fun m' hm => h.2 m' (List.mem_cons_of_mem m hm)⟩

/-- Each action of one kind in `l` came by the instant `limit`. -/
def Within (A : Op → Bool) (limit : Time) (l : List Happening) : Prop :=
  ∀ m ∈ l, A m.op = true → m.after.clock ≤ limit

theorem Within.cons {A : Op → Bool} {limit : Time} {l : List Happening} {m : Happening}
    (h : Within A limit l) (hm : A m.op = true → m.after.clock ≤ limit) :
    Within A limit (m :: l) := by
  intro m' hm'
  rcases List.mem_cons.1 hm' with rfl | hm'
  · exact hm
  · exact h m' hm'

def ended : Happening → Option ItemEnd
  | ⟨_, .finishHandler _, r, _⟩ => some r
  | _ => none

def endings (l : List Happening) : List ItemEnd := l.reverse.filterMap ended

theorem endings_cons (m : Happening) (l : List Happening) :
    endings (m :: l) = endings l ++ (ended m).toList := by
  simp only [endings, List.reverse_cons, List.filterMap_append]
  cases h : ended m <;> simp [h]

/-- A fact about the program's own actions, for each instant `T` after which the job
is doomed. -/
def Sure (j : Uuid) (X : Time → List Happening → Prop) (g : List Happening) : Prop :=
  ∀ T, Over j T g → X T (mine g)

theorem Sure.other {j : Uuid} {X : Time → List Happening → Prop} {g : List Happening}
    (h : Sure j X g) {o : Op} {r : o.Res} {w : World} : Sure j X (⟨false, o, r, w⟩ :: g) :=
  fun T hT => h T hT.tail

/-! ### One checkpoint -/

def writeAnswer : Option (Option Time) → Bool
  | none => true
  | some c => c.isSome

def readAnswer : Option (Option Time × JobStatus) → Bool
  | none => true
  | some (c, s) => decide (s ≠ .processing) || c.isSome

theorem cancelled_eq (ctx : PgJobContext) :
    ctx.cancelled = .act .now fun now : Time =>
      if ctx.due now then
        if some ctx.pendingPct ≠ ctx.lastWrittenPct then
          .act (.writeProgress ctx.jobId ctx.pendingPct) fun row : Option (Option Time) =>
            .pure ({ ctx with
              lastWrittenPct := some ctx.pendingPct
              lastPoll := some now
              cached := writeAnswer row }, writeAnswer row)
        else
          .act (.readFlags ctx.jobId) fun row : Option (Option Time × JobStatus) =>
            .pure ({ ctx with lastPoll := some now, cached := readAnswer row }, readAnswer row)
      else .pure (ctx, ctx.cached) := by
  unfold PgJobContext.cancelled PgJobContext.write PgJobContext.read
  rw [op_bind]
  refine congrArg (Prog.act Op.now) (funext fun now => ?_)
  by_cases hdue : ctx.due now = true
  · rw [if_pos hdue, if_pos hdue]
    split
    · refine congrArg (Prog.act _) (funext fun row => ?_)
      cases row with
      | none => rfl
      | some c => simp [writeAnswer, Prog.bind]
    · refine congrArg (Prog.act _) (funext fun row => ?_)
      cases row with
      | none => rfl
      | some x =>
        obtain ⟨c, s⟩ := x
        by_cases hs : s = .processing <;> simp [readAnswer, Prog.bind, hs]
  · rw [if_neg hdue, if_neg hdue]
    rfl

theorem writeAnswer_doomed {n : Nat} {e : Env} {w w' : World} {j : Uuid} {pct : Int}
    {r : Option (Option Time)} (hx : exec n (.writeProgress j pct) e w = some (w', r))
    (hd : Doomed j w') : writeAnswer r = true := by
  simp only [exec, Option.some.injEq, Prod.mk.injEq] at hx
  obtain ⟨rfl, rfl⟩ := hx
  cases hf : w.jobs.find? j with
  | none => simp [Repository.writeProgress, hf, writeAnswer]
  | some row =>
    by_cases hs : row.status = .processing
    · have hflag := hd { row with progress := some pct }
        (by simp [Repository.writeProgress, Repository.find?_updateWhere, hf, hs]) hs
      simpa [Repository.writeProgress, hf, hs, writeAnswer, Option.filter] using hflag
    · simp [Repository.writeProgress, hf, hs, writeAnswer, Option.filter]

theorem readAnswer_doomed {n : Nat} {e : Env} {w w' : World} {j : Uuid}
    {r : Option (Option Time × JobStatus)} (hx : exec n (.readFlags j) e w = some (w', r))
    (hd : Doomed j w') : readAnswer r = true := by
  simp only [exec, Option.some.injEq, Prod.mk.injEq] at hx
  obtain ⟨rfl, rfl⟩ := hx
  cases hf : w.jobs.find? j with
  | none => simp [Repository.readFlags, hf, readAnswer]
  | some row =>
    by_cases hs : row.status = .processing
    · simpa [Repository.readFlags, hf, readAnswer, hs] using hd row hf hs
    · simp [Repository.readFlags, hf, readAnswer, hs]

/-- At a checkpoint the run is on time: the items began and the checkpoints came by
`T + P`, and the last poll by `T`. -/
structure Timely (P T : Time) (ctx : PgJobContext) (l : List Happening) : Prop where
  starts : Within Op.starts (T + P) l
  checks : Within Op.checks (T + P) l
  polled : ∀ t ∈ ctx.lastPoll, t ≤ T

/-- After a checkpoint: whatever it answers, no item has begun late; and if it lets the
run go on, the run is on time and so is the next item. -/
structure Answered (ctx : PgJobContext) (es : List ItemEnd) (a : PgJobContext × Bool)
    (g : List Happening) : Prop where
  jobId : a.1.jobId = ctx.jobId
  interval : a.1.interval = ctx.interval
  cached : a.1.cached = a.2
  ended : endings (mine g) = es
  starts : Sure ctx.jobId (fun T l => Within Op.starts (T + ctx.interval) l) g
  timely : a.2 = false → Sure ctx.jobId (fun T l => Timely ctx.interval T a.1 l ∧
    ∃ m, l.head? = some m ∧ m.after.clock ≤ T + ctx.interval) g

structure Reading (ctx : PgJobContext) (es : List ItemEnd) (t : Time) (l : List Happening)
    (w₁ : World) (g : List Happening) : Prop where
  now : mine g = ⟨true, .now, t, w₁⟩ :: l
  clock : w₁.clock = t
  ended : endings l = es
  timely : Sure ctx.jobId (fun T _ => Timely ctx.interval T ctx l) g

theorem Reading.other {ctx : PgJobContext} {es : List ItemEnd} {t : Time} {l : List Happening}
    {w₁ : World} {g : List Happening} (h : Reading ctx es t l w₁ g) {o : Op} {r : o.Res}
    {w : World} : Reading ctx es t l w₁ (⟨false, o, r, w⟩ :: g) :=
  ⟨h.now, h.clock, h.ended, fun T hT => h.timely T hT.tail⟩

theorem Reading.polled {ctx ctx' : PgJobContext} {es : List ItemEnd} {t : Time}
    {l : List Happening} {w₁ : World} {g : List Happening} (h : Reading ctx es t l w₁ g)
    (hP : 0 ≤ ctx.interval) {o : Op} {r : o.Res} {w : World} (ho : o.prompt = true)
    (hs : o.starts = false) (hk : o.checks = false) (he : JobProcessor.ended ⟨true, o, r, w⟩ = none)
    (hid : ctx'.jobId = ctx.jobId) (hint : ctx'.interval = ctx.interval)
    (hlast : ctx'.lastPoll = some t) (hstop : Doomed ctx.jobId w → ctx'.cached = true) :
    Answered ctx es (ctx', ctx'.cached) (⟨true, o, r, w⟩ :: g) where
  jobId := hid
  interval := hint
  cached := rfl
  ended := by
    rw [mine_cons_own, endings_cons, he, h.now, endings_cons, h.ended]
    simp [JobProcessor.ended]
  starts := by
    intro T hT
    have hl := h.timely T hT.tail
    rw [mine_cons_own, h.now]
    exact (hl.starts.cons (m := ⟨true, .now, t, w₁⟩) (by simp [Op.starts])).cons (by simp [hs])
  timely := by
    intro hc T hT
    have hl := h.timely T hT.tail
    -- no time passes between the reading and the poll
    have hclock : w.clock = t := by
      have hi := hT.1
      rw [Instant, mine_cons_own, h.now, List.isChain_cons_cons] at hi
      exact (hi.1 ho).trans h.clock
    -- a poll after `T` would have answered true
    have hle : t ≤ T := by
      by_contra hlt
      have hd : Doomed ctx.jobId w := hT.2 _ List.mem_cons_self (by rw [hclock]; exact not_le.1 hlt)
      rw [hstop hd] at hc
      cases hc
    have hlim : t ≤ T + ctx.interval := le_add_of_le_of_nonneg hle hP
    rw [mine_cons_own, h.now]
    refine ⟨⟨?_, ?_, ?_⟩, _, rfl, hclock ▸ hlim⟩
    · exact (hl.starts.cons (m := ⟨true, .now, t, w₁⟩) (by simp [Op.starts])).cons (by simp [hs])
    · exact (hl.checks.cons (m := ⟨true, .now, t, w₁⟩) fun _ => h.clock ▸ hlim).cons (by simp [hk])
    · simpa [hlast] using hle

theorem cancelled_answered {n : Nat} {ctx : PgJobContext} {es : List ItemEnd} {w : World}
    {g : List Happening} (hP : 0 ≤ ctx.interval) (he : endings (mine g) = es)
    (ht : Sure ctx.jobId (fun T l => Timely ctx.interval T ctx l) g) :
    Amid (exec n) (fun _ => True) (fun _ a g => Answered ctx es a g) ctx.cancelled w g := by
  rw [cancelled_eq]
  refine Amid.act
    (I := fun _ g => endings (mine g) = es ∧
      Sure ctx.jobId (fun T l => Timely ctx.interval T ctx l) g)
    ⟨he, ht⟩ (fun _ _ _ _ _ _ _ _ h => ⟨h.1, h.2.other⟩) ?_
  rintro e w g ⟨he, ht⟩
  refine ⟨_, _, rfl, ?_⟩
  have hread : Reading ctx es (w.clock + e.elapsed) (mine g) { w with clock := w.clock + e.elapsed }
      (⟨true, .now, w.clock + e.elapsed, { w with clock := w.clock + e.elapsed }⟩ :: g) :=
    ⟨rfl, rfl, he, fun T hT => ht T hT.tail⟩
  split
  · split
    · refine Amid.act (I := fun _ g => Reading ctx es _ _ _ g) hread
        (fun _ _ _ _ _ _ _ _ h => h.other) ?_
      intro e' w' g' hr
      exact ⟨_, _, rfl, hr.polled hP rfl rfl rfl rfl rfl rfl rfl (writeAnswer_doomed (n := n) rfl)⟩
    · refine Amid.act (I := fun _ g => Reading ctx es _ _ _ g) hread
        (fun _ _ _ _ _ _ _ _ h => h.other) ?_
      intro e' w' g' hr
      exact ⟨_, _, rfl, hr.polled hP rfl rfl rfl rfl rfl rfl rfl (readAnswer_doomed (n := n) rfl)⟩
  · -- the last poll is recent, and it was on time
    rename_i hdue
    have hlim : ∀ T, Timely ctx.interval T ctx (mine g) →
        w.clock + e.elapsed ≤ T + ctx.interval := by
      intro T hT
      cases hl : ctx.lastPoll with
      | none => exact absurd (by simp [PgJobContext.due, hl]) hdue
      | some t =>
        have hle : t ≤ T := hT.polled t hl
        have hlt : w.clock + e.elapsed - t < ctx.interval := by
          simpa [PgJobContext.due, hl] using hdue
        linarith
    refine ⟨rfl, rfl, rfl, ?_, ?_, ?_⟩
    · rw [hread.now, endings_cons, he]
      simp [ended]
    · intro T hT
      exact (ht T hT.tail).starts.cons (by simp [Op.starts])
    · intro _ T hT
      have hl := ht T hT.tail
      exact ⟨⟨hl.starts.cons (by simp [Op.starts]), hl.checks.cons fun _ => hlim T hl, hl.polled⟩,
        _, rfl, hlim T hl⟩

/-! ### The whole batch -/

def summaryOf (total : Nat) (l : List Happening) : Summary :=
  Summary.recordAll { total := total } 0 (endings l)

/-- How a batch ends: no item began late, and if a checkpoint came late the run was
cancelled, with the summary of the items it had run. -/
structure NotLate (total : Nat) (P T : Time) (result : Except HandlerExc Json)
    (l : List Happening) : Prop where
  starts : Within Op.starts (T + P) l
  late : ¬ Within Op.checks (T + P) l → result = .error (.cancelled (summaryOf total l).json)

theorem item_timely {n : Nat} {ctx : PgJobContext} {es : List ItemEnd} {P : Time} {type : JobType}
    {j : Uuid} {w : World} {g : List Happening} {k : ItemEnd → Prg (Except HandlerExc Json)}
    {Q : World → Except HandlerExc Json → List Happening → Prop} (he : endings (mine g) = es)
    (ht : Sure j (fun T l => Timely P T ctx l ∧
      ∃ m, l.head? = some m ∧ m.after.clock ≤ T + P) g)
    (hk : ∀ w g (r : ItemEnd), endings (mine g) = es ++ [r] →
      Sure j (fun T l => Timely P T ctx l) g → Amid (exec n) (fun _ => True) Q (k r) w g) :
    Amid (exec n) (fun _ => True) Q
      (.act (.startHandler j type) fun _ => .act (.finishHandler type) k) w g := by
  refine Amid.act
    (I := fun _ g => endings (mine g) = es ∧ Sure j (fun T l => Timely P T ctx l ∧
      ∃ m, l.head? = some m ∧ m.after.clock ≤ T + P) g)
    ⟨he, ht⟩ (fun _ _ _ _ _ _ _ _ h => ⟨h.1, h.2.other⟩) ?_
  rintro e w g ⟨he, ht⟩
  refine ⟨_, _, rfl, ?_⟩
  refine Amid.act
    (I := fun _ g => endings (mine g) = es ∧ Sure j (fun T l => Timely P T ctx l) g)
    ⟨?_, ?_⟩ (fun _ _ _ _ _ _ _ _ h => ⟨h.1, h.2.other⟩) ?_
  · rw [mine_cons_own, endings_cons, he]
    simp [ended]
  · intro T hT
    obtain ⟨hl, m, hm, hle⟩ := ht T hT.tail
    have hclock := hT.1.rel_head? hm
    exact ⟨hl.starts.cons fun _ => (hclock rfl).trans_le hle, hl.checks.cons (by simp [Op.checks]),
      hl.polled⟩
  · rintro e w g ⟨he, ht⟩
    refine ⟨_, _, rfl, hk _ _ _ ?_ ?_⟩
    · rw [mine_cons_own, endings_cons, he]
      rfl
    · intro T hT
      have hl := ht T hT.tail
      exact ⟨hl.starts.cons (by simp [Op.starts]), hl.checks.cons (by simp [Op.checks]), hl.polled⟩

theorem handleBatch_notLate {n total : Nat} (items : List PayloadItem) {i : Nat}
    (ctx : PgJobContext) {s : Summary} {w : World} {g : List Happening} (hP : 0 ≤ ctx.interval)
    (hi : i = (endings (mine g)).length) (hs : s = summaryOf total (mine g))
    (ht : Sure ctx.jobId (fun T l => Timely ctx.interval T ctx l) g) :
    Amid (exec n) (fun _ => True)
      (fun _ result g => Sure ctx.jobId (fun T l => NotLate total ctx.interval T result l) g)
      (handleBatch total i items ctx s) w g := by
  induction items generalizing i ctx s w g with
  | nil =>
    intro T hT
    have hl := ht T hT
    exact ⟨hl.starts, fun hlate => absurd hl.checks hlate⟩
  | cons item items ih =>
    refine (cancelled_answered hP rfl ht).bind ?_
    rintro w' ⟨ctx', c⟩ g' hans
    obtain ⟨hid, hint, -, hend, hstarts, hgo⟩ := hans
    dsimp only at hid hint hend hstarts hgo ⊢
    rw [← hid, ← hint] at hstarts hgo ⊢
    split
    · -- cancelled here
      intro T hT
      refine ⟨hstarts T hT, fun _ => ?_⟩
      rw [summaryOf, hend, hs, summaryOf]
    · rename_i hc
      refine item_timely hend (hgo (by simpa using hc)) ?_
      intro w g r hend' ht'
      refine ih (ctx'.setProgress (percent (i + 1) total)) (hint ▸ hP) ?_ ?_ ?_
      · rw [hend', List.length_append, hi]
        rfl
      · rw [summaryOf, hend', Summary.recordAll_concat, hs, hi, summaryOf, Nat.zero_add]
      · intro T hT
        exact ⟨(ht' T hT).starts, (ht' T hT).checks, (ht' T hT).polled⟩

/-! ### The instant from which the batch is called off -/

def cancelsHere (j : Uuid) : Happening → Bool
  | ⟨_, .requestCancel id, r, _⟩ => decide (id = j) && r
  | _ => false

/-- At the instant `T` a cancellation of `j` is requested while it is processed, or the
job leaves `processing` for good. -/
def CalledOff (j : Uuid) (T : Time) (g : List Happening) : Prop :=
  (∃ m ∈ g, cancelsHere j m = true ∧ m.after.clock = T) ∨
  ∃ later m earlier, g = later ++ m :: earlier ∧ m.after.clock = T ∧
    ∀ m' ∈ later ++ [m], ∀ row, m'.after.jobs.find? j = some row → row.status ≠ .processing

def Flagged (j : Uuid) (w : World) : Prop :=
  ∃ row, w.jobs.find? j = some row ∧ row.cancelRequestedAt ≠ none

theorem Flagged.doomed {j : Uuid} {w : World} (h : Flagged j w) : Doomed j w := by
  obtain ⟨row, hf, hflag⟩ := h
  intro row' hf' _
  rw [hf, Option.some.injEq] at hf'
  subst hf'
  exact Option.isSome_iff_ne_none.2 hflag

theorem Flagged.exec {n : Nat} {o : Op} {e : Env} {w w' : World} {r : o.Res} {j : Uuid}
    (h : Flagged j w) (hx : exec n o e w = some (w', r)) : Flagged j w' := by
  obtain ⟨row, hf, hflag⟩ := h
  exact ⟨_, exec_row_some hx hf, onRow_flag _ _ _ hflag⟩

theorem cancelsHere_flagged {n : Nat} {j : Uuid} {m : Happening} {e : Env} {w : World}
    (hm : cancelsHere j m = true) (hx : exec n m.op e w = some (m.after, m.reply)) :
    Flagged j m.after := by
  obtain ⟨b, o, r, w'⟩ := m
  cases o with
  | requestCancel id =>
    simp only [cancelsHere, Bool.and_eq_true, decide_eq_true_eq] at hm
    obtain ⟨rfl, hr⟩ := hm
    have hwon := exec_target hx rfl
    rw [show won (.requestCancel id) r = r from rfl, hr] at hwon
    obtain ⟨row, hf, hg⟩ := Option.any_eq_true _ _ |>.1 hwon.symm
    refine ⟨_, exec_row_some hx hf, ?_⟩
    simp only [Op.guard, Bool.and_eq_true, decide_eq_true_eq] at hg
    simp [Op.onRow, hg]
  | _ => cases hm

theorem CalledOff.over {n : Nat} {j : Uuid} {T : Time} {g : List Happening} {w₀ w : World}
    (h : CalledOff j T g) (hl : Linked (exec n) w₀ g w) (hi : Instant g) : Over j T g := by
  have hclock := (hl.pairwise (R := fun w w' => w.clock ≤ w'.clock) (fun _ => le_refl _)
    (fun _ _ _ => le_trans) fun o e w w' r hx => by
      rw [exec_clock hx]
      exact le_add_of_nonneg_right (Int.natCast_nonneg _)).1
  have key : ∃ later m earlier, g = later ++ m :: earlier ∧ m.after.clock = T ∧
      ∀ m' ∈ later, Doomed j m'.after := by
    rcases h with ⟨m, hm, hreq, hT⟩ | ⟨later, m, earlier, rfl, hT, hgone⟩
    · obtain ⟨e, v, hx⟩ := hl.act hm
      have hflag := (hl.pairwise (R := fun w w' => Flagged j w → Flagged j w') (fun _ h => h)
        (fun _ _ _ h h' hf => h' (h hf)) fun o e w w' r hx hf => hf.exec hx).1
      obtain ⟨later, earlier, rfl⟩ := List.append_of_mem hm
      refine ⟨later, m, earlier, rfl, hT, ?_⟩
      intro m' hm'
      exact ((List.pairwise_append.1 hflag).2.2 m' hm' m List.mem_cons_self
        (cancelsHere_flagged hreq hx)).doomed
    · refine ⟨later, m, earlier, rfl, hT, ?_⟩
      intro m' hm' row hf hs
      exact absurd hs (hgone m' (List.mem_append_left _ hm') row hf)
  obtain ⟨later, m, earlier, rfl, rfl, hd⟩ := key
  refine ⟨hi, fun m' hm' hlt => ?_⟩
  rcases List.mem_append.1 hm' with hm' | hm'
  · exact hd m' hm'
  · exfalso
    rcases List.mem_cons.1 hm' with rfl | hm'
    · exact lt_irrefl _ hlt
    · have hle := (List.pairwise_cons.1 (List.pairwise_append.1 hclock).2.1).1 m' hm'
      exact absurd hlt (not_lt.2 hle)

/-- A batch that is called off at the instant `T` starts no item after `T + P`, and a
checkpoint after `T + P` ends it with the summary of the items it has run. -/
theorem batch_not_late (n : Nat) (items : List PayloadItem) (j : Uuid) {P : Time} (hP : 0 ≤ P)
    (script : Nat → List (Op × Env) × Env) (w : World) :
    ∃ w' result g,
      (handleBatch items.length 0 items { jobId := j, interval := P }
        { total := items.length }).among (exec n) script w [] = some (w', result, g) ∧
      ∀ T, Instant g → CalledOff j T g →
        (∀ m ∈ g, m.mine = true → m.op.starts = true → m.after.clock ≤ T + P) ∧
        ((∃ m ∈ g, m.mine = true ∧ m.op.checks = true ∧ T + P < m.after.clock) →
          result = .error (.cancelled (summaryOf items.length (mine g)).json)) := by
  have hrun : Amid (exec n) (fun _ => True)
      (fun _ result g => Sure j (fun T l => NotLate items.length P T result l) g)
      (handleBatch items.length 0 items { jobId := j, interval := P } { total := items.length })
      w [] :=
    handleBatch_notLate items { jobId := j, interval := P } hP rfl rfl
      fun T _ => ⟨by simp [Within, mine], by simp [Within, mine], by simp⟩
  obtain ⟨w', result, g, ha, hsure, hl⟩ := hrun.among script (by simp) .start
  refine ⟨w', result, g, ha, ?_⟩
  intro T hi hoff
  have hend := hsure T (hoff.over hl hi)
  constructor
  · intro m hm hmine
    exact hend.starts m (List.mem_filter.2 ⟨hm, hmine⟩)
  · rintro ⟨m, hm, hmine, hcheck, hlt⟩
    apply hend.late
    intro hwithin
    exact absurd (hwithin m (List.mem_filter.2 ⟨hm, hmine⟩) hcheck) (not_le.2 hlt)

def batchUnderWay : World :=
  { World.init with
    jobs := ⟨[{ Repository.NewJob.row { id := 1, type := .batch, payload := .null } 0
      with status := .processing }], by decide, by decide⟩ }

/-- The first item takes 8, then the cancellation is requested at 9; the second item
starts at once, before the next poll is due, and takes 16. -/
def requestedAtNine (i : Nat) : List (Op × Env) × Env :=
  [([], {}), ([], {}), ([], {}), ([], { elapsed := 8 }),
    ([(.requestCancel 1, { elapsed := 1 })], {}), ([], {}), ([], { elapsed := 16 })][i]?.getD
      ([], {})

/-- What is asked of that run: the poll is instantaneous, the request is there, the
second item has started, and the last checkpoint is late. -/
def lateCheckpoint (g : List Happening) : Bool :=
  decide (Instant g) && g.any (fun m => cancelsHere 1 m && decide (m.after.clock = 9)) &&
    g.any (fun m => m.mine && m.op.starts && decide (m.after.clock = 9)) &&
    g.any fun m => m.mine && m.op.checks && decide (19 < m.after.clock)

def threeItems : List PayloadItem := [.email .null, .report .null, .webhook .null]

theorem batch_not_late_requestedAtNine :
    ∃ w' result g,
      (handleBatch threeItems.length 0 threeItems { jobId := 1, interval := 10 }
        { total := threeItems.length }).among (exec 1) requestedAtNine batchUnderWay [] =
          some (w', result, g) ∧
      lateCheckpoint g = true ∧
      result = .error (.cancelled (summaryOf threeItems.length (mine g)).json) := by
  obtain ⟨w', result, g, ha, hlate⟩ :=
    batch_not_late 1 threeItems 1 (P := 10) (by decide) requestedAtNine batchUnderWay
  have hg : ((handleBatch threeItems.length 0 threeItems { jobId := 1, interval := 10 }
      { total := threeItems.length }).among (exec 1) requestedAtNine batchUnderWay []).any
        (fun x => lateCheckpoint x.2.2) = true := by
    decide +kernel
  rw [ha, Option.any_some] at hg
  refine ⟨w', result, g, ha, hg, ?_⟩
  simp only [lateCheckpoint, Bool.and_eq_true, decide_eq_true_eq, List.any_eq_true] at hg
  obtain ⟨⟨⟨hi, hreq⟩, -⟩, m, hm, ⟨hmine, hcheck⟩, hlt⟩ := hg
  exact (hlate 9 hi (.inl hreq)).2 ⟨m, hm, hmine, hcheck, hlt⟩

end JobProcessor
