import JobProcessor.Interleave.Alone
import JobProcessor.Proofs.Effects
import JobProcessor.Store.ScoreRange

/-! The promotion drain with nothing in between and the clock standing still. Each
round takes a prefix of what is left of the due ids, so after all rounds the due
ids were taken in the order of their scores; and an id leaves the sorted set only
after its message was added. -/

namespace JobProcessor

open Interleave Prog Store

/-- The ids that are due, in the order the ticker takes them. -/
def dueIds (w : World) : List Uuid := w.delayed.range 0 w.clock

/-- The ids that have a row, each with the stream of its priority. -/
def routed (settings : Settings) (t : Jobs) (ids : List Uuid) : List (String × Uuid) :=
  ids.filterMap fun i => (t.find? i).map fun r => (settings.streamForPriority r.priority, i)

/-- The row after the bulk update for `ids`. -/
def Job.promoted (ids : List Uuid) (r : Job) : Job :=
  if r.id ∈ ids ∧ r.status = .scheduled then { r with status := .pending } else r

theorem Job.promoted_id (ids : List Uuid) (r : Job) : (r.promoted ids).id = r.id := by
  unfold Job.promoted
  split <;> rfl

theorem Job.promoted_priority (ids : List Uuid) (r : Job) :
    (r.promoted ids).priority = r.priority := by
  unfold Job.promoted
  split <;> rfl

/-- Since `w₀` the messages `queued` were added, the ids `removed` left the sorted set and
the rows of `promoted` were updated. -/
structure DrainState (settings : Settings) (w₀ : World) (queued : List (String × Uuid))
    (removed promoted : List Uuid) (w : World) : Prop where
  clock : w.clock = w₀.clock
  rows : w.jobs.rows = w₀.jobs.rows.map (Job.promoted promoted)
  delayed : w.delayed = w₀.delayed.zrem removed
  streams : ∃ new, w.streams.entries = w₀.streams.entries ++ new ∧
    new.map (fun e => (e.stream, e.fields, e.state)) =
      queued.map fun q => (q.1, some q.2, .undelivered)

/-- No due id with a row is lost: it is in the sorted set or has a message in its stream. -/
def NoneLost (settings : Settings) (w₀ w : World) : Prop :=
  ∀ j row s, w₀.delayed.score? j = some s → s ≤ w₀.clock → w₀.jobs.find? j = some row →
    (w.delayed.score? j).isSome = true ∨
      ∃ e ∈ w.streams.entries, e.stream = settings.streamForPriority row.priority ∧
        e.fields = some j

section Pages

variable {n : Nat} {app : App} {settings : Settings} {w₀ w w' : World}
  {queued : List (String × Uuid)} {removed promoted done : List Uuid}

theorem routed_append (t : Jobs) (a b : List Uuid) :
    routed settings t (a ++ b) = routed settings t a ++ routed settings t b :=
  List.filterMap_append

theorem lookup_promotionInfo (t : Jobs) {ids : List Uuid} {i : Uuid} (hi : i ∈ ids) :
    (Repository.getPromotionInfo t ids).lookup i = (t.find? i).map Job.priority := by
  unfold Repository.getPromotionInfo Table.find?
  induction t.rows with
  | nil => rfl
  | cons r rows ih =>
    by_cases hr : r.id = i
    · subst hr
      rw [List.filter_cons_of_pos (by simpa using hi), List.map_cons, List.lookup_cons_self,
        List.find?_cons_of_pos (by simp)]
      rfl
    · rw [List.find?_cons_of_neg (by simpa using hr), ← ih, List.filter_cons]
      split
      · have hne : (i == r.id) = false := beq_false_of_ne fun h => hr h.symm
        rw [List.map_cons, List.lookup_cons, hne]
      · rfl

theorem route_eq (t : Jobs) (ids : List Uuid) :
    route app ids (Repository.getPromotionInfo t ids) = routed app.settings t ids := by
  unfold route routed
  apply List.filterMap_congr
  intro i hi
  rw [lookup_promotionInfo t hi, Option.map_map]
  rfl

theorem DrainState.routed_eq (hd : DrainState settings w₀ queued removed promoted w) (ids : List Uuid) :
    routed settings w.jobs ids = routed settings w₀.jobs ids := by
  unfold routed
  apply List.filterMap_congr
  intro i _
  have hfind : w.jobs.find? i = (w₀.jobs.find? i).map (Job.promoted promoted) := by
    unfold Table.find?
    rw [hd.rows, List.find?_map]
    congr 2
    funext r
    simp [Job.promoted_id]
  rw [hfind, Option.map_map]
  congr 1
  funext r
  simp [Job.promoted_priority]

theorem DrainState.due (hd : DrainState settings w₀ queued removed promoted w) :
    dueIds w = (dueIds w₀).filter fun i => i ∉ removed := by
  unfold dueIds
  rw [hd.delayed, hd.clock, ZSet.range_zrem]

/-- Where every removed id that has a row was queued, none is lost. -/
theorem DrainState.covered (hd : DrainState settings w₀ queued removed promoted w)
    (hq : routed settings w₀.jobs removed ⊆ queued) : NoneLost settings w₀ w := by
  intro j row s hs _ hrow
  rw [hd.delayed, ZSet.score?_zrem]
  by_cases hj : j ∈ removed
  · right
    have hmem : (settings.streamForPriority row.priority, j) ∈ queued := by
      apply hq
      refine List.mem_filterMap.2 ⟨j, hj, ?_⟩
      rw [hrow]
      rfl
    obtain ⟨new, hnew, hmap⟩ := hd.streams
    have hin : (settings.streamForPriority row.priority, some j, Delivery.undelivered) ∈
        new.map fun e => (e.stream, e.fields, e.state) := by
      rw [hmap]
      exact List.mem_map.2 ⟨_, hmem, rfl⟩
    obtain ⟨e, he, heq⟩ := List.mem_map.1 hin
    rw [Prod.mk.injEq, Prod.mk.injEq] at heq
    exact ⟨e, hnew ▸ List.mem_append_right _ he, heq.1, heq.2.1⟩
  · left
    rw [if_neg hj, hs]
    rfl

/-- The due ids still to come are those not removed yet. -/
theorem DrainState.rest {todo : List Uuid}
    (hd : DrainState settings w₀ queued removed promoted w) (hsplit : removed ++ todo = dueIds w₀) :
    dueIds w = todo := by
  have hnodup : (removed ++ todo).Nodup := hsplit ▸ ZSet.nodup_range _ _ _
  rw [List.nodup_append] at hnodup
  rw [hd.due, ← hsplit, List.filter_append, List.filter_eq_nil_iff.2, List.filter_eq_self.2,
    List.nil_append]
  · intro i hi
    rw [decide_eq_true_eq]
    exact fun hr => hnodup.2.2 i hr i hi rfl
  · intro i hi
    simpa using hi

theorem rows_promote {t₀ t : Jobs} (h : t.rows = t₀.rows.map (Job.promoted done))
    (ids : List Uuid) : (Repository.promoteScheduledToPending t ids).1.rows =
      t₀.rows.map (Job.promoted (done ++ ids)) := by
  change t.rows.map _ = _
  rw [h, List.map_map]
  apply List.map_congr_left
  intro r _
  by_cases hs : r.status = .scheduled
  · by_cases hr : r.id ∈ done
    · simp [Job.promoted, hs, hr]
    · simp [Job.promoted, hs, hr]
  · simp [Job.promoted, hs]

theorem Env.still {e : Env} (he : e.elapsed = 0) (t : Time) : t + (e.elapsed : Int) = t := by
  rw [he]
  exact Int.add_zero t

theorem drainState_nil (settings : Settings) (w : World) : DrainState settings w [] [] [] w where
  clock := rfl
  rows := by
    have hid : Job.promoted [] = id := funext fun r => if_neg (by simp)
    rw [hid, List.map_id]
  delayed := (ZSet.zrem_nil _).symm
  streams := ⟨[], by simp, rfl⟩

theorem xaddAll_runs (qs : List (String × Uuid))
    (hd : DrainState settings w₀ queued removed promoted w)
    (hq : routed settings w₀.jobs removed ⊆ queued) :
    Runs (exec n) (fun e => e.elapsed = 0) (NoneLost settings w₀)
      (fun w' _ => DrainState settings w₀ (queued ++ qs) removed promoted w') (xaddAll qs) w := by
  induction qs generalizing w queued with
  | nil => exact ⟨hd.covered hq, by simpa using hd⟩
  | cons q qs ih =>
    obtain ⟨s, i⟩ := q
    refine ⟨hd.covered hq, fun e he =>
      ⟨{ w with streams := w.streams.xadd s (some i) }, (), ?_, ?_⟩⟩
    · simp only [exec, Env.still he]
    have hd' : DrainState settings w₀ (queued ++ [(s, i)]) removed promoted
        { w with streams := w.streams.xadd s (some i) } := by
      refine ⟨hd.clock, hd.rows, hd.delayed, ?_⟩
      · obtain ⟨new, hnew, hmap⟩ := hd.streams
        refine ⟨new ++ [⟨w.streams.next, s, some i, .undelivered⟩], ?_, ?_⟩
        · rw [← List.append_assoc, ← hnew]
          rfl
        · rw [List.map_append, hmap, List.map_append]
          rfl
    have hnext := ih hd' fun q h => List.mem_append_left _ (hq h)
    rw [List.append_assoc] at hnext
    exact hnext

theorem promoteDue_runs
    (hd : DrainState app.settings w₀ (routed app.settings w₀.jobs done) done done w)
    (hsplit : done ++ dueIds w = dueIds w₀) :
    Runs (exec n) (fun e => e.elapsed = 0) (NoneLost app.settings w₀)
      (fun w' k => ∃ new, new = (dueIds w).take app.settings.tickerBatchSize ∧ k = new.length ∧
        DrainState app.settings w₀ (routed app.settings w₀.jobs (done ++ new))
          (done ++ new) (done ++ new) w' ∧
        (done ++ new) ++ dueIds w' = dueIds w₀ ∧ dueIds w = new ++ dueIds w')
      (promoteDue app) w := by
  have hcov : ∀ {w'}, DrainState app.settings w₀
      (routed app.settings w₀.jobs done) done done w' → NoneLost app.settings w₀ w' :=
    fun hd => hd.covered (List.Subset.refl _)
  have hcut : dueIds w = (dueIds w).take app.settings.tickerBatchSize ++
      (dueIds w).drop app.settings.tickerBatchSize := (List.take_append_drop _ _).symm
  generalize hnew : (dueIds w).take app.settings.tickerBatchSize = new at hcut
  simp only [promoteDue, op_bind, mpure_eq]
  refine ⟨hcov hd, fun e he => ⟨w, w.clock, by simp only [exec, Env.still he], ?_⟩⟩
  refine ⟨hcov hd, fun e he => ⟨w, new, ?_, ?_⟩⟩
  · simp only [exec, Env.still he, ZSet.zrangebyscore_eq, ← hnew]
    rfl
  dsimp only
  split
  · rename_i hempty
    rw [List.isEmpty_iff] at hempty
    subst hempty
    refine ⟨hcov hd, [], rfl, rfl, ?_, ?_, rfl⟩
    · rw [List.append_nil]
      exact hd
    · rw [List.append_nil, hsplit]
  · refine ⟨hcov hd, fun e he => ⟨w, Repository.getPromotionInfo w.jobs new, ?_, ?_⟩⟩
    · simp only [exec, Env.still he]
    dsimp only
    rw [route_eq, hd.routed_eq]
    have hq : routed app.settings w₀.jobs done ⊆
        routed app.settings w₀.jobs done := List.Subset.refl _
    refine (xaddAll_runs _ hd hq).bind ?_
    intro w₁ _ hd₁
    rw [← routed_append] at hd₁
    have hcov₁ : NoneLost app.settings w₀ w₁ := by
      apply hd₁.covered
      rw [routed_append]
      exact List.subset_append_left _ _
    refine ⟨hcov₁, fun e he => ⟨{ w₁ with delayed := w₁.delayed.zrem new }, (), ?_, ?_⟩⟩
    · simp only [exec, Env.still he]
    have hd₂ : DrainState app.settings w₀ (routed app.settings w₀.jobs (done ++ new))
        (done ++ new) done { w₁ with delayed := w₁.delayed.zrem new } := by
      refine ⟨hd₁.clock, hd₁.rows, ?_, hd₁.streams⟩
      rw [hd₁.delayed, ZSet.zrem_zrem]
    refine ⟨hd₂.covered (List.Subset.refl _), fun e he => ⟨_, _, rfl, ?_⟩⟩
    have hd₃ : DrainState app.settings w₀ (routed app.settings w₀.jobs (done ++ new))
        (done ++ new) (done ++ new)
        { w₁ with
          clock := w₁.clock + e.elapsed
          delayed := w₁.delayed.zrem new
          jobs := (Repository.promoteScheduledToPending w₁.jobs new).1 } := by
      refine ⟨?_, ?_, hd₂.delayed, hd₂.streams⟩
      · rw [Env.still he]
        exact hd₂.clock
      · exact rows_promote hd₁.rows new
    have hrest : (done ++ new) ++ (dueIds w).drop app.settings.tickerBatchSize = dueIds w₀ := by
      rw [List.append_assoc, ← hcut, hsplit]
    have hdue := hd₃.rest hrest
    refine ⟨hd₃.covered (List.Subset.refl _), new, rfl, rfl, hd₃, ?_, ?_⟩
    · rw [← hrest]
      exact congrArg _ hdue
    · exact hcut.trans (congrArg _ hdue.symm)

theorem drainDue_runs (hsize : 1 ≤ app.settings.tickerBatchSize) (fuel : Nat)
    (hd : DrainState app.settings w₀ (routed app.settings w₀.jobs done) done done w)
    (hsplit : done ++ dueIds w = dueIds w₀) (hfuel : (dueIds w).length < fuel) :
    Runs (exec n) (fun e => e.elapsed = 0) (NoneLost app.settings w₀)
      (fun w' out => out = true ∧ DrainState app.settings w₀
        (routed app.settings w₀.jobs (dueIds w₀)) (dueIds w₀) (dueIds w₀) w')
      (drainDue app fuel) w := by
  induction fuel generalizing done w with
  | zero => exact absurd hfuel (Nat.not_lt_zero _)
  | succ fuel ih =>
    rw [drainDue]
    refine (promoteDue_runs hd hsplit).bind ?_
    rintro w' k ⟨new, hnew, rfl, hd', hsplit', hrest⟩
    have hlen := congrArg List.length hrest
    have hpage := congrArg List.length hnew
    rw [List.length_append] at hlen
    rw [List.length_take] at hpage
    split
    · exact ih hd' hsplit' (by omega)
    · have hnone : dueIds w' = [] := List.eq_nil_of_length_eq_zero (by omega)
      rw [hnone, List.append_nil] at hsplit'
      rw [hsplit'] at hd'
      exact ⟨hd'.covered (List.Subset.refl _), rfl, hd'⟩

end Pages

/-! ### What a drain has done -/

def World.isDue (w : World) (j : Uuid) : Bool := (w.delayed.score? j).any fun s => s ≤ w.clock

/-- A drain from `w` to `w'` is exact: the due ids have left the sorted set and no other has;
those with a row were added to the stream of its priority, once each and in the order of
their scores; and the due rows that were scheduled are pending. -/
structure DrainExact (settings : Settings) (w w' : World) : Prop where
  delayed : ∀ j, w'.delayed.score? j = (w.delayed.score? j).filter fun s => w.clock < s
  queued : ∃ ids new, ids.Nodup ∧ (∀ j, j ∈ ids ↔ w.isDue j = true) ∧
    (ids.Pairwise fun i j => ∀ s ∈ w.delayed.score? i, ∀ t ∈ w.delayed.score? j, s ≤ t) ∧
    w'.streams.entries = w.streams.entries ++ new ∧
    new.map (fun e => (e.stream, e.fields, e.state)) =
      (routed settings w.jobs ids).map fun q => (q.1, some q.2, .undelivered)
  rows : w'.jobs.rows = w.jobs.rows.map fun r =>
    if w.isDue r.id = true ∧ r.status = .scheduled then { r with status := .pending } else r

theorem mem_dueIds {w : World} (hscores : ∀ j s, w.delayed.score? j = some s → 0 ≤ s) (j : Uuid) :
    j ∈ dueIds w ↔ w.isDue j = true := by
  rw [dueIds, ZSet.mem_range, World.isDue, Option.any_eq_true]
  constructor
  · rintro ⟨s, hs, -, hle⟩
    exact ⟨s, hs, by simpa using hle⟩
  · rintro ⟨s, hs, hle⟩
    exact ⟨s, hs, hscores j s hs, by simpa using hle⟩

theorem DrainState.exact {settings : Settings} {w w' : World}
    (hscores : ∀ j s, w.delayed.score? j = some s → 0 ≤ s)
    (hd : DrainState settings w (routed settings w.jobs (dueIds w)) (dueIds w) (dueIds w) w') :
    DrainExact settings w w' where
  delayed j := by
    rw [hd.delayed, ZSet.score?_zrem]
    simp only [mem_dueIds hscores, World.isDue]
    cases hs : w.delayed.score? j with
    | none => rfl
    | some s =>
      by_cases hle : s ≤ w.clock
      · simp [Option.filter, hle]
      · simp [Option.filter, hle]
  queued := by
    obtain ⟨new, hnew, hmap⟩ := hd.streams
    exact ⟨dueIds w, new, ZSet.nodup_range _ _ _, mem_dueIds hscores, ZSet.range_sorted _ _ _,
      hnew, hmap⟩
  rows := by
    rw [hd.rows]
    apply List.map_congr_left
    intro r _
    simp only [Job.promoted, mem_dueIds hscores]

/-- Repeating `promote_due` while a batch is full, with nothing in between and the clock
standing still; and wherever the process stops on the way, no due job is lost. -/
theorem drain_exact (app : App) (hsize : 1 ≤ app.settings.tickerBatchSize) (w : World)
    (hscores : ∀ j s, w.delayed.score? j = some s → 0 ≤ s) (fuel : Nat)
    (hfuel : w.delayed.items.length < fuel) (env : Nat → Env) (henv : ∀ i, (env i).elapsed = 0) :
    (∃ w', (drainDue app fuel).eval (exec app.settings.workerConcurrency) env w = some (w', true) ∧
      DrainExact app.settings w w') ∧
    ∀ k, ∃ wk, (drainDue app fuel).cut (exec app.settings.workerConcurrency) k env w = some wk ∧
      NoneLost app.settings w wk := by
  have hlen : (dueIds w).length < fuel := by
    have hle : (dueIds w).length ≤ w.delayed.items.length := by
      rw [dueIds, ZSet.range, List.length_map, (perm_orderBy _ _).length_eq]
      exact List.length_filter_le _ _
    omega
  have hstart : DrainState app.settings w (routed app.settings w.jobs []) [] [] w :=
    drainState_nil app.settings w
  have hruns := drainDue_runs (n := app.settings.workerConcurrency) hsize fuel hstart rfl hlen
  constructor
  · obtain ⟨w', out, he, rfl, hd⟩ := hruns.eval env henv
    exact ⟨w', he, hd.exact hscores⟩
  · exact hruns.cut env henv

/-- Pages of two: a job without a row, two due jobs with equal scores, and one for later. -/
def threeDue : World :=
  { World.init with
    clock := 50
    jobs := ⟨[
      { Repository.NewJob.row
          { id := 2, type := .email, payload := .null, priority := .high, scheduledAt := some 7 } 0
        with status := .scheduled },
      { Repository.NewJob.row { id := 3, type := .email, payload := .null, scheduledAt := some 7 } 0
        with status := .scheduled }], by decide, by decide⟩
    delayed := ⟨[(4, 90), (3, 7), (1, 5), (2, 7)], by decide⟩ }

def pagesOfTwo : App :=
  { defaultApp with
    settings := { tickerBatchSize := 2, checkTimeoutInvariant := Settings.default_timeouts } }

theorem drain_exact_threeDue :
    ∃ w', (drainDue pagesOfTwo 5).eval (exec 10) (fun _ => {}) threeDue = some (w', true) ∧
      w'.delayed.score? 1 = none ∧ w'.delayed.score? 4 = some 90 ∧
      DrainExact pagesOfTwo.settings threeDue w' := by
  obtain ⟨⟨w', he, hx⟩, -⟩ := drain_exact pagesOfTwo (by decide) threeDue (by
    intro j s hs
    have hm := ZSet.mem_items_iff.2 hs
    revert hm
    simp only [threeDue, List.mem_cons, Prod.mk.injEq, List.not_mem_nil, or_false]
    omega) 5 (by decide) (fun _ => {}) fun _ => rfl
  exact ⟨w', he, (hx.delayed 1).trans (by decide), (hx.delayed 4).trans (by decide), hx⟩

end JobProcessor
