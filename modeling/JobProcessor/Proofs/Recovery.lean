import JobProcessor.Proofs.Completion
import JobProcessor.Proofs.ReaperPass
import JobProcessor.Proofs.Reconcile
import JobProcessor.Proofs.References
import JobProcessor.Proofs.Stranded

/-! After a crash of everything but the stores: once the visibility timeout has passed,
one pass of the reaper and one of the reconciliation bring every job back into the
queue that still left a trace, and the queue then runs dry. -/

namespace JobProcessor

open Interleave Prog Store Repository

/-! ### Passes that take nothing -/

def Op.takes : Op → Bool
  | .xreadgroup _ _ _ => true
  | .zrem _ => true
  | .semAcquire _ => true
  | .semRelease _ => true
  | _ => false

/-- A process has only added to the queue since `w₀`, and what it has handed off is there. -/
structure Lodged (w₀ w : World) (h : Hist) : Prop where
  told : ∀ x ∈ h, ∀ t ∈ tells x.1 x.2, 0 ≤ t
  world : Chronology w
  clock : w₀.clock ≤ w.clock
  inUse : w.inUse = w₀.inUse
  sent : ∀ s id u, (⟨.xadd s id, u⟩ : Reply Op Op.Res) ∈ h →
    ∃ e ∈ w.streams.entries, e.stream = s ∧ e.fields = some id ∧ e.state = .undelivered
  parked : ∀ id t u, (⟨.zadd id t, u⟩ : Reply Op Op.Res) ∈ h → w.delayed.score? id ≠ none
  waiting : ∀ e ∈ w₀.streams.entries, e.state = .undelivered → e ∈ w.streams.entries
  members : ∀ j, w₀.delayed.score? j ≠ none → w.delayed.score? j ≠ none

section Lodged

variable {app : App} {n : Nat} {o : Op} {e : Env} {w₀ w w' : World} {r : o.Res} {h : Hist}

theorem lodged_nil (hw : Chronology w) : Lodged w w [] where
  told x hx := by cases hx
  world := hw
  clock := Int.le_refl _
  inUse := rfl
  sent _ _ _ hx := by cases hx
  parked _ _ _ hx := by cases hx
  waiting _ he _ := he
  members _ hj := hj

theorem exec_undelivered (he : exec n o e w = some (w', r)) (ho : o.takes = false)
    {en : Entry (Option Uuid)} (hmem : en ∈ w.streams.entries) (hu : en.state = .undelivered) :
    en ∈ w'.streams.entries := by
  cases o with
  | xreadgroup c ss k => cases ho
  | xadd s id =>
    simp only [exec, Option.some.injEq, Prod.mk.injEq] at he
    obtain ⟨rfl, -⟩ := he
    exact List.mem_append_left _ hmem
  | xack s i =>
    simp only [exec, Option.some.injEq, Prod.mk.injEq] at he
    obtain ⟨rfl, -⟩ := he
    exact Streams.mem_xack s i hmem hu
  | xautoclaim s idle a k =>
    simp only [exec, Option.some.injEq, Prod.mk.injEq] at he
    obtain ⟨rfl, -⟩ := he
    refine List.mem_map.2 ⟨en, hmem, ?_⟩
    dsimp only
    -- what is claimed was pending
    rw [if_neg]
    intro hin
    obtain ⟨en', hen', hid⟩ := List.mem_map.1 hin
    obtain ⟨hmem', -, hp⟩ := @Streams.mem_xautoclaim _ _ _ s reaperName idle a k _ hen'
    obtain rfl := List.inj_on_of_nodup_map w.streams.nodup_ids hmem' hmem hid
    rw [Entry.isPending, hu] at hp
    cases hp
  | _ =>
    rw [exec_streams he (by simp) (by simp) (by simp) (by simp)]
    exact hmem

theorem exec_member (he : exec n o e w = some (w', r)) (ho : o.takes = false) {j : Uuid}
    (hj : w.delayed.score? j ≠ none) : w'.delayed.score? j ≠ none := by
  rw [exec_score he]
  cases o with
  | zadd i t =>
    dsimp only
    split
    · simp
    · exact hj
  | zrem ids => cases ho
  | _ => exact hj

theorem Lodged.step (hl : Lodged w₀ w h) (hd : dates h o) (ho : o.takes = false)
    (he : exec n o e w = some (w', r)) : Lodged w₀ w' (⟨o, r⟩ :: h) where
  told x hx := by
    rcases List.mem_cons.1 hx with rfl | hx
    · exact exec_tells he hl.world
    · exact hl.told x hx
  world := hl.world.exec hl.told hd he
  clock := hl.clock.trans (exec_later he)
  inUse := by
    rw [← hl.inUse]
    funext c
    rw [exec_inUse he]
    cases o <;> first | rfl | cases ho
  sent s id u hx := by
    rcases List.mem_cons.1 hx with hx | hx
    · cases hx
      simp only [exec, Option.some.injEq, Prod.mk.injEq] at he
      obtain ⟨rfl, -⟩ := he
      exact ⟨_, List.mem_append_right _ List.mem_cons_self, rfl, rfl, rfl⟩
    · obtain ⟨en, hen, hs, hf, hu⟩ := hl.sent s id u hx
      exact ⟨en, exec_undelivered he ho hen hu, hs, hf, hu⟩
  parked id t u hx := by
    rcases List.mem_cons.1 hx with hx | hx
    · cases hx
      rw [exec_score he]
      simp
    · exact exec_member he ho (hl.parked id t u hx)
  waiting en hen hu := exec_undelivered he ho (hl.waiting en hen hu) hu
  members j hj := exec_member he ho (hl.members j hj)

theorem lodged_ends {α : Type} {p : Prg α}
    (hp : Emits Valid (fun h o => dates h o ∧ o.takes = false) (fun _ _ => True) [] p)
    (hw : Chronology w) : Ends (exec n) (fun _ => True) (fun w' _ g => Lodged w w' g) p w [] := by
  refine (hp.ends (I := fun w' g => Lodged w w' g) ?_ (lodged_nil hw)).mono fun _ _ _ hp => hp.2
  rintro g o e w₁ - ⟨hd, ho⟩ hl
  obtain ⟨w₂, r, he⟩ := exec_total (n := n) (o := o) (e := e) (w := w₁) (by rintro c rfl; cases ho)
  exact ⟨w₂, r, he, exec_valid he, hl.step hd ho he⟩

theorem gives_plain (h : Hist) (o : Op) (ho : o.routine = true) : dates h o ∧ o.takes = false :=
  ⟨dates_plain h o ho, by cases o <;> first | rfl | cases ho⟩

theorem retry_gives (job : Job) (error : Json) (h : Hist) :
    Emits Valid (fun h o => dates h o ∧ o.takes = false) (fun _ _ => True) h
      (scheduleRetryOrFail app job error) := by
  refine ((scheduleRetryOrFail_dates job error h).and (scheduleRetryOrFail_emits job error h)).mono
    (fun g o ho => ⟨ho.1, ?_⟩) fun _ _ _ => trivial
  have hi := ho.2
  cases o <;> first | rfl | exact hi.elim

theorem reapStale_gives (fuel : Nat) :
    Emits Valid (fun h o => dates h o ∧ o.takes = false) (fun _ _ => True) []
      (reapStale app fuel) := by
  refine reapStale_of_one gives_plain (fun _ _ _ _ _ _ => ⟨trivial, rfl⟩)
    (reapOne_of_retry gives_plain
    (fun job error h _ => retry_gives job error h) (fun _ _ _ => ⟨trivial, rfl⟩)
    (fun job t h hj ht => ⟨?_, rfl⟩) fun _ _ => ⟨trivial, rfl⟩) fuel []
  exact ⟨_, hj, t, Option.mem_toList.2 ht, Int.le_refl _⟩

theorem reconcileOrphans_gives (fuel : Nat) :
    Emits Valid (fun h o => dates h o ∧ o.takes = false) (fun _ _ => True) []
      (reconcileOrphans app fuel) := by
  exact reconcileOrphans_of_listed gives_plain (fun _ _ _ => ⟨trivial, rfl⟩)
    (fun _ _ _ hl ht => ⟨hl.aware ht, rfl⟩) (fun _ _ => ⟨trivial, rfl⟩) fuel []

end Lodged

/-! ### Back into the queue -/

/-- Every job has ended, or is queued and awaited or due for reconciliation. -/
def Owed (app : App) (cutoff : Time) (w : World) : Prop :=
  ∀ j row, w.jobs.find? j = some row → row.status.terminal = true ∨
    row.status.claimable = true ∧ (Awaited app w j ∨ row.unsynced cutoff = true)

/-- What a crash may leave: a processing job has a stale message, and a queued one is
awaited or its handoff was not finished. -/
structure Salvageable (app : App) (w : World) : Prop where
  world : Chronology w
  free : ∀ c, w.inUse c < app.settings.workerConcurrency
  processing : ∀ j row, w.jobs.find? j = some row → row.status = .processing →
    ∃ e ∈ w.streams.entries, app.settings.isStale w.clock e = true ∧ e.fields = some j
  queued : ∀ j row, w.jobs.find? j = some row → row.status.claimable = true →
    Awaited app w j ∨ row.unsynced (w.clock - app.settings.reconcileGraceS) = true

section Passes

variable {app : App} {w w' : World} {h : Hist}

theorem Lodged.awaited {j : Uuid} (hl : Lodged w w' h) (ha : Awaited app w j) :
    Awaited app w' j := by
  rcases ha with ⟨en, hen, hw, hj⟩ | ⟨s, hs, -⟩
  · have hu : en.state = .undelivered := by
      simp only [Streams.waits, Bool.and_eq_true, decide_eq_true_eq] at hw
      exact hw.2
    exact .inl ⟨en, hl.waiting en hen hu, hw, hj⟩
  · obtain ⟨s', hs'⟩ := Option.ne_none_iff_exists'.1 (hl.members j (by simp [hs]))
    exact .inr ⟨s', hs', hl.world.scores j s' hs'⟩

theorem Lodged.handed {row : Job} (hl : Lodged w w' h)
    (hh : handoffs row.id h = [requeue app.settings row]) : Awaited app w' row.id := by
  have hmem : requeue app.settings row ∈ handoffs row.id h := hh ▸ List.mem_cons_self
  obtain ⟨⟨o, r⟩, hx, heq⟩ := List.mem_map.1
    (List.mem_of_mem_filter (List.mem_of_mem_filter hmem))
  have hcases : (∃ t, requeue app.settings row = .zadd row.id t) ∨
      requeue app.settings row = .xadd (app.settings.streamForPriority row.priority) row.id := by
    unfold requeue
    split
    · exact .inl ⟨_, rfl⟩
    · exact .inr rfl
  rcases hcases with ⟨t, hq⟩ | hq
  · obtain rfl : o = .zadd row.id t := heq.trans hq
    obtain ⟨s, hs⟩ := Option.ne_none_iff_exists'.1 (hl.parked _ _ _ hx)
    exact .inr ⟨s, hs, hl.world.scores _ s hs⟩
  · obtain rfl : o = .xadd (app.settings.streamForPriority row.priority) row.id := heq.trans hq
    obtain ⟨en, hen, hs, hf, hu⟩ := hl.sent _ _ _ hx
    refine .inl ⟨en, hen, ?_, hf⟩
    simp [Streams.waits, hs, hu, Settings.streamForPriority_mem]

theorem reapStale_salvages (hT : ∀ row, app.settings.plans row w.clock = true)
    (hsize : 1 ≤ app.settings.reaperBatchSize) (hs : Salvageable app w) {fuel : Nat}
    (hfuel : w.streams.entries.length < fuel) :
    Ends (exec app.settings.workerConcurrency) (fun e => e.elapsed = 0)
      (fun w' out g => (∃ handled, out = .ok handled) ∧ Lodged w w' g ∧
        Owed app (w.clock - app.settings.reconcileGraceS) w') (reapStale app fuel) w [] := by
  have hsweep := reapStreams_ends (n := app.settings.workerConcurrency) hsize hfuel
    app.settings.orderedStreams [] (fun _ _ _ _ _ row _ _ _ => hT row) (swept_nil app.settings w) (List.nil_subset _) (by simp)
  have hlodge : Ends (exec app.settings.workerConcurrency) (fun e => e.elapsed = 0)
      (fun w' _ g => Lodged w w' g) (reapStale app fuel) w [] :=
    (lodged_ends (reapStale_gives fuel) hs.world).weaken fun _ _ => trivial
  refine (hsweep.and hlodge).mono ?_
  rintro w' out g ⟨⟨done, claimed, rfl, hswept, hsub, hmem⟩, hl⟩
  have hpass : PassExact app.settings (app.settings.isStale w.clock) w w' done.length g := hswept.exact hsub fun e => by
    rw [hmem, List.nil_append, Settings.isStale, Bool.and_eq_true, decide_eq_true_eq]
  refine ⟨⟨_, rfl⟩, hl, fun j row' hf' => ?_⟩
  cases hf : w.jobs.find? j with
  | none =>
    rw [(hpass.untouched j (.inl hf)).1, hf] at hf'
    cases hf'
  | some row =>
    by_cases hstale : ∃ e ∈ w.streams.entries, app.settings.isStale w.clock e = true ∧
        e.fields = some j
    · obtain ⟨row'', hf'', hr⟩ := hpass.reaped j row hf hstale
      rw [hf', Option.some.injEq] at hf''
      subst hf''
      have hid : row'.id = j := Table.find?_key hf'
      subst hid
      have hcalm := hr.calm
      cases hterm : row'.status.terminal with
      | true => exact .inl rfl
      | false =>
        have hcl : row'.status.claimable = true :=
          JobStatus.claimable_iff.2 ⟨hcalm.1, hterm⟩
        refine .inr ⟨hcl, .inl ?_⟩
        by_cases hst : row.stranded
        · exact hl.handed (hr.handed hst)
        · -- nothing was done, so the job was queued and synced before
          have hne : row.status ≠ .processing := by
            intro hp
            refine hst (.inl ⟨hp, ?_⟩)
            obtain ⟨hreached, -⟩ := hr.retried hp
            rw [hreached, retriedStatus] at hcl
            split at hcl
            · cases hcl
            · rename_i hmax
              exact Int.not_le.1 hmax
          have hrow := hr.kept hne
          have hcl₀ : row.status.claimable = true := by
            rw [hrow] at hcl
            exact hcl
          rcases hs.queued row'.id row hf hcl₀ with ha | hu
          · exact hl.awaited ha
          · simp only [Job.unsynced, Bool.and_eq_true, Bool.not_eq_eq_eq_not, Bool.not_true] at hu
            exact absurd (.inr ⟨hcl₀, hu.1.1⟩) hst
    · have hsame := (hpass.untouched j (.inr fun e he hst hj => hstale ⟨e, he, hst, hj⟩)).1
      rw [hsame, hf, Option.some.injEq] at hf'
      subst hf'
      cases hterm : row.status.terminal with
      | true => exact .inl rfl
      | false =>
        have hne : row.status ≠ .processing := fun hp => hstale (hs.processing j row hf hp)
        have hcl := JobStatus.claimable_iff.2 ⟨hne, hterm⟩
        exact .inr ⟨hcl, (hs.queued j row hf hcl).imp_left hl.awaited⟩

theorem Owed.reconciled {w₀ : World} {cutoff : Time} {total : Nat}
    (ho : Owed app cutoff w₀) (hl : Lodged w₀ w h)
    (hfree : ∀ c, w₀.inUse c < app.settings.workerConcurrency)
    (hdated : ∀ j row, w₀.jobs.find? j = some row → row.undated = false)
    (hx : ReconcileExact app.settings cutoff w₀ w total h) : Queued app w where
  clock := hl.world.clock
  free c := hl.inUse ▸ hfree c
  awaited j row' hf' := by
    have hfind : w.jobs.find? j = (w₀.jobs.find? j).map fun r =>
        if r.orphan cutoff = true then { r with isSyncedToRedis := true } else r := by
      unfold Table.find?
      rw [hx.rows, List.find?_map]
      congr 2
      funext r
      simp only [Function.comp_apply]
      split <;> rfl
    rw [hfind, Option.map_eq_some_iff] at hf'
    obtain ⟨row, hf, rfl⟩ := hf'
    have hstatus : (if row.orphan cutoff = true then { row with isSyncedToRedis := true } else
        row).status = row.status := by
      split <;> rfl
    rw [hstatus]
    refine (ho j row hf).imp_right fun ⟨hcl, ha⟩ => ⟨hcl, ?_⟩
    rcases ha with ha | hu
    · exact hl.awaited ha
    · have horphan : row.orphan cutoff = true := by
        simp [Job.orphan, hu, hdated j row hf]
      have hid : row.id = j := Table.find?_key hf
      subst hid
      exact hl.handed (hx.handed row (Table.find?_mem hf) horphan)

theorem Owed.later {cutoff cutoff' : Time} (ho : Owed app cutoff w) (hle : cutoff ≤ cutoff') :
    Owed app cutoff' w := by
  intro j row hf
  refine (ho j row hf).imp_right fun ⟨hcl, ha⟩ => ⟨hcl, ha.imp_right fun hu => ?_⟩
  simp only [Job.unsynced, Bool.and_eq_true, decide_eq_true_eq] at hu ⊢
  exact ⟨hu.1, Int.lt_of_lt_of_le hu.2 hle⟩

/-- A call of `reconcile_orphans` where every scheduled row has a date. -/
theorem reconcileOrphans_queues (hsize : 1 ≤ app.settings.reconcileBatchSize) (hw : Chronology w)
    (hfree : ∀ c, w.inUse c < app.settings.workerConcurrency)
    (ho : Owed app (w.clock - app.settings.reconcileGraceS) w) (env : Nat → Env) :
    ∃ fuel w' total g, (reconcileOrphans app fuel).trace (exec app.settings.workerConcurrency) env w
      [] = some (w', some total, g) ∧ Queued app w' := by
  have hdated : ∀ row ∈ w.jobs.rows, row.undated = false := by
    intro row hrow
    have hs := (hw.rows row.id row (Table.find?_of_mem hrow)).scheduled
    cases hat : row.scheduledAt with
    | none =>
      rw [hat] at hs
      simp only [Job.undated, Bool.and_eq_false_iff, decide_eq_false_iff_not]
      exact .inl fun h => hs h rfl
    | some t => simp [Job.undated, hat]
  generalize hcutoff : w.clock + ((env 0).elapsed : Int) - app.settings.reconcileGraceS = cutoff
  have hfew : (arrears w.jobs cutoff).countP Job.undated < app.settings.reconcileBatchSize := by
    rw [List.countP_eq_zero.2]
    · exact hsize
    · intro row hrow
      simp [hdated row (mem_arrears.1 hrow).1]
  have hends := reconcileLoop_ends (n := app.settings.workerConcurrency) hsize hfew
    ((orphans cutoff w.jobs).length + 1)
    (reconcileOrphans_started app w (w.clock + (env 0).elapsed))
    (by simp : ∀ r ∈ ([] : List Job), r ∈ arrears w.jobs cutoff) rfl (Nat.lt_succ_self _)
    fun _ => True
  obtain ⟨w', out, g, ht, rfl, hd⟩ := hends.trace (fun i => env (i + 1)) fun _ => trivial
  have htrace : (reconcileOrphans app ((orphans cutoff w.jobs).length + 1)).trace
      (exec app.settings.workerConcurrency) env w [] =
        some (w', some (orphans cutoff w.jobs).length, g) := by
    rw [reconcileOrphans_trace, hcutoff]
    exact ht
  obtain ⟨w'', out, g', ht', hl⟩ := (lodged_ends (reconcileOrphans_gives _) hw).trace env
    fun _ => trivial
  rw [htrace, Option.some.injEq, Prod.mk.injEq, Prod.mk.injEq] at ht'
  obtain ⟨rfl, rfl, rfl⟩ := ht'
  refine ⟨_, w', _, g, htrace, (ho.later ?_).reconciled hl hfree ?_ hd.exact⟩
  · rw [← hcutoff]
    exact Int.sub_le_sub_right (Int.le_add_of_nonneg_right (Int.natCast_nonneg _)) _
  · intro j row hf
    exact hdated row (Table.find?_mem hf)

end Passes

/-! ### From a run that stops -/

/-- Every process has stopped, and `t` later the services start again. -/
def World.restarted (w : World) (t : Time) : World :=
  { w with clock := w.clock + t, inUse := fun _ => 0 }

section Crash

variable {app : App} {w : World} {t : Time}

theorem Chronology.restarted (hw : Chronology w) (ht : 0 ≤ t) : Chronology (w.restarted t) := by
  have hle : w.clock ≤ (w.restarted t).clock := Int.le_add_of_nonneg_right ht
  exact ⟨hw.clock.trans hle, fun j row hf => (hw.rows j row hf).later hle,
    fun e he c s hs => (hw.since e he c s hs).trans (millis_mono hle), hw.scores⟩

/-- A queued job whose flag is set is parked, or a message naming it was not delivered. -/
def Unheld (w : World) : Prop :=
  ∀ j row, w.jobs.find? j = some row → row.status.claimable = true → row.isSyncedToRedis = true →
    w.delayed.score? j ≠ none ∨
      ∃ e ∈ w.streams.entries, e.fields = some j ∧ e.state = .undelivered

theorem salvageable_restarted (hw : Chronology w) (href : References app w) (hkept : NotStranded w)
    (hheld : Unheld w) (hslots : 1 ≤ app.settings.workerConcurrency) (h0 : 0 ≤ t)
    (hvisible : app.settings.visibilityMs * 1000 ≤ t) (hgrace : app.settings.reconcileGraceS < t) :
    Salvageable app (w.restarted t) := by
  have hstream : ∀ e ∈ w.streams.entries, e.stream ∈ app.settings.orderedStreams := by
    intro e he
    obtain ⟨id, -, row, -, hs⟩ := href.entries e he
    exact hs ▸ Settings.streamForPriority_mem _ _
  refine ⟨hw.restarted h0, fun _ => hslots, fun j row hf hp => ?_, fun j row hf hcl => ?_⟩
  · obtain ⟨e, he, hj, hpend⟩ := (hkept j row hf).2 hp
    refine ⟨e, he, ?_, hj⟩
    rw [Settings.isStale, Bool.and_eq_true, decide_eq_true_eq]
    refine ⟨hstream e he, ?_⟩
    cases hst : e.state with
    | pending c s =>
      have hs := hw.since e he c s hst
      simp only [Entry.idle, hst, decide_eq_true_eq]
      change app.settings.visibilityMs ≤ millis (w.clock + t) - s
      exact Int.le_sub_right_of_add_le ((Int.add_le_add_left hs _).trans (millis_add hvisible))
    | _ =>
      rw [Entry.isPending, hst] at hpend
      cases hpend
  · cases hsync : row.isSyncedToRedis with
    | true =>
      left
      rcases hheld j row hf hcl hsync with hs | ⟨e, he, hj, hu⟩
      · obtain ⟨s, hs⟩ := Option.ne_none_iff_exists'.1 hs
        exact .inr ⟨s, hs, hw.scores j s hs⟩
      · refine .inl ⟨e, he, ?_, hj⟩
        simp [Streams.waits, hu, hstream e he]
    | false =>
      right
      have hcreated := (hw.rows j row hf).created.2
      simp only [Job.unsynced, hsync, hcl, Bool.not_false, Bool.true_and, decide_eq_true_eq]
      change row.createdAt < w.clock + t - app.settings.reconcileGraceS
      have hlt : w.clock < w.clock + t - app.settings.reconcileGraceS := by
        have h := Int.add_lt_add_left (Int.sub_pos.2 hgrace) w.clock
        rw [Int.add_zero, ← Int.add_sub_assoc] at h
        exact h
      exact Int.lt_of_le_of_lt hcreated hlt

end Crash

/-- Everything stops anywhere in a run that keeps the traces of its jobs. After a restart,
one pass of the reaper and one reconciliation put every job back into the queue, and
the work that follows comes to an end with every job ended, as long as the delays of the
schedule lead to instants there are. -/
theorem crash_recovered (app : App) (hb : app.settings.retryBackoffSchedule ≠ [])
    (hticker : 1 ≤ app.settings.tickerBatchSize) (hreaper : 1 ≤ app.settings.reaperBatchSize)
    (hreconcile : 1 ≤ app.settings.reconcileBatchSize)
    (hslots : 1 ≤ app.settings.workerConcurrency) (c : Cfg)
    (hr : Run (system app) (fun σ ev => keepsTrace σ ev = true) c)
    (hheld : Unheld c.shared.world) (t : Time) (h0 : 0 ≤ t)
    (hvisible : app.settings.visibilityMs * 1000 ≤ t) (hgrace : app.settings.reconcileGraceS < t)
    (hd : ∀ delay ∈ app.settings.retryBackoffSchedule,
      c.shared.world.clock + t + delay * 1000000 ≤ maxInstant)
    (env env' : Nat → Env) (henv : ∀ i, (env i).elapsed = 0) :
    ∃ fuel w₁ handled g fuel' w₂ total g',
      (reapStale app fuel).trace (exec app.settings.workerConcurrency) env
        (c.shared.world.restarted t) [] = some (w₁, .ok handled, g) ∧
      (reconcileOrphans app fuel').trace (exec app.settings.workerConcurrency) env' w₁ [] =
        some (w₂, some total, g') ∧
      Queued app w₂ ∧ ∀ k w', Worked app k w₂ w' →
        (∀ delay ∈ app.settings.retryBackoffSchedule, w'.clock + delay * 1000000 ≤ maxInstant) →
          k + effort app w' ≤ effort app w₂ ∧
          ((∀ w'', ¬ Works app w' w'') → ∀ row ∈ w'.jobs.rows, row.status.terminal = true) := by
  have hs := salvageable_restarted (dated hr).world (referring hr).references
    (kept hr).notStranded hheld hslots h0 hvisible hgrace
  have hT : ∀ row, app.settings.plans row (c.shared.world.restarted t).clock = true :=
    Settings.plans_of_schedule hb hd
  obtain ⟨w₁, out, g, ht, ⟨handled, rfl⟩, hl, ho⟩ :=
    (reapStale_salvages hT hreaper hs (Nat.lt_succ_self _)).trace env henv
  obtain ⟨fuel', w₂, total, g', ht', hq⟩ := reconcileOrphans_queues hreconcile hl.world
    (fun c => hl.inUse ▸ hs.free c) (ho.later (Int.sub_le_sub_right hl.clock _)) env'
  refine ⟨_, w₁, handled, g, fuel', w₂, total, g', ht, ht', hq, fun k w' hw hd' => ?_⟩
  obtain ⟨hq', hle⟩ := hw.keeps (Settings.plans_of_schedule hb hd') (Int.le_refl _) hq
  exact ⟨hle, hq'.over hticker⟩

def workerDied : List (Choice Env Proc) := List.flatten
  [[.start (.submitJob 7 1 { type := .email, payload := .null })], runs 0 5,
    [.start (.workerLoop "a" 1)], runs 1 5, runs 2 1, [.crash 1, .crash 2]]

theorem crash_recovered_workerDied :
    ∃ c, Run (system defaultApp) (fun σ ev => keepsTrace σ ev = true) c ∧
      (c.shared.world.jobs.rows.map Job.status) = [.processing] ∧
      ∃ fuel w₁ handled g fuel' w₂ total g',
        (reapStale defaultApp fuel).trace (exec 10) (fun _ => {})
          (c.shared.world.restarted 61000000) [] = some (w₁, .ok handled, g) ∧
        (reconcileOrphans defaultApp fuel').trace (exec 10) (fun _ => {}) w₁ [] =
          some (w₂, some total, g') ∧ Queued defaultApp w₂ := by
  obtain ⟨c, hc, hl⟩ := run_of_replay defaultApp (fun σ ev => keepsTrace σ ev = true) keepsTrace
    (fun _ _ h => h) workerDied
    (fun c => decide (c.shared.world.jobs.rows.map Job.status = [.processing] ∧
      c.shared.world.clock = 0)) (by decide +kernel)
  obtain ⟨hrows, hclock⟩ := of_decide_eq_true hl
  have hheld : Unheld c.shared.world := by
    intro j row hf hcl
    have hmem : row.status ∈ c.shared.world.jobs.rows.map Job.status :=
      List.mem_map.2 ⟨row, Table.find?_mem hf, rfl⟩
    rw [hrows, List.mem_singleton] at hmem
    rw [hmem] at hcl
    cases hcl
  obtain ⟨fuel, w₁, handled, g, fuel', w₂, total, g', ht, ht', hq, -⟩ := crash_recovered defaultApp
    (by decide) (by decide) (by decide) (by decide) (by decide) c hc hheld 61000000 (by decide)
    (by decide) (by decide) (by rw [hclock]; decide) (fun _ => {}) (fun _ => {}) fun _ => rfl
  exact ⟨c, hc, hrows, fuel, w₁, handled, g, fuel', w₂, total, g', ht, ht', hq⟩

end JobProcessor
