import JobProcessor.Proofs.Settling

/-! Reconciliation with nothing in between. Each round takes the oldest page of the
arrears; handed rows leave it and rows without a `scheduled_at` stay, so the loop
ends exactly when these cannot fill a page. -/

namespace JobProcessor

open Interleave Prog Store Repository

def Job.unsynced (cutoff : Time) (r : Job) : Bool :=
  !r.isSyncedToRedis && r.status.claimable && r.createdAt < cutoff

/-- The row is one the loop skips with a warning. -/
def Job.undated (r : Job) : Bool := r.status = .scheduled && r.scheduledAt.isNone

def Job.orphan (cutoff : Time) (r : Job) : Bool := r.unsynced cutoff && !r.undated

/-- The row after `mark_synced` of each of `ids`. -/
def Job.marked (ids : List Uuid) (r : Job) : Job :=
  if r.id ∈ ids then { r with isSyncedToRedis := true } else r

/-- The orphans of a table, oldest first. -/
def orphans (cutoff : Time) (t : Jobs) : List Job := (arrears t cutoff).filter fun r => !r.undated

section Backlog

variable {t t' : Jobs} {cutoff : Time} {r : Job}

theorem mem_arrears : r ∈ arrears t cutoff ↔ r ∈ t.rows ∧ r.unsynced cutoff = true := by
  rw [arrears, mem_orderBy, List.mem_filter]
  rfl

theorem mem_orphans : r ∈ orphans cutoff t ↔ r ∈ t.rows ∧ r.orphan cutoff = true := by
  rw [orphans, List.mem_filter, mem_arrears, Job.orphan, Bool.and_eq_true, and_assoc]

theorem nodup_arrears (t : Jobs) (cutoff : Time) : ((arrears t cutoff).map Job.id).Nodup :=
  ((perm_orderBy _ _).map Job.id).nodup_iff.2 ((List.filter_sublist.map _).nodup t.key_nodup)

theorem countP_arrears (t : Jobs) (cutoff : Time) (p : Job → Bool) :
    (arrears t cutoff).countP p = t.rows.countP fun r => r.unsynced cutoff && p r := by
  have hp := (perm_orderBy position (t.rows.filter (Job.unsynced cutoff))).countP_eq p
  rw [List.countP_filter] at hp
  refine hp.trans (congrArg (fun p => t.rows.countP p) (funext fun r => ?_))
  rw [Bool.and_comm]

theorem length_orphans (cutoff : Time) (t : Jobs) :
    (orphans cutoff t).length = t.rows.countP (Job.orphan cutoff) := by
  rw [orphans, ← List.countP_eq_length_filter, countP_arrears]
  rfl

/-- Rows whose flag was set leave the arrears, and the rest keeps its order. -/
theorem arrears_marked {ids : List Uuid}
    (h : t'.rows = t.rows.map (Job.marked ids)) :
    arrears t' cutoff = (arrears t cutoff).filter fun r => r.id ∉ ids := by
  have hrows : t'.rows.filter (Job.unsynced cutoff) =
      (t.rows.filter (Job.unsynced cutoff)).filter fun r => r.id ∉ ids := by
    rw [h, List.filter_filter]
    induction t.rows with
    | nil => rfl
    | cons r rows ih =>
      rw [List.map_cons]
      by_cases hr : r.id ∈ ids
      · rw [Job.marked, if_pos hr, List.filter_cons_of_neg (by simp [Job.unsynced]),
          List.filter_cons_of_neg (by simp [hr]), ih]
      · rw [Job.marked, if_neg hr, List.filter_cons, List.filter_cons, ih]
        simp [hr]
  have hnodup : ((t.rows.filter (Job.unsynced cutoff)).map position).Nodup :=
    (List.filter_sublist.map _).nodup (nodup_position t)
  exact (congrArg (orderBy position) hrows).trans (orderBy_filter hnodup _)

end Backlog

/-! ### One page -/

/-- Since `w₀` the rows `done` were handed off, in this order, and that is all. -/
structure HandedOver (settings : Settings) (w₀ : World) (done : List Job) (w : World) (h : Hist) :
    Prop where
  rows : w.jobs.rows = w₀.jobs.rows.map (Job.marked (done.map Job.id))
  streams : ∃ new, w.streams.entries = w₀.streams.entries ++ new ∧
    new.map (fun e => (e.stream, e.fields, e.state)) =
      (done.filter fun r => r.status ≠ .scheduled).map fun r =>
        (settings.streamForPriority r.priority, some r.id, .undelivered)
  dated : ∀ r ∈ done, r.status = .scheduled → w.delayed.score? r.id = r.scheduledAt
  others : ∀ j, (∀ r ∈ done, r.status = .scheduled → r.id ≠ j) →
    w.delayed.score? j = w₀.delayed.score? j
  issued : commands h = (done.map (requeue settings)).reverse

section Page

variable {n : Nat} {app : App} {settings : Settings} {w₀ w w' : World} {h : Hist} {cutoff : Time}
  {done : List Job} {job : Job}

theorem handedOver_nil (settings : Settings) (w : World) {h : Hist} (hh : commands h = []) :
    HandedOver settings w [] w h where
  rows := by
    have hid : Job.marked [] = id := funext fun r => if_neg (List.not_mem_nil)
    rw [List.map_nil, hid, List.map_id]
  streams := ⟨[], by simp, rfl⟩
  dated := by simp
  others _ _ := rfl
  issued := hh

theorem HandedOver.pass (hd : HandedOver settings w₀ done w h) {o : Op} {r : o.Res}
    (ho : o.toRedis = false) (hjobs : w'.jobs = w.jobs) (hst : w'.streams = w.streams)
    (hde : w'.delayed = w.delayed) : HandedOver settings w₀ done w' (⟨o, r⟩ :: h) where
  rows := hjobs ▸ hd.rows
  streams := hst ▸ hd.streams
  dated := hde ▸ hd.dated
  others := hde ▸ hd.others
  issued := by
    rw [commands_cons, ho, if_neg (by simp)]
    exact hd.issued

theorem rows_markSynced {ids : List Uuid} {t₀ t : Jobs}
    (h : t.rows = t₀.rows.map (Job.marked ids)) (id : Uuid) :
    (markSynced t id).1.rows = t₀.rows.map (Job.marked (ids ++ [id])) := by
  change t.rows.map _ = _
  rw [h, List.map_map]
  apply List.map_congr_left
  intro r _
  by_cases h1 : r.id ∈ ids
  · simp [Job.marked, h1]
  · simp [Job.marked, h1]

theorem HandedOver.enqueue (hd : HandedOver settings w₀ done w h) (hj : job.status ≠ .scheduled)
    {w₂ : World} {u v : Unit}
    (hst : w₂.streams = w.streams.xadd (settings.streamForPriority job.priority) (some job.id))
    (hde : w₂.delayed = w.delayed) (hjobs : w₂.jobs = (markSynced w.jobs job.id).1) :
    HandedOver settings w₀ (done ++ [job]) w₂ (⟨.markSynced job.id, u⟩ ::
      ⟨.xadd (settings.streamForPriority job.priority) job.id, v⟩ :: h) where
  rows := by
    rw [hjobs, List.map_append, List.map_singleton]
    exact rows_markSynced hd.rows job.id
  streams := by
    obtain ⟨new, hn, hm⟩ := hd.streams
    refine ⟨new ++ [⟨w.streams.next, settings.streamForPriority job.priority, some job.id,
      .undelivered⟩], ?_, ?_⟩
    · rw [hst, ← List.append_assoc, ← hn]
      rfl
    · rw [List.map_append, hm, List.filter_append, List.map_append]
      simp [hj]
  dated r hr hs := by
    rw [hde]
    rcases List.mem_append.1 hr with hr | hr
    · exact hd.dated r hr hs
    · rw [List.mem_singleton] at hr
      exact absurd (hr ▸ hs) hj
  others j hj' := by
    rw [hde]
    exact hd.others j fun r hr => hj' r (List.mem_append_left _ hr)
  issued := by
    have hq : requeue settings job = .xadd (settings.streamForPriority job.priority) job.id := by
      unfold requeue
      split
      · exact absurd ‹_› hj
      · rfl
    rw [List.map_append, List.map_singleton, List.reverse_append, ← hd.issued, hq]
    rfl

theorem HandedOver.schedule (hd : HandedOver settings w₀ done w h) (hj : job.status = .scheduled)
    {at_ : Time} (hat : job.scheduledAt = some at_) (hnew : job.id ∉ done.map Job.id)
    {w₂ : World} {u v : Unit} (hst : w₂.streams = w.streams)
    (hde : w₂.delayed = w.delayed.zadd job.id at_)
    (hjobs : w₂.jobs = (markSynced w.jobs job.id).1) :
    HandedOver settings w₀ (done ++ [job]) w₂ (⟨.markSynced job.id, u⟩ ::
      ⟨.zadd job.id at_, v⟩ :: h) where
  rows := by
    rw [hjobs, List.map_append, List.map_singleton]
    exact rows_markSynced hd.rows job.id
  streams := by
    obtain ⟨new, hn, hm⟩ := hd.streams
    refine ⟨new, hst ▸ hn, ?_⟩
    rw [hm, List.filter_append, List.filter_cons_of_neg (by simp [hj]), List.filter_nil,
      List.append_nil]
  dated r hr hs := by
    rw [hde, ZSet.score?_zadd]
    rcases List.mem_append.1 hr with hr | hr
    · have hne : r.id ≠ job.id := fun he => hnew (he ▸ List.mem_map.2 ⟨r, hr, rfl⟩)
      rw [if_neg hne]
      exact hd.dated r hr hs
    · rw [List.mem_singleton] at hr
      rw [hr, if_pos rfl, hat]
  others j hj' := by
    have hne : j ≠ job.id := fun he =>
      hj' job (List.mem_append_right _ (List.mem_singleton.2 rfl)) hj he.symm
    rw [hde, ZSet.score?_zadd, if_neg hne]
    exact hd.others j fun r hr => hj' r (List.mem_append_left _ hr)
  issued := by
    have hq : requeue settings job = .zadd job.id at_ := by
      simp [requeue, hj, hat]
    rw [List.map_append, List.map_singleton, List.reverse_append, ← hd.issued, hq]
    rfl

theorem handoffRows_ends (rows : List Job) (total : Nat) (hd : HandedOver app.settings w₀ done w h)
    (hnodup : (rows.map Job.id).Nodup) (hnew : ∀ r ∈ rows, r.id ∉ done.map Job.id)
    (E : Env → Prop) :
    Ends (exec n) E (fun w' out g => out = total + (rows.filter fun r => !r.undated).length ∧
        HandedOver app.settings w₀ (done ++ rows.filter fun r => !r.undated) w' g)
      (handoffRows app rows total) w h := by
  induction rows generalizing total done w h with
  | nil => exact ⟨rfl, by simpa using hd⟩
  | cons job rows ih =>
    rw [List.map_cons, List.nodup_cons] at hnodup
    have hjob := hnew job List.mem_cons_self
    have hrest : ∀ r ∈ rows, r.id ∉ done.map Job.id := fun r hr =>
      hnew r (List.mem_cons_of_mem _ hr)
    have hrest' : ∀ r ∈ rows, r.id ∉ (done ++ [job]).map Job.id := by
      intro r hr hm
      rw [List.map_append, List.mem_append, List.map_singleton, List.mem_singleton] at hm
      rcases hm with hm | hm
      · exact hrest r hr hm
      · exact hnodup.1 (hm ▸ List.mem_map.2 ⟨r, hr, rfl⟩)
    -- the row was handed off, and the rest of the page follows
    have hnext : ∀ {w₂ g}, job.undated = false → HandedOver app.settings w₀ (done ++ [job]) w₂ g →
        Ends (exec n) E (fun w' out g =>
          out = total + ((job :: rows).filter fun r => !r.undated).length ∧
          HandedOver app.settings w₀ (done ++ (job :: rows).filter fun r => !r.undated) w' g)
          (handoffRows app rows (total + 1)) w₂ g := by
      intro w₂ g hu hd₂
      refine (ih (total + 1) hd₂ hnodup.2 hrest').mono ?_
      rintro w' out g' ⟨rfl, hd'⟩
      rw [List.filter_cons_of_pos (by simp [hu]), List.length_cons]
      refine ⟨by omega, ?_⟩
      rw [List.append_assoc] at hd'
      exact hd'
    rw [handoffRows]
    split
    · rename_i hs
      split
      · rename_i hat
        rw [List.filter_cons_of_neg (by simp [Job.undated, hs, hat])]
        exact ih total hd hnodup.2 hrest
      · rename_i at_ hat
        intro e _
        refine ⟨_, _, rfl, fun e' _ => ⟨_, _, rfl, ?_⟩⟩
        exact hnext (by simp [Job.undated, hat]) (hd.schedule hs hat hjob rfl rfl rfl)
    · rename_i hs
      intro e _
      refine ⟨_, _, rfl, fun e' _ => ⟨_, _, rfl, ?_⟩⟩
      exact hnext (by simp [Job.undated, hs]) (hd.enqueue hs rfl rfl rfl)

end Page

/-! ### The rounds -/

section Rounds

variable {n : Nat} {app : App} {settings : Settings} {w₀ w w' : World} {h : Hist} {cutoff : Time}
  {done todo : List Job}

/-- The orphans still to come are those not handed off yet. -/
theorem HandedOver.rest (hd : HandedOver settings w₀ done w h)
    (hsplit : done ++ todo = orphans cutoff w₀.jobs) : orphans cutoff w.jobs = todo := by
  have hnodup : ((done ++ todo).map Job.id).Nodup := by
    rw [hsplit]
    exact (List.filter_sublist.map _).nodup (nodup_arrears w₀.jobs cutoff)
  rw [List.map_append, List.nodup_append] at hnodup
  have hcomm : orphans cutoff w.jobs =
      (orphans cutoff w₀.jobs).filter fun r => r.id ∉ done.map Job.id := by
    unfold orphans
    rw [arrears_marked hd.rows, List.filter_filter, List.filter_filter]
    exact List.filter_congr fun r _ => Bool.and_comm _ _
  have hgone : done.filter (fun r => r.id ∉ done.map Job.id) = [] := by
    rw [List.filter_eq_nil_iff]
    intro r hr
    simpa using ⟨r, hr, rfl⟩
  have hkept : todo.filter (fun r => r.id ∉ done.map Job.id) = todo := by
    rw [List.filter_eq_self]
    intro r hr
    rw [decide_eq_true_eq]
    intro hm
    exact hnodup.2.2 _ hm _ (List.mem_map.2 ⟨r, hr, rfl⟩) rfl
  rw [hcomm, ← hsplit, List.filter_append, hgone, hkept, List.nil_append]

theorem HandedOver.undated (hd : HandedOver settings w₀ done w h)
    (hsplit : done ++ todo = orphans cutoff w₀.jobs) :
    (arrears w.jobs cutoff).countP Job.undated = (arrears w₀.jobs cutoff).countP Job.undated := by
  rw [arrears_marked hd.rows, List.countP_filter]
  apply List.countP_congr
  intro r hr
  rw [Bool.and_eq_true, and_iff_left_iff_imp, decide_eq_true_eq]
  intro hu hm
  obtain ⟨r', hr', hid⟩ := List.mem_map.1 hm
  have ho : r' ∈ orphans cutoff w₀.jobs := hsplit ▸ List.mem_append_left _ hr'
  have hmem := List.mem_filter.1 ho
  obtain rfl := List.inj_on_of_nodup_map (nodup_arrears w₀.jobs cutoff) hmem.1 hr hid
  rw [hu] at hmem
  cases hmem.2

theorem page_ends (hd : HandedOver app.settings w₀ done w h)
    (hsplit : done ++ orphans cutoff w.jobs = orphans cutoff w₀.jobs) (size : Nat)
    (E : Env → Prop) :
    Ends (exec n) E
      (fun w' out g => ∃ new, new = ((arrears w.jobs cutoff).take size).filter (!·.undated) ∧
        out = (done ++ new).length ∧ HandedOver app.settings w₀ (done ++ new) w' g ∧
        (done ++ new) ++ orphans cutoff w'.jobs = orphans cutoff w₀.jobs ∧
        orphans cutoff w.jobs = new ++ orphans cutoff w'.jobs)
      (handoffRows app ((arrears w.jobs cutoff).take size) done.length) w h := by
  have hnodup := nodup_arrears w.jobs cutoff
  have hpage : (((arrears w.jobs cutoff).take size).map Job.id).Nodup :=
    ((List.take_sublist _ _).map _).nodup hnodup
  have hnew : ∀ r ∈ (arrears w.jobs cutoff).take size, r.id ∉ done.map Job.id := by
    intro r hr
    have hr' := List.mem_of_mem_take hr
    rw [arrears_marked hd.rows, List.mem_filter, decide_eq_true_eq] at hr'
    exact hr'.2
  refine (handoffRows_ends _ done.length hd hpage hnew E).mono ?_
  rintro w' out g ⟨rfl, hd'⟩
  have hcut : orphans cutoff w.jobs = ((arrears w.jobs cutoff).take size).filter (!·.undated) ++
      ((arrears w.jobs cutoff).drop size).filter (!·.undated) := by
    rw [← List.filter_append, List.take_append_drop]
    rfl
  have hsplit' := hsplit
  rw [hcut, ← List.append_assoc] at hsplit'
  have hrest := hd'.rest hsplit'
  refine ⟨_, rfl, List.length_append.symm, hd', ?_, ?_⟩
  · rw [hrest, hsplit']
  · rw [hrest, hcut]

theorem HandedOver.arrears (hd : HandedOver settings w₀ done w h) {r : Job}
    (hr : r ∈ arrears w.jobs cutoff) : r ∈ arrears w₀.jobs cutoff := by
  rw [arrears_marked hd.rows] at hr
  exact (List.mem_filter.1 hr).1

/-- Where nobody else writes, a row that is listed again is as it was. -/
theorem map_identityMap {t : Jobs} {instances page : List Job}
    (hi : ∀ r ∈ instances, r ∈ arrears t cutoff) (hp : ∀ r ∈ page, r ∈ arrears t cutoff) :
    page.map (identityMap instances) = page := by
  refine (List.map_congr_left fun r hr => ?_).trans (List.map_id page)
  unfold identityMap
  cases hf : instances.find? fun job => job.id = r.id with
  | none => rfl
  | some job =>
    have hid : job.id = r.id := by simpa using List.find?_some hf
    exact List.inj_on_of_nodup_map (nodup_arrears t cutoff) (hi job (List.mem_of_find?_eq_some hf))
      (hp r hr) hid

/-- A short page is the whole arrears and ends the loop; after a full one it goes on. -/
theorem reconcileLoop_round {Q : World → Option Nat → Hist → Prop} {E : Env → Prop}
    (hsize : 1 ≤ app.settings.reconcileBatchSize) (fuel : Nat)
    (hd : HandedOver app.settings w₀ done w h) {instances : List Job}
    (hi : ∀ r ∈ instances, r ∈ arrears w₀.jobs cutoff)
    (hsplit : done ++ orphans cutoff w.jobs = orphans cutoff w₀.jobs)
    (hstop : (arrears w.jobs cutoff).length < app.settings.reconcileBatchSize → ∀ w' g,
      HandedOver app.settings w₀ (orphans cutoff w₀.jobs) w' g →
        Q w' (some (orphans cutoff w₀.jobs).length) g)
    (hgo : app.settings.reconcileBatchSize ≤ (arrears w.jobs cutoff).length → ∀ w' g new,
      new = ((arrears w.jobs cutoff).take app.settings.reconcileBatchSize).filter (!·.undated) →
      HandedOver app.settings w₀ (done ++ new) w' g →
      (done ++ new) ++ orphans cutoff w'.jobs = orphans cutoff w₀.jobs →
      orphans cutoff w.jobs = new ++ orphans cutoff w'.jobs →
      ∀ page, (∀ r ∈ page, r ∈ arrears w₀.jobs cutoff) →
        Ends (exec n) E Q (reconcileLoop app cutoff fuel page (done ++ new).length) w' g) :
    Ends (exec n) E Q (reconcileLoop app cutoff (fuel + 1) instances done.length) w h := by
  have hpage : ∀ r ∈ (arrears w.jobs cutoff).take app.settings.reconcileBatchSize,
      r ∈ arrears w₀.jobs cutoff := fun r hr => hd.arrears (List.mem_of_mem_take hr)
  rw [reconcileLoop, op_bind]
  intro e _
  refine ⟨{ w with clock := w.clock + e.elapsed },
    (arrears w.jobs cutoff).take app.settings.reconcileBatchSize, ?_, ?_⟩
  · rw [← listUnsynced_eq]
    rfl
  dsimp only
  have hd₁ : HandedOver app.settings w₀ done { w with clock := w.clock + e.elapsed }
      (⟨.listUnsynced cutoff app.settings.reconcileBatchSize,
        (arrears w.jobs cutoff).take app.settings.reconcileBatchSize⟩ :: h) :=
    hd.pass rfl rfl rfl rfl
  rw [map_identityMap hi hpage]
  split
  · rename_i hempty
    rw [List.isEmpty_iff, List.take_eq_nil_iff] at hempty
    have hnil := hempty.resolve_left (by omega)
    have hnone : orphans cutoff w.jobs = [] := by
      rw [orphans, hnil]
      rfl
    rw [hnone, List.append_nil] at hsplit
    rw [hsplit] at hd₁
    rw [hsplit]
    refine hstop ?_ _ _ hd₁
    rw [hnil, List.length_nil]
    omega
  · refine (page_ends hd₁ hsplit app.settings.reconcileBatchSize E).bind ?_
    rintro w' out g ⟨new, hnew, rfl, hd', hsplit', hrest⟩
    change new = ((arrears w.jobs cutoff).take _).filter _ at hnew
    change orphans cutoff w.jobs = _ at hrest
    change Ends _ _ _ (if _ then _ else _) _ _
    split
    · rename_i hshort
      rw [List.length_take] at hshort
      have hall : new = orphans cutoff w.jobs := by
        rw [hnew, List.take_of_length_le (by omega)]
        rfl
      rw [hall, hsplit] at hd'
      rw [hall, hsplit]
      exact hstop (by omega) _ _ hd'
    · rename_i hfull
      rw [List.length_take] at hfull
      exact hgo (by omega) _ _ new hnew hd' hsplit' hrest _ hpage

/-- With fewer undated rows than a page holds, every full page hands a row off. -/
theorem reconcileLoop_ends (hsize : 1 ≤ app.settings.reconcileBatchSize)
    (hfew : (arrears w₀.jobs cutoff).countP Job.undated < app.settings.reconcileBatchSize)
    (fuel : Nat) (hd : HandedOver app.settings w₀ done w h) {instances : List Job}
    (hi : ∀ r ∈ instances, r ∈ arrears w₀.jobs cutoff)
    (hsplit : done ++ orphans cutoff w.jobs = orphans cutoff w₀.jobs)
    (hfuel : (orphans cutoff w.jobs).length < fuel) (E : Env → Prop) :
    Ends (exec n) E (fun w' out g => out = some (orphans cutoff w₀.jobs).length ∧
        HandedOver app.settings w₀ (orphans cutoff w₀.jobs) w' g)
      (reconcileLoop app cutoff fuel instances done.length) w h := by
  induction fuel generalizing done w h instances with
  | zero => exact absurd hfuel (Nat.not_lt_zero _)
  | succ fuel ih =>
    apply reconcileLoop_round hsize fuel hd hi hsplit
    · intro _ w' g hd'
      exact ⟨rfl, hd'⟩
    · intro hfull w' g new hnew hd' hsplit' hrest page hpage
      apply ih hd' hpage hsplit'
      have hle : ((arrears w.jobs cutoff).take app.settings.reconcileBatchSize).countP
          Job.undated ≤ (arrears w.jobs cutoff).countP Job.undated :=
        (List.take_sublist _ _).countP_le
      have hsum := List.length_eq_length_filter_add
        (l := (arrears w.jobs cutoff).take app.settings.reconcileBatchSize) Job.undated
      rw [← hnew, ← List.countP_eq_length_filter, List.length_take] at hsum
      rw [hd.undated hsplit] at hle
      have hlen := congrArg List.length hrest
      rw [List.length_append] at hlen
      omega

/-- Undated rows that fill a page are there in every round, and no page is short. -/
theorem reconcileLoop_never (hsize : 1 ≤ app.settings.reconcileBatchSize)
    (hmany : app.settings.reconcileBatchSize ≤ (arrears w₀.jobs cutoff).countP Job.undated)
    (fuel : Nat) (hd : HandedOver app.settings w₀ done w h) {instances : List Job}
    (hi : ∀ r ∈ instances, r ∈ arrears w₀.jobs cutoff)
    (hsplit : done ++ orphans cutoff w.jobs = orphans cutoff w₀.jobs) (E : Env → Prop) :
    Ends (exec n) E (fun _ out _ => out = none)
      (reconcileLoop app cutoff fuel instances done.length) w h := by
  induction fuel generalizing done w h instances with
  | zero => exact rfl
  | succ fuel ih =>
    apply reconcileLoop_round hsize fuel hd hi hsplit
    · intro hshort
      have hle := List.countP_le_length (p := Job.undated) (l := arrears w.jobs cutoff)
      rw [hd.undated hsplit] at hle
      omega
    · intro _ w' g new _ hd' hsplit' _ page hpage
      exact ih hd' hpage hsplit'

end Rounds

/-! ### What a call has done -/

/-- A call from `w` to `w'` with the replies `g` that returned `total` is exact: the orphans
are counted, each was handed off once and is marked, and nothing else has changed. -/
structure ReconcileExact (settings : Settings) (cutoff : Time) (w w' : World) (total : Nat)
    (g : Hist) : Prop where
  counted : total = w.jobs.rows.countP (Job.orphan cutoff)
  handed : ∀ r ∈ w.jobs.rows, r.orphan cutoff = true → handoffs r.id g = [requeue settings r]
  silent : ∀ j, (∀ r ∈ w.jobs.rows, r.orphan cutoff = true → r.id ≠ j) → handoffs j g = []
  rows : w'.jobs.rows = w.jobs.rows.map fun r =>
    if r.orphan cutoff = true then { r with isSyncedToRedis := true } else r
  streams : ∃ new, w'.streams.entries = w.streams.entries ++ new ∧
    new.map (fun e => (e.stream, e.fields, e.state)) =
      ((orphans cutoff w.jobs).filter fun r => r.status ≠ .scheduled).map fun r =>
        (settings.streamForPriority r.priority, some r.id, .undelivered)
  dated : ∀ r ∈ w.jobs.rows, r.orphan cutoff = true → r.status = .scheduled →
    w'.delayed.score? r.id = r.scheduledAt
  others : ∀ j, (∀ r ∈ w.jobs.rows, r.orphan cutoff = true → r.status = .scheduled → r.id ≠ j) →
    w'.delayed.score? j = w.delayed.score? j

theorem requeue_handsOff (settings : Settings) (r : Job) :
    (requeue settings r).handsOff = some r.id := by
  unfold requeue
  split <;> rfl

theorem handoffs_requeued {settings : Settings} {g : Hist} {done : List Job}
    (h : commands g = (done.map (requeue settings)).reverse) (j : Uuid) :
    handoffs j g = ((done.filter fun r => r.id = j).map (requeue settings)).reverse := by
  have hid : (fun o => decide (Op.handsOff o = some j)) ∘ requeue settings =
      fun r => decide (r.id = j) := by
    funext r
    simp [requeue_handsOff]
  rw [handoffs, h, List.filter_reverse, List.filter_map, hid]

theorem HandedOver.exact {settings : Settings} {cutoff : Time} {w w' : World} {g : Hist}
    (hd : HandedOver settings w (orphans cutoff w.jobs) w' g) :
    ReconcileExact settings cutoff w w' (orphans cutoff w.jobs).length g where
  counted := length_orphans cutoff w.jobs
  handed r hr ho := by
    have hnodup : ((orphans cutoff w.jobs).map Job.id).Nodup :=
      (List.filter_sublist.map _).nodup (nodup_arrears w.jobs cutoff)
    have hone : (orphans cutoff w.jobs).filter (fun x => x.id = r.id) = [r] := by
      obtain ⟨l₁, l₂, hl⟩ := List.append_of_mem (mem_orphans.2 ⟨hr, ho⟩)
      rw [hl, List.map_append, List.map_cons, List.nodup_append, List.nodup_cons] at hnodup
      rw [hl, List.filter_append, List.filter_cons_of_pos (by simp),
        List.filter_eq_nil_iff.2, List.filter_eq_nil_iff.2]
      · rfl
      · intro x hx
        rw [decide_eq_true_eq]
        exact fun he => hnodup.2.1.1 (he ▸ List.mem_map.2 ⟨x, hx, rfl⟩)
      · intro x hx
        rw [decide_eq_true_eq]
        exact hnodup.2.2 _ (List.mem_map.2 ⟨x, hx, rfl⟩) _ List.mem_cons_self
    rw [handoffs_requeued hd.issued, hone]
    rfl
  silent j hj := by
    rw [handoffs_requeued hd.issued, List.filter_eq_nil_iff.2]
    · rfl
    · intro r hr
      rw [decide_eq_true_eq]
      exact hj r (mem_orphans.1 hr).1 (mem_orphans.1 hr).2
  rows := by
    rw [hd.rows]
    apply List.map_congr_left
    intro r hr
    have hiff : r.id ∈ (orphans cutoff w.jobs).map Job.id ↔ r.orphan cutoff = true := by
      constructor
      · intro hm
        obtain ⟨r', hr', hid⟩ := List.mem_map.1 hm
        have ho := mem_orphans.1 hr'
        rw [List.inj_on_of_nodup_map w.jobs.key_nodup ho.1 hr hid] at ho
        exact ho.2
      · intro ho
        exact List.mem_map.2 ⟨r, mem_orphans.2 ⟨hr, ho⟩, rfl⟩
    simp only [Job.marked, hiff]
  streams := hd.streams
  dated r hr ho := hd.dated r (mem_orphans.2 ⟨hr, ho⟩)
  others j hj := hd.others j fun r hr => hj r (mem_orphans.1 hr).1 (mem_orphans.1 hr).2

theorem reconcileOrphans_started (app : App) (w : World) (now : Time) :
    HandedOver app.settings w [] { w with clock := now } [⟨.now, now⟩] :=
  (handedOver_nil (h := []) app.settings w rfl).pass (o := .now) rfl rfl rfl rfl

theorem reconcileOrphans_trace (app : App) (w : World) (env : Nat → Env) (fuel : Nat) :
    (reconcileOrphans app fuel).trace (exec app.settings.workerConcurrency) env w [] =
      (reconcileLoop app (w.clock + (env 0).elapsed - app.settings.reconcileGraceS) fuel [] 0).trace
        (exec app.settings.workerConcurrency) (fun i => env (i + 1))
        { w with clock := w.clock + (env 0).elapsed } [⟨.now, w.clock + (env 0).elapsed⟩] := by
  rw [reconcileOrphans, op_bind, trace_act rfl]

/-- Once the undated rows of the arrears fill a page, no number of rounds is enough. -/
theorem reconcileOrphans_never (app : App) (hsize : 1 ≤ app.settings.reconcileBatchSize)
    (w : World) (env : Nat → Env) {cutoff : Time}
    (hcutoff : cutoff = w.clock + (env 0).elapsed - app.settings.reconcileGraceS)
    (hmany : app.settings.reconcileBatchSize ≤
      w.jobs.rows.countP fun r => r.unsynced cutoff && r.undated) (fuel : Nat) :
    ∃ w' g, (reconcileOrphans app fuel).trace (exec app.settings.workerConcurrency) env w [] =
      some (w', none, g) := by
  rw [← countP_arrears] at hmany
  have hends := reconcileLoop_never (n := app.settings.workerConcurrency) hsize hmany fuel
    (reconcileOrphans_started app w (w.clock + (env 0).elapsed))
    (by simp : ∀ r ∈ ([] : List Job), r ∈ arrears w.jobs cutoff) rfl fun _ => True
  obtain ⟨w', out, g, ht, rfl⟩ := hends.trace (fun i => env (i + 1)) fun _ => trivial
  refine ⟨w', g, ?_⟩
  rw [reconcileOrphans_trace, ← hcutoff]
  exact ht

/-- `reconcile_orphans` with nothing in between returns, and is exact, just when the rows it
skips are fewer than a page. -/
theorem reconcile_exact_iff (app : App) (hsize : 1 ≤ app.settings.reconcileBatchSize)
    (w : World) (env : Nat → Env) (cutoff : Time)
    (hcutoff : cutoff = w.clock + (env 0).elapsed - app.settings.reconcileGraceS) :
    (∃ fuel w' total g,
      (reconcileOrphans app fuel).trace (exec app.settings.workerConcurrency) env w [] =
        some (w', some total, g) ∧ ReconcileExact app.settings cutoff w w' total g) ↔
      (w.jobs.rows.countP fun r => r.unsynced cutoff && r.undated) <
        app.settings.reconcileBatchSize := by
  constructor
  · rintro ⟨fuel, w', total, g, ht, -⟩
    by_contra hmany
    obtain ⟨w₁, g₁, ht₁⟩ := reconcileOrphans_never app hsize w env hcutoff
      (Nat.le_of_not_lt hmany) fuel
    rw [ht] at ht₁
    simp at ht₁
  · intro hfew
    rw [← countP_arrears] at hfew
    have hends := reconcileLoop_ends (n := app.settings.workerConcurrency) hsize hfew
      ((orphans cutoff w.jobs).length + 1)
      (reconcileOrphans_started app w (w.clock + (env 0).elapsed))
      (by simp : ∀ r ∈ ([] : List Job), r ∈ arrears w.jobs cutoff) rfl (Nat.lt_succ_self _)
      fun _ => True
    obtain ⟨w', out, g, ht, rfl, hd⟩ := hends.trace (fun i => env (i + 1)) fun _ => trivial
    refine ⟨(orphans cutoff w.jobs).length + 1, w', _, g, ?_, hd.exact⟩
    rw [reconcileOrphans_trace, ← hcutoff]
    exact ht

def pageOfOne : App :=
  { defaultApp with
    settings := { reconcileBatchSize := 1, checkTimeoutInvariant := Settings.default_timeouts } }

/-- An old scheduled row without a `scheduled_at`, and a pending one behind it. -/
def blocked : World :=
  { World.init with
    clock := 100000000
    jobs := ⟨[
      { Repository.NewJob.row { id := 1, type := .email, payload := .null } 0 with
        status := .scheduled },
      Repository.NewJob.row { id := 2, type := .email, payload := .null } 7], by decide, by decide⟩ }

/-- The one undated row is the page of every round, and the pending row behind it is never
reached. -/
theorem reconcile_blocked :
    ¬ ∃ fuel w' total g, (reconcileOrphans pageOfOne fuel).trace
      (exec pageOfOne.settings.workerConcurrency) (fun _ => {}) blocked [] =
        some (w', some total, g) := by
  rintro ⟨fuel, w', total, g, ht⟩
  obtain ⟨w₁, g₁, ht₁⟩ := reconcileOrphans_never pageOfOne (by decide) blocked (fun _ => {})
    rfl (by decide) fuel
  rw [ht] at ht₁
  simp at ht₁

/-- With the default page of 500 rows the pending row is handed off. -/
theorem reconcile_exact_blocked :
    ∃ fuel w' g, (reconcileOrphans defaultApp fuel).trace (exec 10) (fun _ => {}) blocked [] =
        some (w', some 1, g) ∧
      handoffs 2 g = [.xadd "jobs:stream:normal" 2] ∧ handoffs 1 g = [] := by
  obtain ⟨fuel, w', total, g, ht, hx⟩ := (reconcile_exact_iff defaultApp (by decide) blocked
    (fun _ => {}) _ rfl).2 (by decide)
  obtain rfl : total = 1 := hx.counted.trans (by decide)
  exact ⟨fuel, w', g, ht, hx.handed _ (List.mem_cons_of_mem _ List.mem_cons_self) (by decide),
    hx.silent 1 (by decide)⟩

end JobProcessor
