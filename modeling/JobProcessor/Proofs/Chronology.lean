import JobProcessor.Proofs.Delivery
import JobProcessor.Proofs.Parts

/-! Instants. No row was created and nothing is pending since an instant that is still
to come, and no job is parked before the epoch: whoever parks a job has read the clock
or was shown the instant in a row. -/

namespace JobProcessor

open Interleave Prog Store

/-! ### What an instant rests on -/

def tells : (o : Op) → o.Res → List Time
  | .now, t => [t]
  | .getJob _ _, some job => job.scheduledAt.toList
  | .listUnsynced _ _, rows => rows.filterMap Job.scheduledAt
  | _, _ => []

/-- `t` is not before an instant the process was told. -/
def Aware (h : Hist) (t : Time) : Prop := ∃ x ∈ h, ∃ s ∈ tells x.1 x.2, s ≤ t

theorem Aware.cons {h : Hist} {t : Time} (ha : Aware h t) (x : Reply Op Op.Res) :
    Aware (x :: h) t :=
  ha.imp fun _ hx => ⟨List.mem_cons_of_mem _ hx.1, hx.2⟩

/-- A job is created with a date where it is scheduled, and parked at an instant the
process is aware of. -/
def dates (h : Hist) : Op → Prop
  | .createJob n => (n.status = .scheduled → n.scheduledAt ≠ none) ∧ ∀ t ∈ n.scheduledAt, Aware h t
  | .retryToScheduled _ t => Aware h t
  | .zadd _ t => Aware h t
  | _ => True

theorem dates_plain (h : Hist) (o : Op) (ho : o.routine = true) : dates h o := by
  cases o <;> trivial

/-- A retry is parked at an instant after one the process has read. -/
def parksLater (h : Hist) : Op → Prop
  | .createJob _ => False
  | .retryToScheduled _ t => ∃ now : Time, (⟨.now, now⟩ : Reply Op Op.Res) ∈ h ∧ now ≤ t
  | .zadd _ t => ∃ now : Time, (⟨.now, now⟩ : Reply Op Op.Res) ∈ h ∧ now ≤ t
  | _ => True

theorem dates_of_parksLater {h : Hist} {o : Op} (hp : parksLater h o) : dates h o := by
  cases o with
  | createJob n => exact hp.elim
  | retryToScheduled id t =>
    obtain ⟨now, hn, hle⟩ := hp
    exact ⟨_, hn, now, List.mem_cons_self, hle⟩
  | zadd id t =>
    obtain ⟨now, hn, hle⟩ := hp
    exact ⟨_, hn, now, List.mem_cons_self, hle⟩
  | _ => trivial

section Programs

variable {app : App}

theorem scheduleRetryOrFail_parksLater (job : Job) (error : Json) (h : Hist) :
    Emits Valid parksLater (fun _ _ => True) h (scheduleRetryOrFail app job error) := by
  simp only [scheduleRetryOrFail, op_bind, mpure_eq]
  split
  · exact ⟨trivial, fun _ _ => trivial⟩
  · split
    · trivial
    · rename_i delay _
      split
      · refine ⟨trivial, fun won _ => ?_⟩
        beta_reduce
        split
        · exact ⟨trivial, fun _ _ => ⟨trivial, fun _ _ => trivial⟩⟩
        · trivial
      · rename_i hpos
        have hle : ∀ now : Time, now ≤ now + delay * 1000000 := fun _ =>
          Int.le_add_of_nonneg_right (by omega)
        refine ⟨trivial, fun now _ => ?_⟩
        beta_reduce
        split
        · trivial
        · refine ⟨⟨now, List.mem_cons_self, hle now⟩, fun won _ => ?_⟩
          beta_reduce
          split
          · refine ⟨⟨now, ?_, hle now⟩, fun _ _ => ⟨trivial, fun _ _ => trivial⟩⟩
            exact List.mem_cons_of_mem _ List.mem_cons_self
          · trivial

theorem scheduleRetryOrFail_dates (job : Job) (error : Json) (h : Hist) :
    Emits Valid dates (fun _ _ => True) h (scheduleRetryOrFail app job error) :=
  (scheduleRetryOrFail_parksLater job error h).mono (fun _ _ => dates_of_parksLater) fun _ _ _ => trivial

theorem createJob_dates {h : Hist} {n : Repository.NewJob} {o : Uuid → Op} (hn : dates h (.createJob n))
    (ho : ∀ x y id, dates (x :: y :: h) (o id))
    {k : Except Exc Job → Prg (Except Exc Job)} (herr : ∀ exc, k (.error exc) = .pure (.error exc))
    (hok : ∀ job, k (.ok job) =
      .act (o job.id) fun _ => .act (.markSynced job.id) fun _ => .pure (.ok job)) :
    Emits Valid dates (fun _ _ => True) h (createJob n >>= k) := by
  simp only [createJob, op_bind, mpure_eq, act_bind]
  refine ⟨hn, fun inserted _ => ?_⟩
  cases inserted with
  | false =>
    change Emits _ _ _ _ (k (.error .integrityError))
    rw [herr]
    trivial
  | true =>
    refine ⟨trivial, fun row hrow => ?_⟩
    cases row with
    | none =>
      change Emits _ _ _ _ (k (.error .invalidRequest))
      rw [herr]
      trivial
    | some job =>
      change Emits _ _ _ _ (k (.ok job))
      rw [hok]
      exact ⟨ho _ _ _, fun _ _ => ⟨trivial, fun _ _ => trivial⟩⟩

theorem createAndHandoff_dates (user newId : Uuid) (sub : JobSubmission)
    (key hash : Option String) (h : Hist) :
    Emits Valid dates (fun _ _ => True) h (createAndHandoff app user newId sub key hash) := by
  have hpend : ∀ h, Emits Valid dates (fun _ _ => True) h
      (createPending app (newJob app user newId sub key hash)) := by
    intro h
    have hn : dates h (.createJob (newJob app user newId sub key hash)) := by
      simp [dates, newJob]
    exact createJob_dates (o := .xadd _) hn (fun _ _ _ => trivial) (fun _ => rfl) fun _ => rfl
  unfold createAndHandoff
  split
  · exact hpend h
  · rename_i scheduledAt _
    refine ⟨trivial, fun now _ => ?_⟩
    change Emits _ _ _ _ (if _ then _ else _)
    split
    · rename_i hlt
      have haware : Aware (⟨.now, now⟩ :: h) scheduledAt :=
        ⟨_, List.mem_cons_self, now, List.mem_cons_self, Int.le_of_lt hlt⟩
      refine createJob_dates (o := (.zadd · scheduledAt)) ⟨fun _ => by simp, fun t ht => ?_⟩
        (fun x y _ => (haware.cons y).cons x) (fun _ => rfl) fun _ => rfl
      rw [Option.mem_some_iff] at ht
      exact ht ▸ haware
    · exact hpend _

theorem Listed.aware {h : Hist} {job : Job} {t : Time} (hl : Listed h job)
    (ht : job.scheduledAt = some t) : Aware h t := by
  obtain ⟨older, n, rows, hx, hj⟩ := hl
  exact ⟨_, hx, t, List.mem_filterMap.2 ⟨job, hj, ht⟩, Int.le_refl _⟩

theorem reapOne_dates (m : Message) (jobId : Uuid) (h : Hist) :
    Emits Valid dates (fun _ _ => True) h (reapOne app m jobId) := by
  refine reapOne_of_retry dates_plain (fun job error h _ => scheduleRetryOrFail_dates job error h)
    (fun _ _ _ => trivial) (fun job t h hj ht => ?_) (fun _ _ => trivial) m jobId h
  exact ⟨_, hj, t, Option.mem_toList.2 ht, Int.le_refl _⟩

theorem promoteDue_dates (h : Hist) : Emits Valid dates (fun _ _ => True) h (promoteDue app) :=
  promoteDue_of_plain (fun _ o _ => by cases o <;> simp_all [Op.inPromotion, dates]) h

theorem body_dates (app : App) (p : Proc) :
    Emits Valid dates (fun _ _ => True) [] (body app p) := by
  have hnone : (∀ h o, issues app p h o → dates h o) →
      Emits Valid dates (fun _ _ => True) [] (body app p) := fun hp =>
    (body_emits app p).mono hp fun _ _ _ => trivial
  cases p with
  | submitJob user newId sub =>
    exact Emits.bind (submitJob_of_handoff dates_plain createAndHandoff_dates ..) fun _ _ _ =>
      trivial
  | runOne consumer m =>
    exact Emits.bind (runOne_of_retry dates_plain (fun job error h _ =>
      scheduleRetryOrFail_dates job error h) (fun _ _ => trivial) ..) fun _ _ _ => trivial
  | ticker fuel =>
    exact Emits.bind (tickerLoop_of_parts dates_plain promoteDue_dates
      (reconcileOrphans_of_listed dates_plain (fun _ _ _ => trivial)
        (fun _ _ _ hl ht => hl.aware ht) fun _ _ => trivial)
      (reapStale_of_one dates_plain (fun _ _ _ _ _ _ => trivial) reapOne_dates)
      (fun _ _ _ => trivial) ..) fun _ _ _ => trivial
  | promoteDue => exact Emits.bind (promoteDue_dates []) fun _ _ _ => trivial
  | _ =>
    apply hnone
    intro h o ho
    cases o <;> trivial

end Programs

/-! ### Rows -/

/-- The row was created by now, and a scheduled one has a date, not before the epoch. -/
structure Job.InOrder (now : Time) (r : Job) : Prop where
  created : 0 ≤ r.createdAt ∧ r.createdAt ≤ now
  scheduled : r.status = .scheduled → r.scheduledAt ≠ none
  dated : ∀ t ∈ r.scheduledAt, 0 ≤ t

section Rows

variable {now now' : Time} {row : Job}

theorem Job.InOrder.later (h : row.InOrder now) (hle : now ≤ now') : row.InOrder now' :=
  ⟨⟨h.created.1, h.created.2.trans hle⟩, h.scheduled, h.dated⟩

theorem inOrder_new {n : Repository.NewJob} (h0 : 0 ≤ now)
    (hs : n.status = .scheduled → n.scheduledAt ≠ none) (hd : ∀ t ∈ n.scheduledAt, 0 ≤ t) :
    (n.row now).InOrder now := ⟨⟨h0, Int.le_refl _⟩, hs, hd⟩

theorem onRow_scheduled {o : Op} (hs : (o.onRow now row).status = .scheduled) :
    row.status = .scheduled ∨ ∃ t, o = .retryToScheduled row.id t := by
  cases o with
  | retryToScheduled id t =>
    by_cases hid : row.id = id
    · exact .inr ⟨t, by rw [hid]⟩
    · rw [Op.onRow, if_neg fun h => hid h.1] at hs
      exact .inl hs
  | _ =>
    left
    revert hs
    simp only [Op.onRow]
    try split
    all_goals simp

theorem onRow_inOrder {o : Op} (h : row.InOrder now) (hp : ∀ id t, o = .retryToScheduled id t → 0 ≤ t) :
    (o.onRow now row).InOrder now where
  created := (onRow_key now row o).2 ▸ h.created
  scheduled hs := by
    rcases onRow_scheduledAt now row o with hsame | ⟨hst, t, rfl⟩
    · rw [hsame]
      rcases onRow_scheduled hs with hs' | ⟨t, rfl⟩
      · exact h.scheduled hs'
      · rw [Op.onRow] at hs hsame
        split at hs
        · rename_i hc
          rw [if_pos hc] at hsame
          rw [← hsame]
          simp
        · exact h.scheduled hs
    · simp [Op.onRow, hst]
  dated t ht := by
    rcases onRow_scheduledAt now row o with hsame | ⟨hst, t', rfl⟩
    · exact h.dated t (hsame ▸ ht)
    · simp only [Op.onRow, hst, and_self, if_true, Option.mem_some_iff] at ht
      exact ht ▸ hp row.id t' rfl

end Rows

/-! ### Runs -/

/-- No creation and no delivery lies ahead of the clock, and nothing before the epoch. -/
structure Chronology (w : World) : Prop where
  clock : 0 ≤ w.clock
  rows : ∀ j row, w.jobs.find? j = some row → row.InOrder w.clock
  since : ∀ e ∈ w.streams.entries, ∀ c t, e.state = .pending c t → t ≤ millis w.clock
  scores : ∀ j s, w.delayed.score? j = some s → 0 ≤ s

/-- The chronology, and that every instant ever told lies after the epoch. -/
structure Dated (σ : State) : Prop where
  told : ∀ pid o r, .act pid o r ∈ σ.log → ∀ t ∈ tells o r, 0 ≤ t
  world : Chronology σ.world

section Runs

variable {app : App} {σ σ' : State} {ev : Ev} {n : Nat} {o : Op} {e : Env} {w w' : World} {r : o.Res}

theorem Aware.nonneg {h : Hist} {t : Time} (ha : Aware h t)
    (htold : ∀ x ∈ h, ∀ t ∈ tells x.1 x.2, 0 ≤ t) : 0 ≤ t := by
  obtain ⟨x, hx, s, hs, hle⟩ := ha
  exact (htold x hx s hs).trans hle

theorem millis_add {now t ms : Int} (h : ms * 1000 ≤ t) : ms + millis now ≤ millis (now + t) := by
  unfold millis
  omega

theorem millis_mono {t t' : Time} (h : t ≤ t') : millis t ≤ millis t' :=
  Int.ediv_le_ediv (by decide) h

theorem exec_since (h : exec n o e w = some (w', r))
    (hs : ∀ en ∈ w.streams.entries, ∀ c t, en.state = .pending c t → t ≤ millis w.clock) :
    ∀ en ∈ w'.streams.entries, ∀ c t, en.state = .pending c t → t ≤ millis w'.clock := by
  have hle := millis_mono (exec_later h)
  have hold : ∀ en ∈ w.streams.entries, ∀ c t, en.state = .pending c t → t ≤ millis w'.clock :=
    fun en he c t hst => (hs en he c t hst).trans hle
  have hdeliver : ∀ (consumer : String) (ids : List Nat),
      ∀ en ∈ (w.streams.deliver consumer (millis w'.clock) ids).entries, ∀ c t,
        en.state = .pending c t → t ≤ millis w'.clock := by
    intro consumer ids en he c t hst
    obtain ⟨en₀, he₀, rfl⟩ := List.mem_map.1 he
    dsimp only at hst
    split at hst
    · cases hst
      exact Int.le_refl _
    · exact hold en₀ he₀ c t hst
  cases o with
  | xadd s id =>
    simp only [exec, Option.some.injEq, Prod.mk.injEq] at h
    obtain ⟨rfl, -⟩ := h
    intro en he c t hst
    rcases List.mem_append.1 he with he | he
    · exact hold en he c t hst
    · rw [List.mem_singleton] at he
      subst he
      cases hst
  | xreadgroup c ss k =>
    simp only [exec, Option.some.injEq, Prod.mk.injEq] at h
    obtain ⟨rfl, -⟩ := h
    exact hdeliver c _
  | xautoclaim s idle a k =>
    simp only [exec, Option.some.injEq, Prod.mk.injEq] at h
    obtain ⟨rfl, -⟩ := h
    exact hdeliver reaperName _
  | xack s i =>
    simp only [exec, Option.some.injEq, Prod.mk.injEq] at h
    obtain ⟨rfl, -⟩ := h
    intro en he c t hst
    obtain ⟨en₀, he₀, rfl⟩ := List.mem_map.1 he
    cases hp : en₀.state with
    | pending c₀ t₀ =>
      simp only [hp] at hst
      split at hst
      · cases hst
      · cases hst
        exact hold en₀ he₀ _ _ hp
    | _ =>
      simp only [hp] at hst
      cases hst
  | _ =>
    rw [exec_streams h (by simp) (by simp) (by simp) (by simp)]
    exact hold

theorem exec_tells (h : exec n o e w = some (w', r)) (hw : Chronology w) :
    ∀ t ∈ tells o r, 0 ≤ t := by
  intro t ht
  cases o with
  | now =>
    simp only [exec, Option.some.injEq, Prod.mk.injEq] at h
    obtain ⟨-, rfl⟩ := h
    rw [tells, List.mem_singleton] at ht
    exact ht ▸ hw.clock.trans (Int.le_add_of_nonneg_right (Int.natCast_nonneg _))
  | getJob id u =>
    cases r with
    | none => cases ht
    | some job =>
      simp only [exec, Option.some.injEq, Prod.mk.injEq] at h
      exact (hw.rows id job (Repository.getJob_some h.2).1).dated t (Option.mem_toList.1 ht)
  | listUnsynced older k =>
    simp only [exec, Option.some.injEq, Prod.mk.injEq] at h
    obtain ⟨-, rfl⟩ := h
    obtain ⟨job, hj, ht⟩ := List.mem_filterMap.1 ht
    have hrow := List.mem_of_mem_take hj
    rw [List.mem_insertionSort] at hrow
    exact (hw.rows job.id job (Table.find?_of_mem (List.mem_of_mem_filter hrow))).dated t ht
  | _ => cases ht

/-- One action of a process that was told only instants after the epoch. -/
theorem Chronology.exec {h : Hist} (hw : Chronology w)
    (htold : ∀ x ∈ h, ∀ t ∈ tells x.1 x.2, 0 ≤ t) (hd : dates h o)
    (he : exec n o e w = some (w', r)) : Chronology w' where
  clock := hw.clock.trans (exec_later he)
  rows j row' hj := by
    have hle := exec_later he
    by_cases hc : ∃ m, o = .createJob m
    · obtain ⟨m, rfl⟩ := hc
      have hcr := exec_create he
      split at hcr
      · rw [hcr.2.1] at hj
        split at hj
        · rw [Option.some.injEq] at hj
          exact hj ▸ inOrder_new (hw.clock.trans hle) hd.1 fun t ht => (hd.2 t ht).nonneg htold
        · exact (hw.rows j row' hj).later hle
      · rw [hcr.1] at hj
        exact (hw.rows j row' hj).later hle
    · rw [exec_row he fun m hm => hc ⟨m, hm⟩, Option.map_eq_some_iff] at hj
      obtain ⟨row, hf, rfl⟩ := hj
      refine onRow_inOrder ((hw.rows j row hf).later hle) ?_
      rintro id t rfl
      exact Aware.nonneg hd htold
  since := exec_since he hw.since
  scores j s hs := by
    rw [exec_score he] at hs
    cases o with
    | zadd i t =>
      dsimp only at hs
      split at hs
      · rw [Option.some.injEq] at hs
        exact hs ▸ Aware.nonneg hd htold
      · exact hw.scores j s hs
    | zrem ids =>
      dsimp only at hs
      split at hs
      · cases hs
      · exact hw.scores j s hs
    | _ => exact hw.scores j s hs

theorem Dated.move (h : Dated σ) (hm : Move (system app) σ ev σ')
    (ht : Issued (system app) (fun _ => dates) (fun _ _ _ => True) σ ev) : Dated σ' := by
  cases hm with
  | act pid o e he =>
    obtain ⟨-, p, -, hd⟩ := ht
    refine ⟨fun q o' r' hev t ht => ?_, h.world.exec (fun x hx => ?_) hd he⟩
    · rcases List.mem_cons.1 hev with hev | hev
      · cases hev
        exact exec_tells he h.world t ht
      · exact h.told q o' r' hev t ht
    · exact h.told pid x.1 x.2 (mem_own.1 hx)
  | _ =>
    refine ⟨fun q o r hev => ?_, h.world⟩
    rcases List.mem_cons.1 hev with hev | hev
    · cases hev
    · exact h.told q o r hev

theorem dated {ok : State → Ev → Prop} {c : Cfg} (hr : Run (system app) ok c) : Dated c.shared := by
  refine Run.inv (fun _ _ _ _ _ he => exec_valid he) (body_dates app) ?_ ?_ hr
  · refine ⟨fun _ _ _ h => (by cases h), Int.le_refl _, ?_, ?_, ?_⟩
    · intro j row hj
      cases hj
    · intro e he
      cases he
    · intro j s hs
      cases hs
  · intro σ ev σ' hI hm _ ht
    exact hI.move hm ht

end Runs

end JobProcessor
