import JobProcessor.Proofs.Issues

/-! What holds of the parts of a program holds of the program. A condition on actions
that only those carrying data can break is checked where they are issued: at a
creation, at a retry decision, and at the handoffs of the ticker. -/

namespace JobProcessor

open Interleave Prog Store

/-- The actions of the programs outside their parts. -/
def Op.routine : Op → Bool
  | .getByIdempotencyKey _ _ => true
  | .listUnsynced _ _ => true
  | .xack _ _ => true
  | .shouldStop => true
  | o => o.inTask

def Op.inPromotion : Op → Bool
  | .now => true
  | .zrangebyscore _ _ => true
  | .getPromotionInfo _ => true
  | .xadd _ _ => true
  | .zrem _ => true
  | .promoteScheduledToPending _ => true
  | _ => false

theorem promoteDue_uses {app : App} :
    Uses Valid (fun o => o.inPromotion = true) (promoteDue app) := by
  have hall : ∀ routed : List (String × Uuid),
      Uses Valid (fun o => o.inPromotion = true) (xaddAll routed) := by
    intro routed
    induction routed with
    | nil => trivial
    | cons q routed ih => exact Uses.act rfl fun _ _ => ih
  simp only [promoteDue, op_bind, mpure_eq]
  refine Uses.act rfl fun now _ => Uses.act rfl fun ids _ => ?_
  split
  · trivial
  · refine Uses.act rfl fun info _ => Uses.bind (hall _) fun _ => ?_
    exact Uses.act rfl fun _ _ => Uses.act rfl fun _ _ => trivial

theorem promoteDue_of_plain {app : App} {P : Hist → Op → Prop}
    (hP : ∀ h o, o.inPromotion = true → P h o) (h : Hist) :
    Emits Valid P (fun _ _ => True) h (promoteDue app) :=
  ((uses_iff h).2 promoteDue_uses).mono hP fun _ _ _ => trivial

def Listed (h : Hist) (job : Job) : Prop :=
  ∃ t n rows, (⟨.listUnsynced t n, rows⟩ : Reply Op Op.Res) ∈ h ∧ job ∈ rows

theorem Listed.cons {h : Hist} {job : Job} (hl : Listed h job) (x : Reply Op Op.Res) :
    Listed (x :: h) job := by
  obtain ⟨t, n, rows, hx, hj⟩ := hl
  exact ⟨t, n, rows, List.mem_cons_of_mem _ hx, hj⟩

section Parts

variable {app : App} {P : Hist → Op → Prop} (hplain : ∀ h o, o.routine = true → P h o)
  (hretry : ∀ (job : Job) (error : Json) (h : Hist), HasRead h job →
      Emits Valid P (fun _ _ => True) h (scheduleRetryOrFail app job error))

include hplain

section Retry

include hretry

theorem runOne_of_retry (hrelease : ∀ h c, P h (.semRelease c)) (consumer : String) (m : Message) :
    Emits Valid P (fun _ _ => True) [] (runOne app consumer m) := by
  refine Emits.bind (Q := fun _ _ => True) ?_ fun g r _ => ⟨hrelease _ _, fun _ _ => trivial⟩
  unfold handleMessage
  split
  · exact ⟨hplain _ _ rfl, fun _ _ => trivial⟩
  · refine Emits.bind (processJob_of_retry (fun h o ho => ?_) hretry _) fun g r _ => ?_
    · exact hplain h o (by cases o <;> first | rfl | exact ho)
    · cases r with
      | error exc => trivial
      | ok out =>
        dsimp only
        split
        · exact ⟨hplain _ _ rfl, fun _ _ => trivial⟩
        · trivial

theorem reapOne_of_retry
    (hqueue : ∀ (job : Job) (h : Hist), (⟨.getJob job.id none, some job⟩ : Reply Op Op.Res) ∈ h →
      P h (.xadd (app.settings.streamForPriority job.priority) job.id))
    (hpark : ∀ (job : Job) (t : Time) (h : Hist),
      (⟨.getJob job.id none, some job⟩ : Reply Op Op.Res) ∈ h → job.scheduledAt = some t →
        P h (.zadd job.id t))
    (hmark : ∀ id h, P h (.markSynced id)) (m : Message) (jobId : Uuid) (h : Hist) :
    Emits Valid P (fun _ _ => True) h (reapOne app m jobId) := by
  have hack : ∀ g : Hist, Emits Valid P (fun _ _ => True) g
      (.act (.xack m.stream m.messageId) fun _ => .pure (.ok ()) : Prg (Except Exc Unit)) :=
    fun _ => ⟨hplain _ _ rfl, fun _ _ => trivial⟩
  simp only [reapOne, op_bind, mpure_eq]
  refine ⟨hplain _ _ rfl, fun row hrow => ?_⟩
  cases row with
  | none => exact hack _
  | some job =>
    obtain rfl : job.id = jobId := (hrow job rfl).1
    dsimp only
    split
    · exact hack _
    · split
      · refine Emits.bind (hretry job _ _ (hasRead_head job _)) fun g r _ => ?_
        cases r with
        | error exc => trivial
        | ok won => exact hack _
      · split
        · exact hack _
        · split
          · rename_i t _ ht
            exact ⟨hpark job t _ List.mem_cons_self ht, fun _ _ =>
              ⟨hmark _ _, fun _ _ => hack _⟩⟩
          · exact ⟨hqueue job _ List.mem_cons_self, fun _ _ => ⟨hmark _ _, fun _ _ => hack _⟩⟩

end Retry

theorem submitJob_of_handoff (hhand : ∀ user newId sub key hash h,
    Emits Valid P (fun _ _ => True) h (createAndHandoff app user newId sub key hash))
    (user newId : Uuid) (sub : JobSubmission) :
    Emits Valid P (fun _ _ => True) [] (submitJob app user newId sub) := by
  unfold submitJob
  split
  · trivial
  · split
    · refine Emits.bind (hhand ..) fun g r _ => ?_
      cases r <;> trivial
    · simp only [submitKeyed, op_bind, mpure_eq]
      refine ⟨hplain _ _ rfl, fun existing _ => ?_⟩
      cases existing with
      | some job => trivial
      | none =>
        refine Emits.bind (hhand ..) fun g r _ => ?_
        rcases r with exc | job
        · cases exc with
          | integrityError => exact ⟨hplain _ _ rfl, fun _ _ => trivial⟩
          | _ => trivial
        · trivial

theorem reconcileOrphans_of_listed
    (hqueue : ∀ (job : Job) (h : Hist), Listed h job →
      P h (.xadd (app.settings.streamForPriority job.priority) job.id))
    (hpark : ∀ (job : Job) (t : Time) (h : Hist), Listed h job → job.scheduledAt = some t →
      P h (.zadd job.id t))
    (hmark : ∀ id h, P h (.markSynced id)) (fuel : Nat) (h : Hist) :
    Emits Valid P (fun _ _ => True) h (reconcileOrphans app fuel) := by
  have hrows : ∀ (all rows : List Job) (total : Nat) (g : Hist), rows ⊆ all →
      (∀ job ∈ all, Listed g job) →
        Emits Valid P (fun g' _ => ∀ job ∈ all, Listed g' job) g (handoffRows app rows total) := by
    intro all rows
    induction rows with
    | nil => exact fun _ _ _ hg => hg
    | cons job rows ih =>
      intro total g hsub hg
      have hj := hg job (hsub List.mem_cons_self)
      have hsub' : rows ⊆ all := fun _ hm => hsub (List.mem_cons_of_mem _ hm)
      have hrest : ∀ x y : Reply Op Op.Res, ∀ job' ∈ all, Listed (x :: y :: g) job' :=
        fun x y job' hm => ((hg job' hm).cons y).cons x
      unfold handoffRows
      split
      · split
        · exact ih total g hsub' hg
        · rename_i t ht
          exact ⟨hpark job t g hj ht, fun _ _ =>
            ⟨hmark _ _, fun _ _ => ih _ _ hsub' (hrest _ _)⟩⟩
      · exact ⟨hqueue job g hj, fun _ _ => ⟨hmark _ _, fun _ _ => ih _ _ hsub' (hrest _ _)⟩⟩
  refine ⟨hplain _ _ rfl, fun now _ => ?_⟩
  change Emits _ _ _ _ (reconcileLoop app (now - app.settings.reconcileGraceS) fuel [] 0)
  generalize (0 : Nat) = total
  generalize (⟨.now, now⟩ :: h : Hist) = g
  -- the instances that the session holds were listed before
  have hheld : ∀ job ∈ ([] : List Job), Listed g job := by simp
  generalize ([] : List Job) = instances at hheld ⊢
  induction fuel generalizing instances total g with
  | zero => trivial
  | succ fuel ih =>
    simp only [reconcileLoop, op_bind, mpure_eq]
    refine ⟨hplain _ _ rfl, fun page _ => ?_⟩
    beta_reduce
    split
    · trivial
    · refine Emits.bind (hrows _ _ total _ (List.Subset.refl _) fun job hj => ?_)
        fun g' total' hg' => ?_
      · rcases mem_identityMap hj with hj | hj
        · exact (hheld job hj).cons _
        · exact ⟨_, _, page, List.mem_cons_self, hj⟩
      · split
        · trivial
        · exact ih total' g' _ hg'

theorem reapStale_of_one
    (hclaim : ∀ s ∈ app.settings.orderedStreams, ∀ idle start n h, P h (.xautoclaim s idle start n))
    (hone : ∀ m id h, Emits Valid P (fun _ _ => True) h (reapOne app m id)) (fuel : Nat)
    (h : Hist) : Emits Valid P (fun _ _ => True) h (reapStale app fuel) := by
  have hms : ∀ ms handled h,
      Emits Valid P (fun _ _ => True) h (reapMessages app ms handled) := by
    intro ms
    induction ms with
    | nil => exact fun _ _ => trivial
    | cons m ms ih =>
      intro handled h
      unfold reapMessages
      split
      · exact ⟨hplain _ _ rfl, fun _ _ => ih _ _⟩
      · refine Emits.bind (hone m _ h) fun g r _ => ?_
        cases r with
        | error exc => trivial
        | ok _ => exact ih _ _
  have hstream : ∀ stream ∈ app.settings.orderedStreams, ∀ fuel cursor handled h,
      Emits Valid P (fun _ _ => True) h (reapStream app stream fuel cursor handled) := by
    intro stream hs fuel
    induction fuel with
    | zero => exact fun _ _ _ => trivial
    | succ fuel ih =>
      intro cursor handled h
      simp only [reapStream, op_bind, mpure_eq]
      refine ⟨hclaim stream hs .., fun resp _ => Emits.bind (hms resp.2 handled _) fun g r _ => ?_⟩
      cases r with
      | error s => trivial
      | ok handled =>
        dsimp only
        split
        · trivial
        · exact ih _ _ _
  unfold reapStale
  generalize app.settings.orderedStreams = ss at hstream
  generalize (0 : Nat) = handled
  induction ss generalizing handled h with
  | nil => trivial
  | cons s ss ih =>
    refine Emits.bind (hstream s List.mem_cons_self fuel 0 handled h) fun g r _ => ?_
    cases r with
    | error e => trivial
    | ok handled => exact ih _ (fun s hs => hstream s (List.mem_cons_of_mem _ hs)) _

theorem tickerLoop_of_parts {R : Hist → Except Stop Nat → Prop}
    (hpromote : ∀ h, Emits Valid P (fun _ _ => True) h (promoteDue app))
    (hreconcile : ∀ fuel h, Emits Valid P (fun _ _ => True) h (reconcileOrphans app fuel))
    (hreap : ∀ fuel h, Emits Valid P R h (reapStale app fuel))
    (hfail : ∀ h exc, R h (.error (.raised exc)) → P h (.tickFailed exc)) (fuel : Nat)
    (lastReconcile lastReap : Time) (h : Hist) :
    Emits Valid P (fun _ _ => True) h (tickerLoop app fuel lastReconcile lastReap) := by
  induction fuel generalizing lastReconcile lastReap h with
  | zero => trivial
  | succ fuel ih =>
    simp only [tickerLoop, op_bind, mpure_eq]
    refine ⟨hplain _ _ rfl, fun stop _ => ?_⟩
    cases stop with
    | true => trivial
    | false =>
      refine Emits.bind (hpromote _) fun g _ _ => ⟨hplain _ _ rfl, fun now _ => ?_⟩
      refine Emits.bind (Q := fun _ _ => True) ?_ fun g' r _ => ?_
      · unfold reconcileTick
        split
        · refine Emits.bind (hreconcile fuel _) fun _ r _ => ?_
          cases r <;> trivial
        · trivial
      · cases r with
        | none => trivial
        | some lastReconcile =>
          refine Emits.bind (Q := fun _ _ => True) ?_ fun g'' r _ => ?_
          · unfold reapTick
            split
            · refine Emits.bind (hreap fuel _) fun g r hr => ?_
              rcases r with (exc | _) | _
              · exact ⟨hfail g exc hr, fun _ _ => trivial⟩
              · trivial
              · trivial
            · trivial
          · cases r with
            | none => trivial
            | some lastReap => exact ih _ _ _

end Parts

end JobProcessor
