import JobProcessor.Proofs.Delivery
import JobProcessor.Proofs.Parts

/-! What the queue refers to. Every stream entry names an existing row and lies on
the stream of its priority, and every member of the delayed set has a row: whoever
hands a job off has been shown its row, rows are never deleted, and the priority of
a row never changes. -/

namespace JobProcessor

open Interleave Prog Store

variable {app : App}

/-! ### What a handoff rests on -/

/-- The rows a reply shows, each as the stream of its priority and its id. -/
def vouches (app : App) : (o : Op) → o.Res → List (String × Uuid)
  | .createJob n, true => [(app.settings.streamForPriority n.priority, n.id)]
  | .getJob _ _, some job => [(app.settings.streamForPriority job.priority, job.id)]
  | .listUnsynced _ _, rows =>
    rows.map fun job => (app.settings.streamForPriority job.priority, job.id)
  | .getPromotionInfo _, info => info.map fun p => (app.settings.streamForPriority p.2, p.1)
  | _, _ => []

def Vouched (app : App) (h : Hist) (s : String) (id : Uuid) : Prop :=
  ∃ x ∈ h, (s, id) ∈ vouches app x.1 x.2

theorem Vouched.cons {h : Hist} {s : String} {id : Uuid} (hv : Vouched app h s id)
    (x : Reply Op Op.Res) : Vouched app (x :: h) s id :=
  hv.imp fun _ hx => ⟨List.mem_cons_of_mem _ hx.1, hx.2⟩

/-- A handoff is of a row that was shown, to the stream of its priority. -/
def routes (app : App) (h : Hist) : Op → Prop
  | .xadd s id => Vouched app h s id
  | .zadd id _ => ∃ s, Vouched app h s id
  | _ => True

/-- The handoffs of `job` alone. -/
def mails (app : App) (job : Job) : Op → Prop
  | .xadd s id => s = app.settings.streamForPriority job.priority ∧ id = job.id
  | .zadd id _ => id = job.id
  | _ => True

theorem routes_of_quiet {h : Hist} {o : Op} (ho : o.handsOff = none) : routes app h o := by
  cases o <;> trivial

/-- A program that hands off nothing but a job it was shown. -/
theorem routes_of_mails {α : Type} {job : Job} {p : Prg α} {h : Hist}
    (hp : Uses Valid (mails app job) p)
    (hv : Vouched app h (app.settings.streamForPriority job.priority) job.id) :
    Emits Valid (routes app) (fun _ _ => True) h p := by
  refine (Emits.of_uses (P := routes app)
    (I := fun g => Vouched app g (app.settings.streamForPriority job.priority) job.id)
    hp ?_ (fun g o r _ hg _ => hg.cons _) hv).mono (fun _ _ ho => ho) fun _ _ _ => trivial
  intro g o hg ho
  cases o <;> try trivial
  · obtain ⟨rfl, rfl⟩ := ho
    exact hg
  · obtain rfl := ho
    exact ⟨_, hg⟩

theorem mails_act {α : Type} {job : Job} {o : Op} {k : o.Res → Prg α} (ho : mails app job o)
    (hk : ∀ r, Uses Valid (mails app job) (k r)) : Uses Valid (mails app job) (Prog.act o k) :=
  Uses.act ho fun r _ => hk r

theorem scheduleRetryOrFail_mails (job : Job) (error : Json) :
    Uses Valid (mails app job) (scheduleRetryOrFail app job error) := by
  simp only [scheduleRetryOrFail, op_bind, mpure_eq]
  split
  · exact mails_act trivial fun _ => trivial
  · split
    · trivial
    · split
      · refine mails_act trivial fun won => ?_
        split
        · exact mails_act ⟨rfl, rfl⟩ fun _ => mails_act trivial fun _ => trivial
        · trivial
      · refine mails_act trivial fun now => ?_
        split
        · trivial
        · refine mails_act trivial fun won => ?_
          split
          · exact mails_act rfl fun _ => mails_act trivial fun _ => trivial
          · trivial

/-! ### Every process -/

theorem routes_plain (h : Hist) (o : Op) (ho : o.routine = true) : routes app h o := by
  cases o <;> trivial

theorem createJob_routes {h : Hist} {n : Repository.NewJob} {o : Uuid → Op}
    (ho : ∀ g, Vouched app g (app.settings.streamForPriority n.priority) n.id →
      routes app g (o n.id))
    {k : Except Exc Job → Prg (Except Exc Job)} (herr : ∀ exc, k (.error exc) = .pure (.error exc))
    (hok : ∀ job, k (.ok job) =
      .act (o job.id) fun _ => .act (.markSynced job.id) fun _ => .pure (.ok job)) :
    Emits Valid (routes app) (fun _ _ => True) h (createJob n >>= k) := by
  simp only [createJob, op_bind, mpure_eq, act_bind]
  refine ⟨trivial, fun inserted _ => ?_⟩
  cases inserted with
  | false =>
    change Emits _ _ _ _ (k (.error .integrityError))
    rw [herr]
    trivial
  | true =>
    refine ⟨trivial, fun row hrow => ?_⟩
    cases row with
    | none =>
      change Emits _ _ _ _ (k (.error .invalidRequest))
      rw [herr]
      trivial
    | some job =>
      change Emits _ _ _ _ (k (.ok job))
      rw [hok, (hrow job rfl).1]
      refine ⟨ho _ ?_, fun _ _ => ⟨trivial, fun _ _ => trivial⟩⟩
      exact ⟨⟨.createJob n, true⟩, by simp, List.mem_cons_self⟩

theorem createAndHandoff_routes (user newId : Uuid) (sub : JobSubmission)
    (key hash : Option String) (h : Hist) :
    Emits Valid (routes app) (fun _ _ => True) h
      (createAndHandoff app user newId sub key hash) := by
  have hpend : ∀ h, Emits Valid (routes app) (fun _ _ => True) h
      (createPending app (newJob app user newId sub key hash)) := fun h =>
    createJob_routes (o := .xadd _) (fun _ hv => hv) (fun _ => rfl) fun _ => rfl
  unfold createAndHandoff
  split
  · exact hpend h
  · rename_i scheduledAt _
    refine ⟨trivial, fun now _ => ?_⟩
    change Emits _ _ _ _ (if _ then _ else _)
    split
    · exact createJob_routes (o := (.zadd · scheduledAt)) (fun _ hv => ⟨_, hv⟩) (fun _ => rfl)
        fun _ => rfl
    · exact hpend _

theorem retryJob_routes (user id : Uuid) :
    Emits Valid (routes app) (fun _ _ => True) [] (retryJob app user id) := by
  simp only [retryJob, op_bind, mpure_eq]
  refine ⟨trivial, fun row hrow => ?_⟩
  cases row with
  | none => trivial
  | some job =>
    have hid : job.id = id := (hrow job rfl).1
    subst hid
    refine ⟨trivial, fun won _ => ?_⟩
    cases won with
    | false => trivial
    | true =>
      refine ⟨⟨⟨.getJob job.id (some user), some job⟩, by simp, List.mem_cons_self⟩, ?_⟩
      refine fun _ _ => ⟨trivial, fun _ _ => ⟨trivial, fun fresh _ => ?_⟩⟩
      cases fresh <;> trivial

theorem promoteDue_routes (h : Hist) :
    Emits Valid (routes app) (fun _ _ => True) h (promoteDue app) := by
  have hall : ∀ (routed : List (String × Uuid)) {g : Hist},
      (∀ q ∈ routed, Vouched app g q.1 q.2) →
      Emits Valid (routes app) (fun _ _ => True) g (xaddAll routed) := by
    intro routed
    induction routed with
    | nil => exact fun _ => trivial
    | cons q routed ih =>
      intro g hg
      refine ⟨hg q List.mem_cons_self, fun u _ => ih fun q' hq' => ?_⟩
      exact (hg q' (List.mem_cons_of_mem _ hq')).cons _
  simp only [promoteDue, op_bind, mpure_eq]
  refine ⟨trivial, fun now _ => ⟨trivial, fun ids _ => ?_⟩⟩
  beta_reduce
  split
  · trivial
  · refine ⟨trivial, fun info _ => Emits.bind (hall _ fun q hq => ?_) fun g _ _ => ?_⟩
    · obtain ⟨-, p, hp, hs⟩ := mem_route hq
      refine ⟨_, List.mem_cons_self, List.mem_map.2 ⟨(q.2, p), hp, ?_⟩⟩
      rw [← hs]
    · exact ⟨trivial, fun _ _ => ⟨trivial, fun _ _ => trivial⟩⟩

theorem Listed.vouched {h : Hist} {job : Job} (hl : Listed h job) :
    Vouched app h (app.settings.streamForPriority job.priority) job.id := by
  obtain ⟨t, n, rows, hx, hj⟩ := hl
  exact ⟨_, hx, List.mem_map.2 ⟨job, hj, rfl⟩⟩

theorem retry_routes (job : Job) (error : Json) (h : Hist) (hj : HasRead h job) :
    Emits Valid (routes app) (fun _ _ => True) h (scheduleRetryOrFail app job error) :=
  routes_of_mails (scheduleRetryOrFail_mails job error) ⟨_, hj.2, List.mem_cons_self⟩

theorem body_routes (app : App) (p : Proc) :
    Emits Valid (routes app) (fun _ _ => True) [] (body app p) := by
  -- a process that hands nothing off
  have hnone : (∀ h o, issues app p h o → o.handsOff = none) →
      Emits Valid (routes app) (fun _ _ => True) [] (body app p) := fun hp =>
    (body_emits app p).mono (fun h o ho => routes_of_quiet (hp h o ho)) fun _ _ _ => trivial
  cases p with
  | submitJob user newId sub =>
    exact Emits.bind (submitJob_of_handoff routes_plain createAndHandoff_routes ..) fun _ _ _ =>
      trivial
  | retryJob user id => exact Emits.bind (retryJob_routes ..) fun _ _ _ => trivial
  | runOne consumer m =>
    exact Emits.bind (runOne_of_retry routes_plain retry_routes (fun _ _ => trivial) ..)
      fun _ _ _ => trivial
  | ticker fuel =>
    refine Emits.bind (tickerLoop_of_parts routes_plain promoteDue_routes
      (reconcileOrphans_of_listed routes_plain (fun _ _ hl => hl.vouched)
        (fun _ _ _ hl _ => ⟨_, hl.vouched⟩) fun _ _ => trivial)
      (reapStale_of_one routes_plain (fun _ _ _ _ _ _ => trivial)
        (reapOne_of_retry routes_plain retry_routes (fun _ _ hj => ⟨_, hj, List.mem_cons_self⟩)
          (fun _ _ _ hj _ => ⟨_, _, hj, List.mem_cons_self⟩) fun _ _ => trivial))
      (fun _ _ _ => trivial) ..) fun _ _ _ => trivial
  | promoteDue => exact Emits.bind (promoteDue_routes []) fun _ _ _ => trivial
  | _ =>
    apply hnone
    intro h o ho
    cases o <;> first | rfl | exact ho.elim

/-! ### The rows behind the queue -/

section Runs

variable {σ σ' : State} {ev : Ev} {s : String} {id : Uuid}

def Placed (app : App) (w : World) (s : String) (id : Uuid) : Prop :=
  ∃ row, w.jobs.find? id = some row ∧ app.settings.streamForPriority row.priority = s

theorem Placed.move (h : Placed app σ.world s id) (hm : Move (system app) σ ev σ') :
    Placed app σ'.world s id := by
  obtain ⟨row, hf, rfl⟩ := h
  have hs : Stored σ.world id row := ⟨row, hf, rfl⟩
  obtain ⟨row', hf', hx⟩ := hs.move hm
  have hprio : row'.priority = row.priority := congrArg (fun k => k.2.2.2.2.2.2) hx
  exact ⟨row', hf', by rw [hprio]⟩

theorem placed_of_stored {w : World} {row : Job} (h : Stored w row.id row) :
    Placed app w (app.settings.streamForPriority row.priority) row.id := by
  obtain ⟨row', hf, hx⟩ := h
  have hprio : row'.priority = row.priority := congrArg (fun k => k.2.2.2.2.2.2) hx
  exact ⟨row', hf, by rw [hprio]⟩

theorem exec_vouches {n : Nat} {o : Op} {e : Env} {w w' : World} {r : o.Res}
    (h : exec n o e w = some (w', r)) : ∀ q ∈ vouches app o r, Placed app w' q.1 q.2 := by
  have hshow := exec_shows h
  intro q hq
  cases o with
  | createJob m =>
    cases r with
    | false => cases hq
    | true =>
      rw [vouches, List.mem_singleton] at hq
      subst hq
      exact placed_of_stored (hshow (m.row 0) List.mem_cons_self)
  | getJob i u =>
    cases r with
    | none => cases hq
    | some job =>
      rw [vouches, List.mem_singleton] at hq
      subst hq
      exact placed_of_stored (hshow job List.mem_cons_self)
  | listUnsynced t m =>
    obtain ⟨job, hj, rfl⟩ := List.mem_map.1 hq
    exact placed_of_stored (hshow job hj)
  | getPromotionInfo ids =>
    obtain ⟨p, hp, rfl⟩ := List.mem_map.1 hq
    simp only [exec, Option.some.injEq, Prod.mk.injEq] at h
    obtain ⟨rfl, rfl⟩ := h
    obtain ⟨row, hrow, rfl⟩ := List.mem_map.1 hp
    exact ⟨row, Table.find?_of_mem (List.mem_of_mem_filter hrow), rfl⟩
  | _ => cases hq

/-- Every entry, whatever its state, names a row and lies on the stream of its
priority; every member of the delayed set has a row. -/
structure References (app : App) (w : World) : Prop where
  entries : ∀ e ∈ w.streams.entries, ∃ id, e.fields = some id ∧ Placed app w e.stream id
  members : ∀ id score, w.delayed.score? id = some score → ∃ s, Placed app w s id

/-- The references, and that every row ever shown is still where it was. -/
structure Referring (app : App) (σ : State) : Prop where
  vouched : ∀ pid o r, .act pid o r ∈ σ.log → ∀ q ∈ vouches app o r, Placed app σ.world q.1 q.2
  references : References app σ.world

theorem Referring.placed (h : Referring app σ) {pid : Nat} (hv : Vouched app (own pid σ.log) s id) :
    Placed app σ.world s id := by
  obtain ⟨x, hx, hq⟩ := hv
  exact h.vouched pid x.1 x.2 (mem_own.1 hx) _ hq

theorem Referring.entries_move (h : Referring app σ) (hm : Move (system app) σ ev σ')
    (ht : Issued (system app) (fun _ => routes app) (fun _ _ _ => True) σ ev) :
    ∀ e ∈ σ'.world.streams.entries, ∃ id, e.fields = some id ∧ Placed app σ'.world e.stream id := by
  intro e he
  have hf' := Streams.find?_of_mem he
  cases hf : σ.world.streams.find? e.id with
  | some en =>
    obtain ⟨st, hst, -⟩ := move_entry hm hf
    rw [hf', Option.some.injEq] at hst
    obtain ⟨id, hid, hp⟩ := h.references.entries en (Streams.find?_mem hf)
    rw [hst]
    exact ⟨id, hid, hp.move hm⟩
  | none =>
    rcases move_entry_none hm hf with hnone | ⟨pid, s, id, u, rfl, hsome⟩
    · rw [hnone] at hf'
      cases hf'
    · rw [hf', Option.some.injEq] at hsome
      obtain ⟨-, p, -, hv⟩ := ht
      rw [hsome]
      exact ⟨id, rfl, (h.placed hv).move hm⟩

theorem Referring.members_move (h : Referring app σ) (hm : Move (system app) σ ev σ')
    (ht : Issued (system app) (fun _ => routes app) (fun _ _ _ => True) σ ev) :
    ∀ id score, σ'.world.delayed.score? id = some score → ∃ s, Placed app σ'.world s id := by
  intro id score hs
  have hold : σ.world.delayed.score? id = some score → ∃ s, Placed app σ'.world s id := by
    intro hs
    obtain ⟨s, hp⟩ := h.references.members id score hs
    exact ⟨s, hp.move hm⟩
  cases hm with
  | act pid o e he =>
    rw [exec_score he] at hs
    cases o with
    | zadd i at_ =>
      dsimp only at hs
      split at hs
      · rename_i hi
        obtain ⟨-, p, -, s, hv⟩ := ht
        exact ⟨s, hi ▸ (h.placed hv).move (.act pid _ e he)⟩
      · exact hold hs
    | zrem ids =>
      dsimp only at hs
      split at hs
      · cases hs
      · exact hold hs
    | _ => exact hold hs
  | _ => exact hold hs

theorem Referring.move (h : Referring app σ) (hm : Move (system app) σ ev σ')
    (ht : Issued (system app) (fun _ => routes app) (fun _ _ _ => True) σ ev) :
    Referring app σ' := by
  refine ⟨?_, ⟨h.entries_move hm ht, h.members_move hm ht⟩⟩
  intro pid o r hev q hq
  rw [move_log hm] at hev
  rcases List.mem_cons.1 hev with rfl | hev
  · obtain ⟨e, he⟩ := move_exec hm
    exact exec_vouches he q hq
  · exact (h.vouched pid o r hev q hq).move hm

theorem referring {ok : State → Ev → Prop} {c : Cfg} (hr : Run (system app) ok c) :
    Referring app c.shared := by
  refine Run.inv (fun _ _ _ _ _ he => exec_valid he) (body_routes app) ?_ ?_ hr
  · refine ⟨fun _ _ _ h => (by cases h), ⟨?_, ?_⟩⟩
    · intro e he
      cases he
    · intro id score hs
      cases hs
  · intro σ ev σ' hI hm _ ht
    exact hI.move hm ht

end Runs

/-- In every reachable state the queue refers to rows only, each through the stream of
its priority. -/
theorem references_intact (app : App) (c : Cfg) (hr : Reachable (system app) c) :
    References app c.shared.world :=
  (referring hr).references

/-- Job 1 is in its stream, job 2 waits in the delayed set. -/
def twoSubmitted : List (Choice Env Proc) := List.flatten
  [[.start (.submitJob 7 1 { type := .email, payload := .null, priority := .high })], runs 0 5,
    [.start (.submitJob 7 2 { type := .email, payload := .null, scheduledAt := some 5 })],
    runs 1 6]

theorem references_intact_submitted : ∃ c, Reachable (system defaultApp) c ∧
    c.shared.world.streams.entries.length = 1 ∧ c.shared.world.delayed.score? 2 = some 5 ∧
    References defaultApp c.shared.world := by
  obtain ⟨c, hc, hl⟩ := reachable_of_replay defaultApp twoSubmitted
    (fun c => decide (c.shared.world.streams.entries.length = 1) &&
      decide (c.shared.world.delayed.score? 2 = some 5)) (by decide +kernel)
  rw [Bool.and_eq_true, decide_eq_true_eq, decide_eq_true_eq] at hl
  exact ⟨c, hc, hl.1, hl.2, references_intact defaultApp c hc⟩

end JobProcessor
