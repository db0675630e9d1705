import JobProcessor.Proofs.Lease
import JobProcessor.Proofs.StatusGraph
import JobProcessor.Proofs.SyncFlag

/-! Traces of a job in Redis: its id in the delayed set, and the stream entries that
name it and that no task has used yet. What each event does to them. -/

namespace JobProcessor

open Interleave Prog Store

def HasRow (σ : State) (j : Uuid) : Prop := ∃ row, σ.world.jobs.find? j = some row

/-- The task of entry `i` has run `claim_job`. -/
def usedEntry (i : Nat) : List Ev → Bool
  | [] => false
  | .act q (.claimJob _) _ :: l => taskEntry l q == some i || usedEntry i l
  | _ :: l => usedEntry i l

/-- `XAUTOCLAIM` has taken entry `i`. -/
def reclaimed (i : Nat) : List Ev → Bool
  | [] => false
  | .act _ (.xautoclaim _ _ _ _) reply :: l =>
    reply.2.any (fun m => m.messageId == i) || reclaimed i l
  | _ :: l => reclaimed i l

section Rows

variable {app : App} {σ σ' : State} {ev : Ev} {j : Uuid}

theorem HasRow.move (h : HasRow σ j) (hm : Move (system app) σ ev σ') : HasRow σ' j := by
  obtain ⟨row, hj⟩ := h
  exact ⟨_, move_row_some hm hj⟩

/-- Every id in Redis, and every id a process takes from there, has a row. -/
structure Rowed (σ : State) : Prop where
  seen : Remembered σ
  valid : ∀ pid o r, .act pid o r ∈ σ.log → Valid o r
  claimed : ∀ pid j, .act pid (.claimJob j) true ∈ σ.log → HasRow σ j
  entries : ∀ i en j, σ.world.streams.find? i = some en → en.fields = some j → HasRow σ j
  scores : ∀ j, σ.world.delayed.score? j ≠ none → HasRow σ j
  due : ∀ pid hi n ids, .act pid (.zrangebyscore hi n) ids ∈ σ.log → ∀ j ∈ ids, HasRow σ j
  info : ∀ pid ids info, .act pid (.getPromotionInfo ids) info ∈ σ.log →
    (∀ j ∈ ids, ∃ p, (j, p) ∈ info) ∧ ∀ j p, (j, p) ∈ info → HasRow σ j

theorem Rowed.of_shown {pid : Nat} {o : Op} {r : o.Res} {job : Job} (h : Rowed σ)
    (hev : .act pid o r ∈ σ.log) (hs : job ∈ shows o r) : HasRow σ job.id := by
  obtain ⟨row, hj, -⟩ := h.seen pid o r hev job hs
  exact ⟨row, hj⟩

theorem Rowed.of_known {pid : Nat} (h : Rowed σ) (hk : Known (own pid σ.log) j) : HasRow σ j := by
  rcases hk with ⟨job, hj⟩ | ⟨t, n, rows, hr, job, hmem, rfl⟩ | ⟨ids, info, hi, p, hp⟩
  · have hev := mem_own.1 hj
    have hid : job.id = j := (h.valid _ _ _ hev job rfl).1
    exact hid ▸ h.of_shown hev List.mem_cons_self
  · exact h.of_shown (mem_own.1 hr) hmem
  · exact (h.info _ _ _ (mem_own.1 hi)).2 j p hp

theorem Rowed.of_handsOff {pid : Nat} {o : Op} {r : o.Res} (h : Rowed σ)
    (ht : Told app σ (.act pid o r)) (ho : o.handsOff = some j) : HasRow σ j := by
  obtain ⟨-, p, -, hi⟩ := ht
  have hcreated : Created (own pid σ.log) j → HasRow σ j := by
    rintro ⟨n, rfl, hn⟩
    obtain ⟨row, hj, -⟩ := h.seen.created (mem_own.1 hn)
    exact ⟨row, hj⟩
  have howned : ∀ user, Owned user j (own pid σ.log) → HasRow σ j := by
    rintro user ⟨job, hj⟩
    have hev := mem_own.1 hj
    have hid : job.id = j := (h.valid _ _ _ hev job rfl).1
    exact hid ▸ h.of_shown hev List.mem_cons_self
  have hholding : ∀ {m x g}, own pid σ.log = x :: g → Holding m g j → HasRow σ j := by
    intro m x g ho hh
    refine h.claimed pid j (mem_own.1 ?_)
    rw [ho]
    exact List.mem_cons_of_mem _ hh.2.1
  cases o <;> simp only [Op.handsOff, Option.some.injEq, reduceCtorEq] at ho <;> subst ho
  all_goals
    cases p with
    | submitJob user newId sub => exact hcreated hi.2.1
    | retryJob user id =>
      first
      | exact howned user (hi.1 ▸ hi.2.1)
      | exact absurd hi (by simp [issues, retryJobIssues])
    | runOne c m =>
      obtain ⟨g, hg, hh⟩ := hi
      exact hholding hg hh
    | ticker fuel => exact h.of_known hi
    | promoteDue => exact h.of_known hi.1
    | _ => exact absurd hi (by simp [issues, readIssues, cancelIssues, listIssues, loopIssues])

theorem Rowed.info_move {pid : Nat} {ids : List Uuid} {info : List (Uuid × JobPriority)}
    (h : Rowed σ) (hm : Move (system app) σ (.act pid (.getPromotionInfo ids) info) σ')
    (ht : Told app σ (.act pid (.getPromotionInfo ids) info)) :
    (∀ j ∈ ids, ∃ p, (j, p) ∈ info) ∧ ∀ j p, (j, p) ∈ info → HasRow σ j := by
  obtain ⟨e, he⟩ := move_exec hm
  simp only [exec, Option.some.injEq, Prod.mk.injEq] at he
  obtain ⟨-, rfl⟩ := he
  constructor
  · intro j hj
    obtain ⟨-, p, -, hi⟩ := ht
    have hdue : ∃ hi n, (⟨.zrangebyscore hi n, ids⟩ : Reply Op Op.Res) ∈ own pid σ.log := by
      cases p with
      | ticker fuel => exact hi
      | promoteDue => exact hi.1
      | _ => exact absurd hi (by simp [issues, submitIssues, readIssues, retryJobIssues,
          cancelIssues, listIssues, loopIssues, taskIssues])
    obtain ⟨hi, n, hmem⟩ := hdue
    obtain ⟨row, hrow⟩ := h.due pid hi n ids (mem_own.1 hmem) j hj
    have hid : row.id = j := Table.find?_key hrow
    refine ⟨row.priority, List.mem_map.2 ⟨row, ?_, by rw [hid]⟩⟩
    exact List.mem_filter.2 ⟨Table.find?_mem hrow, by rw [hid]; simpa using hj⟩
  · intro j p hp
    obtain ⟨row, hrow, he⟩ := List.mem_map.1 hp
    cases he
    exact ⟨row, Table.find?_of_mem (List.mem_filter.1 hrow).1⟩

theorem Rowed.move (h : Rowed σ) (hm : Move (system app) σ ev σ') (ht : Told app σ ev) :
    Rowed σ' where
  seen := h.seen.move hm
  valid pid o r hev := by
    rw [move_log hm] at hev
    rcases List.mem_cons.1 hev with rfl | hev
    · obtain ⟨e, he⟩ := move_exec hm
      exact exec_valid he
    · exact h.valid pid o r hev
  claimed pid j hev := by
    rw [move_log hm] at hev
    rcases List.mem_cons.1 hev with rfl | hev
    · obtain ⟨row, hj, -⟩ := claim_won hm (j := j) (by simp [wins, Op.claims, won])
      exact HasRow.move ⟨row, hj⟩ hm
    · exact (h.claimed pid j hev).move hm
  entries i en j hf hj := by
    cases hf₀ : σ.world.streams.find? i with
    | some en₀ =>
      obtain ⟨st, hf', -⟩ := move_entry hm hf₀
      rw [hf, Option.some.injEq] at hf'
      subst hf'
      exact (h.entries i en₀ j hf₀ hj).move hm
    | none =>
      rcases move_entry_none hm hf₀ with hn | ⟨pid, s, id, u, rfl, hnew⟩
      · rw [hn] at hf
        cases hf
      · rw [hf, Option.some.injEq] at hnew
        subst hnew
        exact (h.of_handsOff ht hj).move hm
  scores j hs := by
    cases ev with
    | act pid o r =>
      obtain ⟨e, he⟩ := move_exec hm
      rw [exec_score he j] at hs
      cases o with
      | zadd id s =>
        by_cases hij : j = id
        · exact (h.of_handsOff ht (congrArg some hij.symm)).move hm
        · simp only [if_neg hij] at hs
          exact (h.scores j hs).move hm
      | zrem ids =>
        by_cases hmem : j ∈ ids
        · simp [if_pos hmem] at hs
        · simp only [if_neg hmem] at hs
          exact (h.scores j hs).move hm
      | _ => exact (h.scores j hs).move hm
    | _ =>
      cases hm
      exact h.scores j hs
  due pid hi n ids hev j hj := by
    rw [move_log hm] at hev
    rcases List.mem_cons.1 hev with rfl | hev
    · obtain ⟨e, he⟩ := move_exec hm
      simp only [exec, Option.some.injEq, Prod.mk.injEq] at he
      obtain ⟨-, rfl⟩ := he
      obtain ⟨s, hs, -⟩ := ZSet.mem_zrangebyscore hj
      refine HasRow.move (h.scores j ?_) hm
      rw [show σ.world.delayed.score? j = some s from hs]
      simp
    · exact (h.due pid hi n ids hev j hj).move hm
  info pid ids info hev := by
    rw [move_log hm] at hev
    have hinfo : (∀ j ∈ ids, ∃ p, (j, p) ∈ info) ∧ ∀ j p, (j, p) ∈ info → HasRow σ j := by
      rcases List.mem_cons.1 hev with rfl | hev
      · exact h.info_move hm ht
      · exact h.info pid ids info hev
    exact ⟨hinfo.1, fun j p hp => (hinfo.2 j p hp).move hm⟩

end Rows

/-! ### Queued jobs and their traces -/

/-- `j` is queued, and was handed to Redis since its flag was last set to `FALSE`. -/
def Waiting (σ : State) (j : Uuid) : Prop :=
  (∃ row, σ.world.jobs.find? j = some row ∧ row.status.claimable = true) ∧
    handedOff j σ.log = true

/-- Entry `i` names `j` and is still to be used: it is undelivered, or pending and not
yet put to `claim_job`. -/
def Trace (σ : State) (i : Nat) (j : Uuid) : Prop :=
  ∃ en, σ.world.streams.find? i = some en ∧ en.fields = some j ∧
    (en.state = .undelivered ∨ en.isPending = true ∧ usedEntry i σ.log = false)

/-- If `j` waits it is in the delayed set, or has a trace other than entry `x`. -/
def Covered (x : Option Nat) (σ : State) (j : Uuid) : Prop :=
  Waiting σ j → σ.world.delayed.score? j ≠ none ∨ ∃ i, some i ≠ x ∧ Trace σ i j

structure Base (σ : State) : Prop where
  tasks : TasksOnly σ
  ticker : OneTicker σ
  procs : TaskProcs σ
  rows : Rowed σ
  usedBy : ∀ q id r i, .act q (.claimJob id) r ∈ σ.log → taskEntry σ.log q = some i →
    usedEntry i σ.log = true
  users : ∀ i, usedEntry i σ.log = true →
    ∃ q id r, .act q (.claimJob id) r ∈ σ.log ∧ taskEntry σ.log q = some i
  cancelled : ∀ pid j, .act pid (.cancelPendingOrScheduled j) true ∈ σ.log →
    ∃ row, σ.world.jobs.find? j = some row ∧ row.status = .cancelled

section Steps

variable {app : App} {σ σ' : State} {ev : Ev} {j : Uuid} {i : Nat}

theorem usedEntry_cons (i : Nat) (ev : Ev) (l : List Ev) :
    usedEntry i (ev :: l) = true ↔ usedEntry i l = true ∨
      ∃ q id r, ev = .act q (.claimJob id) r ∧ taskEntry l q = some i := by
  cases ev with
  | act q o r =>
    cases o with
    | claimJob id =>
      simp only [usedEntry, Bool.or_eq_true, beq_iff_eq]
      constructor
      · rintro (h | h)
        · exact .inr ⟨q, id, r, rfl, h⟩
        · exact .inl h
      · rintro (h | ⟨_, _, _, he, h⟩)
        · exact .inr h
        · cases he
          exact .inl h
    | _ => simp [usedEntry]
  | _ => simp [usedEntry]

theorem taskEntry_acted {q : Nat} {o : Op} {r : o.Res} (ht : Told app σ ev)
    (hev : .act q o r ∈ σ.log) (he : taskEntry (ev :: σ.log) q = some i) :
    taskEntry σ.log q = some i := by
  rcases taskEntry_before he with he' | ⟨c, m, rfl, -⟩
  · exact he'
  · have hown := ht.1.2
    have hmem := mem_own.2 hev
    rw [hown] at hmem
    cases hmem

theorem Base.move (h : Base σ) (hm : Move (system app) σ ev σ') (ht : Told app σ ev) :
    Base σ' where
  tasks := h.tasks.move hm ht
  ticker := h.ticker.move h.tasks hm ht
  procs := h.procs.move hm ht
  rows := h.rows.move hm ht
  usedBy q id r i hev he := by
    rw [move_log hm] at hev he ⊢
    rw [usedEntry_cons]
    rcases List.mem_cons.1 hev with rfl | hev
    · exact .inr ⟨q, id, r, rfl, he⟩
    · exact .inl (h.usedBy q id r i hev (taskEntry_acted ht hev he))
  users i hu := by
    rw [move_log hm] at hu ⊢
    rcases (usedEntry_cons i ev σ.log).1 hu with hu | ⟨q, id, r, rfl, he⟩
    · obtain ⟨q, id, r, hev, he⟩ := h.users i hu
      exact ⟨q, id, r, List.mem_cons_of_mem _ hev, taskEntry_stays ht he⟩
    · exact ⟨q, id, r, List.mem_cons_self, he⟩
  cancelled pid j hev := by
    rw [move_log hm] at hev
    rcases List.mem_cons.1 hev with rfl | hev
    · obtain ⟨row, hf, hg⟩ := move_hit hm rfl rfl
      simp only [Op.guard, Bool.and_eq_true, decide_eq_true_eq] at hg
      refine ⟨_, move_row_some hm hf, ?_⟩
      simp [onRow, Op.onRow, hg]
    · obtain ⟨row, hj, hs⟩ := h.cancelled pid j hev
      exact cancelled_stays hm hj hs

theorem Base.used_delivered (h : Base σ) (hu : usedEntry i σ.log = true)
    {en : Entry (Option Uuid)} (hf : σ.world.streams.find? i = some en) :
    en.state ≠ .undelivered := by
  obtain ⟨q, id, r, -, he⟩ := h.users i hu
  obtain ⟨c, m, hp, rfl⟩ := taskEntry_eq he
  obtain ⟨-, en', hf', -, hst⟩ := h.procs.begun q c m hp
  rw [hf, Option.some.injEq] at hf'
  exact hf' ▸ hst

theorem Trace.unused (h : Base σ) (ht : Trace σ i j) : usedEntry i σ.log = false := by
  obtain ⟨en, hf, -, hst | ⟨-, hu⟩⟩ := ht
  · by_contra hu
    exact h.used_delivered (by simpa using hu) hf hst
  · exact hu

/-- A job that waits now was queued before, and was waiting unless it has just been
handed off. -/
theorem waiting_before (hm : Move (system app) σ ev σ') (hw : Waiting σ' j) :
    (∃ row, σ.world.jobs.find? j = some row ∧ row.status.claimable = true) ∧
      (handsOver j ev = true ∨ Waiting σ j) := by
  obtain ⟨⟨row', hj', hc'⟩, hh⟩ := hw
  rw [move_log hm, handedOff, Bool.and_eq_true, Bool.not_eq_true', Bool.or_eq_true] at hh
  obtain ⟨hno, hh⟩ := hh
  have hbefore : ∃ row, σ.world.jobs.find? j = some row ∧ row.status.claimable = true := by
    rcases move_row hm hj' with ⟨row, hj, rfl⟩ | ⟨pid, n, rfl, hn, -, -⟩
    · refine ⟨row, hj, ?_⟩
      have hid : row.id = j := Table.find?_key hj
      cases ev with
      | act pid o r =>
        -- every other way into the queue sets the flag to `FALSE`
        have hlost : ∀ i, o.unsyncs = some i → i = j → (∀ m, o ≠ .createJob m) →
            o.guard row = true → False := by
          rintro i ho rfl hc hg
          have hwon := (move_won hm hc).2 ⟨i, row, hj, hg⟩
          have := wins_iff.2 ⟨pid, o, r, rfl, ho, hwon⟩
          rw [hno] at this
          cases this
        rcases onRow_claimable _ row o hc' with hc | ⟨rfl, hg⟩ | ⟨hs, rfl | ⟨t, rfl⟩⟩
        · exact hc
        · exact (hlost row.id rfl hid (by simp) hg).elim
        · exact (hlost row.id rfl hid (by simp) (by simp [Op.guard, hs])).elim
        · exact (hlost row.id rfl hid (by simp) (by simp [Op.guard, hs])).elim
      | _ => exact hc'
    · simp [wins, Op.unsyncs, won, hn] at hno
  exact ⟨hbefore, hh.imp_right fun hh => ⟨hbefore, hh⟩⟩

/-- A trace is lost when its entry is used, or acknowledged by the ticker. -/
theorem Trace.move (h : Base σ) (htr : Trace σ i j) (hm : Move (system app) σ ev σ')
    (ht : Told app σ ev) :
    Trace σ' i j ∨ (∃ q id r, ev = .act q (.claimJob id) r ∧ taskEntry σ.log q = some i) ∨
      ∃ t s u, ev = .act t (.xack s i) u ∧ TickerAt σ t := by
  have hunused := htr.unused h
  by_cases huse : usedEntry i (ev :: σ.log) = true
  · rcases (usedEntry_cons i ev σ.log).1 huse with hu | hu
    · rw [hunused] at hu
      cases hu
    · exact .inr (.inl hu)
  have huse' : usedEntry i σ'.log = false := by
    rw [move_log hm]
    simpa using huse
  obtain ⟨en, hf, hj, hst⟩ := htr
  obtain ⟨st, hf', hre⟩ := move_entry hm hf
  cases hre with
  | kept => exact .inl ⟨_, hf', hj, hst.imp_right fun hp => ⟨hp.1, huse'⟩⟩
  | delivered => exact .inl ⟨_, hf', hj, .inr ⟨rfl, huse'⟩⟩
  | reclaimed => exact .inl ⟨_, hf', hj, .inr ⟨rfl, huse'⟩⟩
  | acked pid _ u hp =>
    obtain ⟨hl, p, hproc, hi⟩ := ht
    have hid : en.id = i := Streams.find?_id hf
    by_cases hk : p.isTicker = true
    · exact .inr (.inr ⟨pid, en.stream, u, by rw [hid], hl, p, hproc, hk⟩)
    · cases p with
      | runOne c m =>
        -- a task acknowledges its message only after `claim_job`
        obtain ⟨-, he, hack⟩ := hi
        obtain ⟨-, en', hf₂, hen', -⟩ := h.procs.begun pid c m hproc
        rw [← he, hid, hf, Option.some.injEq] at hf₂
        subst hf₂
        have hjob : m.jobId = some j := by
          rw [← hen']
          exact hj
        have hclaim : ∃ r, .act pid (.claimJob j) r ∈ σ.log := by
          rcases hack j hjob with hc | ⟨hc, -⟩
          · exact ⟨false, mem_own.1 hc⟩
          · exact ⟨true, mem_own.1 hc⟩
        obtain ⟨r, hev⟩ := hclaim
        have hused := h.usedBy pid j r i hev (by rw [taskEntry_of_proc hproc, ← he, hid])
        rw [hunused] at hused
        cases hused
      | ticker fuel => exact absurd rfl hk
      | promoteDue => exact absurd rfl hk
      | _ => exact absurd hi (by simp [issues, submitIssues, readIssues, retryJobIssues,
          cancelIssues, listIssues, loopIssues])

theorem not_queued_of_claim {q : Nat} {r : Bool} {row row' : Job}
    (hm : Move (system app) σ (.act q (.claimJob j) r) σ')
    (hj : σ.world.jobs.find? j = some row) (hc : row.status.claimable = true)
    (hj' : σ'.world.jobs.find? j = some row') : row'.status.claimable = false := by
  have hrow := move_row_some hm hj
  rw [hj', Option.some.injEq] at hrow
  have hid : row.id = j := Table.find?_key hj
  rw [hrow, onRow, Op.onRow, if_pos ⟨hid, hc⟩]
  rfl

/-- While a job waits, only the ticker takes its traces away. -/
theorem Trace.kept (h : Base σ) (htr : Trace σ i j) (hm : Move (system app) σ ev σ')
    (ht : Told app σ ev) (hw : Waiting σ' j) :
    Trace σ' i j ∨ ∃ t s u, ev = .act t (.xack s i) u ∧ TickerAt σ t := by
  rcases htr.move h hm ht with htr' | ⟨q, id, r, rfl, he⟩ | hack
  · exact .inl htr'
  · obtain ⟨⟨row, hj, hc⟩, -⟩ := waiting_before hm hw
    obtain ⟨⟨row', hj', hc'⟩, -⟩ := hw
    obtain ⟨c, m, hp, rfl⟩ := taskEntry_eq he
    -- the claim is for the job the entry names
    obtain ⟨en, hf, hfields, -⟩ := htr
    obtain ⟨-, en', hf', hen, -⟩ := h.procs.begun q c m hp
    rw [hf, Option.some.injEq] at hf'
    subst hf'
    obtain ⟨-, p, hp', hi⟩ := ht
    rw [hp, Option.some.injEq] at hp'
    subst hp'
    have hid : some j = some id := by
      rw [← hfields, ← hi.1, ← hen]
      rfl
    rw [Option.some.injEq] at hid
    subst hid
    rw [not_queued_of_claim hm hj hc hj'] at hc'
    cases hc'
  · exact .inr hack

theorem issues_zrem {app : App} {p : Proc} {h : Hist} {ids : List Uuid}
    (hi : issues app p h (.zrem ids)) :
    p.isTicker = true ∨
      ∃ id, ids = [id] ∧ (⟨.cancelPendingOrScheduled id, true⟩ : Reply Op Op.Res) ∈ h := by
  cases p with
  | cancelJobRoute user id =>
    obtain ⟨rfl, -, hg⟩ := hi
    exact .inr ⟨id, rfl, hg⟩
  | ticker fuel => exact .inl rfl
  | promoteDue => exact .inl rfl
  | _ => exact absurd hi (by simp [issues, submitIssues, readIssues, retryJobIssues, listIssues,
      loopIssues, taskIssues])

theorem score_kept (h : Base σ) (hs : σ.world.delayed.score? j ≠ none)
    (hm : Move (system app) σ ev σ') (ht : Told app σ ev) (hw : Waiting σ' j) :
    σ'.world.delayed.score? j ≠ none ∨
      ∃ t ids u, ev = .act t (.zrem ids) u ∧ j ∈ ids ∧ TickerAt σ t := by
  cases ev with
  | act pid o r =>
    obtain ⟨e, he⟩ := move_exec hm
    rw [exec_score he j]
    cases o with
    | zadd id s =>
      left
      by_cases hij : j = id
      · simp [hij]
      · simpa [hij] using hs
    | zrem ids =>
      by_cases hj : j ∈ ids
      · obtain ⟨hl, p, hp, hi⟩ := ht
        rcases issues_zrem hi with hk | ⟨id, rfl, hg⟩
        · exact .inr ⟨pid, ids, r, rfl, hj, hl, p, hp, hk⟩
        · -- a cancelled job does not wait
          rw [List.mem_singleton] at hj
          subst hj
          have hev : .act pid (.cancelPendingOrScheduled j) true ∈ σ.log := mem_own.1 hg
          obtain ⟨row, hj, hst⟩ := h.cancelled pid j hev
          obtain ⟨⟨row', hj', hc⟩, -⟩ := waiting_before hm hw
          rw [hj, Option.some.injEq] at hj'
          rw [← hj', hst] at hc
          cases hc
      · left
        simpa [hj] using hs
    | _ => exact .inl hs
  | _ =>
    cases hm
    exact .inl hs

theorem trace_of_xadd {pid : Nat} {s : String} {u : Unit}
    (hm : Move (system app) σ (.act pid (.xadd s j) u) σ') :
    ∃ i, σ.world.streams.find? i = none ∧ Trace σ' i j := by
  obtain ⟨e, he⟩ := move_exec hm
  simp only [exec, Option.some.injEq, Prod.mk.injEq] at he
  refine ⟨σ.world.streams.next, ?_, ⟨σ.world.streams.next, s, some j, .undelivered⟩, ?_, rfl,
    .inl rfl⟩
  · cases hf : σ.world.streams.find? σ.world.streams.next with
    | none => rfl
    | some en => exact absurd (Streams.find?_lt hf) (Nat.lt_irrefl _)
  · rw [← he.1]
    exact (Streams.find?_xadd s (some j)).trans (if_pos rfl)

theorem trace_of_handsOver (hm : Move (system app) σ ev σ') (hh : handsOver j ev = true) :
    σ'.world.delayed.score? j ≠ none ∨
      ∃ i, σ.world.streams.find? i = none ∧ Trace σ' i j := by
  cases ev with
  | act pid o r =>
    simp only [handsOver, beq_iff_eq] at hh
    cases o <;> simp only [Op.handsOff, Option.some.injEq, reduceCtorEq] at hh <;> subst hh
    · exact .inr (trace_of_xadd hm)
    · left
      obtain ⟨e, he⟩ := move_exec hm
      rw [exec_score he]
      simp
  | _ => cases hh

/-- Coverage is kept by every event but an acknowledgement or a `ZREM` of the ticker. -/
theorem Covered.move {x : Option Nat} (h : Base σ) (hcov : Covered x σ j)
    (hx : ∀ e, x = some e → σ.world.streams.find? e ≠ none) (hm : Move (system app) σ ev σ')
    (ht : Told app σ ev)
    (hno : ∀ t o r, ev = .act t o r → TickerAt σ t →
      (∀ s i, o ≠ .xack s i) ∧ ∀ ids, o ≠ .zrem ids) : Covered x σ' j := by
  intro hw
  rcases (waiting_before hm hw).2 with hh | hw₀
  · rcases trace_of_handsOver hm hh with hs | ⟨i, hi, htr⟩
    · exact .inl hs
    · exact .inr ⟨i, fun he => hx i he.symm hi, htr⟩
  · rcases hcov hw₀ with hs | ⟨i, hi, htr⟩
    · rcases score_kept h hs hm ht hw with hs' | ⟨t, ids, u, rfl, -, hat⟩
      · exact .inl hs'
      · exact absurd rfl ((hno t _ u rfl hat).2 ids)
    · rcases htr.kept h hm ht hw with htr' | ⟨t, s, u, rfl, hat⟩
      · exact .inr ⟨i, hi, htr'⟩
      · exact absurd rfl ((hno t _ u rfl hat).1 s i)

end Steps

theorem base_init : Base ⟨World.init, []⟩ where
  tasks _ _ _ h := (nomatch h)
  ticker _ _ h := (nomatch h.1)
  procs := {
    one := {
      read := fun _ _ _ _ _ h => (nomatch h)
      tasked := fun _ h => (nomatch h)
      waiting := fun _ _ _ _ _ _ h => (nomatch h)
      apart := fun _ _ _ _ _ _ _ _ _ _ _ _ _ h => (nomatch h)
      once := List.nodup_nil }
    created := fun _ _ _ _ h => (nomatch h)
    begun := fun _ _ _ h => (nomatch h)
    once := fun _ _ _ h => (nomatch h) }
  rows := {
    seen := fun _ _ _ h => (nomatch h)
    valid := fun _ _ _ h => (nomatch h)
    claimed := fun _ _ h => (nomatch h)
    entries := fun _ _ _ h => (nomatch h)
    scores := fun _ h => absurd rfl h
    due := fun _ _ _ _ h => (nomatch h)
    info := fun _ _ _ h => (nomatch h) }
  usedBy _ _ _ _ h := (nomatch h)
  users _ h := (nomatch h)
  cancelled _ _ h := (nomatch h)

theorem base {app : App} {ok : State → Ev → Prop} {c : Cfg} (hr : Run (system app) ok c) :
    Base c.shared :=
  run_inv base_init (fun _ _ _ hI hm _ ht => hI.move hm ht) hr

end JobProcessor
