import JobProcessor.Proofs.Settling
import JobProcessor.Store.PendingList

/-! A pass of the reaper with nothing in between and the clock standing still. The
first stale entry of a job decides; later ones find it settled. -/

namespace JobProcessor

open Interleave Prog Store

/-- A job a stale entry makes the reaper hand off: it is processing with an attempt
left, or its handoff was never finished. -/
def Job.stranded (row : Job) : Prop :=
  row.status = .processing ∧ (row.attempts : Int) + 1 < row.maxAttempts ∨
    row.status.claimable = true ∧ row.isSyncedToRedis = false

/-- What a stale entry of its job does to `row`, with the handoffs `hs`. -/
structure ReapedRow (settings : Settings) (row row' : Job) (hs : List Op) : Prop where
  fixed : row'.fixed = row.fixed
  attempts : row'.attempts = row.attempts + if row.status = .processing then 1 else 0
  retried : row.status = .processing → row'.status = retriedStatus settings row ∧
    (row'.status.claimable = true → row'.isSyncedToRedis = true)
  kept : row.status ≠ .processing →
    row' = { row with isSyncedToRedis := row.isSyncedToRedis || row.status.claimable }
  handed : row.stranded → hs = [requeue settings row']
  silent : ¬ row.stranded → hs = []

def Job.calm (row : Job) : Prop :=
  row.status ≠ .processing ∧ (row.status.claimable = true → row.isSyncedToRedis = true)

theorem Job.calm.synced {row : Job} (h : row.calm) :
    { row with isSyncedToRedis := row.isSyncedToRedis || row.status.claimable } = row := by
  have hs : (row.isSyncedToRedis || row.status.claimable) = row.isSyncedToRedis := by
    cases hc : row.status.claimable with
    | false => simp
    | true => simp [h.2 hc]
  rw [hs]

theorem Job.calm.not_stranded {row : Job} (h : row.calm) : ¬ row.stranded := by
  rintro (⟨hp, -⟩ | ⟨hc, hf⟩)
  · exact h.1 hp
  · rw [h.2 hc] at hf
    cases hf

theorem Job.calm.reaped {row : Job} (h : row.calm) (settings : Settings) :
    ReapedRow settings row row [] where
  fixed := rfl
  attempts := by rw [if_neg h.1, Nat.add_zero]
  retried hp := absurd hp h.1
  kept _ := h.synced.symm
  handed hs := absurd hs h.not_stranded
  silent _ := rfl

section Rows

variable {settings : Settings} {row row' row'' : Job} {hs hs' : List Op}

theorem ReapedRow.calm (h : ReapedRow settings row row' hs) : row'.calm := by
  by_cases hp : row.status = .processing
  · obtain ⟨hs, hsync⟩ := h.retried hp
    exact ⟨hs ▸ retriedStatus_ne_processing settings row, hsync⟩
  · rw [h.kept hp]
    refine ⟨hp, fun hc => ?_⟩
    change row.status.claimable = true at hc
    simp [hc]

theorem ReapedRow.again (h : ReapedRow settings row row' hs)
    (h' : ReapedRow settings row' row'' hs') : row'' = row' ∧ hs' = [] :=
  ⟨(h'.kept h.calm.1).trans h.calm.synced, h'.silent h.calm.not_stranded⟩

end Rows

/-- Message `m` was reaped: it is acknowledged, and its job is all that changed. -/
structure Reaped (settings : Settings) (m : Message) (w : World) (h : Hist) (w' : World)
    (g : Hist) : Prop where
  streams : ∃ b, (b = w.streams ∨ ∃ s id, b = w.streams.xadd s (some id)) ∧
    w'.streams = b.xack m.stream m.messageId
  kept : ∀ i, m.jobId ≠ some i ∨ w.jobs.find? i = none →
    w'.jobs.find? i = w.jobs.find? i ∧ handoffs i g = handoffs i h
  found : ∀ j row, m.jobId = some j → w.jobs.find? j = some row →
    ∃ row' hs, w'.jobs.find? j = some row' ∧ handoffs j g = hs ++ handoffs j h ∧
      ReapedRow settings row row' hs

theorem mem_handoff {settings : Settings} {row : Job} {o : Op} (h : o ∈ handoff settings row) :
    o.handsOff = some row.id := by
  unfold handoff at h
  split at h
  · rw [List.mem_singleton.1 h]
    rfl
  · rw [List.mem_singleton.1 h]
    rfl
  · cases h

section One

variable {n : Nat} {app : App} {w w' : World} {h : Hist} {m : Message} {row : Job} {j : Uuid}

theorem reaped_calm {g : Hist} (settings : Settings)
    (hst : w'.streams = w.streams.xack m.stream m.messageId) (hjobs : w'.jobs = w.jobs)
    (hg : ∀ i, handoffs i g = handoffs i h)
    (hcalm : ∀ j row, m.jobId = some j → w.jobs.find? j = some row → row.calm) :
    Reaped settings m w h w' g where
  streams := ⟨w.streams, .inl rfl, hst⟩
  kept i _ := ⟨by rw [hjobs], hg i⟩
  found j row hj hf :=
    ⟨row, [], by rw [hjobs, hf], hg j, (hcalm j row hj hf).reaped settings⟩

theorem reaped_row {g : Hist} {settings : Settings} {row' : Job} {hs : List Op}
    (hm : m.jobId = some j) (hf : w.jobs.find? j = some row)
    (hst : ∃ b, (b = w.streams ∨ ∃ s id, b = w.streams.xadd s (some id)) ∧
      w'.streams = b.xack m.stream m.messageId)
    (hothers : ∀ i, i ≠ j → w'.jobs.find? i = w.jobs.find? i) (hf' : w'.jobs.find? j = some row')
    (hg : ∀ i, handoffs i g = (if i = j then hs else []) ++ handoffs i h)
    (hr : ReapedRow settings row row' hs) : Reaped settings m w h w' g where
  streams := hst
  kept i hi := by
    have hne : i ≠ j := by
      rintro rfl
      rcases hi with hi | hi
      · exact hi hm
      · rw [hf] at hi
        cases hi
    refine ⟨hothers i hne, ?_⟩
    rw [hg, if_neg hne, List.nil_append]
  found i row₁ hi hf₁ := by
    rw [hm, Option.some.injEq] at hi
    subst hi
    rw [hf, Option.some.injEq] at hf₁
    subst hf₁
    exact ⟨row', hs, hf', by rw [hg, if_pos rfl], hr⟩

theorem handoffs_closed {settings : Settings} {status : JobStatus} {row' : Job} {g : Hist}
    (hc : Closed settings w (commands h) row status row' w' g) (i : Uuid) :
    handoffs i g = (if i = row.id then handoff settings row' else []) ++ handoffs i h := by
  have hid : row'.id = row.id := Table.find?_key hc.found
  unfold handoffs
  rw [hc.issued, List.filter_append]
  congr 1
  split
  · rename_i hi
    rw [List.filter_eq_self]
    intro o ho
    simp [mem_handoff ho, hid, hi]
  · rename_i hi
    rw [List.filter_eq_nil_iff]
    intro o ho
    simp only [mem_handoff ho, hid, Option.some.injEq, decide_eq_true_eq]
    exact fun h => hi h.symm

theorem reapedRow_closed {settings : Settings} {row' : Job} {g : Hist}
    (hp : row.status = .processing) (ha : row'.attempts = row.attempts + 1)
    (hc : Closed settings w (commands h) row (retriedStatus settings row) row' w' g) :
    ReapedRow settings row row' (handoff settings row') where
  fixed := hc.fixed
  attempts := by rw [ha, if_pos hp]
  retried _ := ⟨hc.reached, fun h => hc.synced (hc.reached ▸ h)⟩
  kept h := absurd hp h
  handed hs := by
    have hleft : ¬ row.maxAttempts ≤ (row.attempts : Int) + 1 := by
      rcases hs with ⟨-, hlt⟩ | ⟨hcl, -⟩
      · omega
      · rw [hp] at hcl
        cases hcl
    have hr := hc.reached
    rw [retriedStatus, if_neg hleft] at hr
    by_cases hd : (backoffDelay (row.attempts + 1) settings.retryBackoffSchedule).getD 0 ≤ 0
    · rw [if_pos hd] at hr
      simp [handoff, requeue, hr]
    · obtain ⟨t, ht, -⟩ := hc.scheduled (by rw [retriedStatus, if_neg hleft, if_neg hd])
      rw [if_neg hd] at hr
      simp [handoff, requeue, hr, ht]
  silent hs := by
    have hmax : row.maxAttempts ≤ (row.attempts : Int) + 1 := by
      by_contra hlt
      exact hs (.inl ⟨hp, by omega⟩)
    have hr := hc.reached
    rw [retriedStatus, if_pos hmax] at hr
    simp [handoff, hr]

theorem Reaped.read {settings : Settings} {w₁ : World} {g : Hist} {x : Reply Op Op.Res}
    (hr : Reaped settings m w₁ (x :: h) w' g) (hx : x.1.handsOff = none)
    (hjobs : w₁.jobs = w.jobs) (hst : w₁.streams = w.streams) : Reaped settings m w h w' g where
  streams := hst ▸ hr.streams
  kept i hi := by
    rw [← hjobs] at hi ⊢
    exact handoffs_cons (h := h) hx ▸ hr.kept i hi
  found i row hi hf := by
    rw [← hjobs] at hf
    exact handoffs_cons (h := h) hx ▸ hr.found i row hi hf

theorem ack_ends (settings : Settings) (E : Env → Prop)
    (hcalm : ∀ j row, m.jobId = some j → w.jobs.find? j = some row → row.calm) :
    Ends (exec n) E (fun w' out g => out = .ok () ∧ Reaped settings m w h w' g)
      (.act (.xack m.stream m.messageId) fun _ => .pure (.ok ()) : Prg (Except Exc Unit)) w h := by
  intro e _
  exact ⟨_, _, rfl, rfl, reaped_calm settings rfl rfl (fun i => handoffs_cons rfl) hcalm⟩

/-- The handoff a worker did not get to. -/
theorem requeue_ends {o : Op} {settings : Settings} (E : Env → Prop) (hm : m.jobId = some row.id)
    (hf : w.jobs.find? row.id = some row) (hc : row.status.claimable = true)
    (hs : row.isSyncedToRedis = false) (ho : requeue settings row = o) :
    Ends (exec n) E (fun w' out g => out = .ok () ∧ Reaped settings m w h w' g)
      (.act o fun _ => .act (.markSynced row.id) fun _ => .act (.xack m.stream m.messageId)
        fun _ => .pure (.ok ()) : Prg (Except Exc Unit)) w h := by
  have hp : row.status ≠ .processing := by
    intro hp
    rw [hp] at hc
    cases hc
  have hmark := Repository.find?_markSynced hf
  have hothers : ∀ i, i ≠ row.id →
      (Repository.markSynced w.jobs row.id).1.find? i = w.jobs.find? i :=
    fun i hi => Repository.find?_markSynced_ne hi
  have hr : ReapedRow settings row { row with isSyncedToRedis := true } [o] := by
    refine ⟨rfl, by rw [if_neg hp, Nat.add_zero], fun h => absurd h hp, ?_, fun _ => ?_, fun h => ?_⟩
    · intro _
      simp [hc]
    · rw [← ho]
      rfl
    · exact absurd (.inr ⟨hc, hs⟩) h
  unfold requeue at ho
  split at ho <;> subst ho
  · intro e _
    refine ⟨_, _, rfl, fun e' _ => ⟨_, _, rfl, fun e'' _ => ⟨_, _, rfl, rfl, ?_⟩⟩⟩
    refine reaped_row hm hf ⟨_, .inl rfl, rfl⟩ hothers hmark (fun i => ?_) hr
    rw [handoffs_cons rfl, handoffs_cons rfl, handoffs_cons_some rfl]
  · intro e _
    refine ⟨_, _, rfl, fun e' _ => ⟨_, _, rfl, fun e'' _ => ⟨_, _, rfl, rfl, ?_⟩⟩⟩
    refine reaped_row hm hf ⟨_, .inr ⟨_, _, rfl⟩, rfl⟩ hothers hmark (fun i => ?_) hr
    rw [handoffs_cons rfl, handoffs_cons rfl, handoffs_cons_some rfl]

theorem reapOne_ends (hm : m.jobId = some j)
    (hT : ∀ row, w.jobs.find? j = some row → row.status = .processing →
      app.settings.plans row w.clock = true) :
    Ends (exec n) (fun e => e.elapsed = 0)
      (fun w' out g => out = .ok () ∧ Reaped app.settings m w h w' g) (reapOne app m j) w h := by
  simp only [reapOne, op_bind, mpure_eq]
  intro e he
  refine ⟨{ w with clock := w.clock + e.elapsed }, w.jobs.find? j, rfl, ?_⟩
  refine (?_ : Ends _ _ (fun w' out g => out = .ok () ∧ Reaped app.settings m
    { w with clock := w.clock + e.elapsed } (⟨.getJob j none, w.jobs.find? j⟩ :: h) w' g) _ _ _).mono
    fun w' out g hr => ⟨hr.1, hr.2.read rfl rfl rfl⟩
  have hone : ∀ i row, m.jobId = some i → w.jobs.find? i = some row → w.jobs.find? j = some row := by
    intro i row hi hf
    rw [hm, Option.some.injEq] at hi
    rw [hi, hf]
  cases hf : w.jobs.find? j with
  | none =>
    apply ack_ends
    intro i row hi hr
    have hr' := hone i row hi hr
    rw [hf] at hr'
    cases hr'
  | some job =>
    obtain rfl : job.id = j := Table.find?_key hf
    have hcalm : job.calm → ∀ i row, m.jobId = some i → w.jobs.find? i = some row → row.calm := by
      intro hjob i row hi hr
      have hr' := hone i row hi hr
      rw [hf, Option.some.injEq] at hr'
      rw [← hr']
      exact hjob
    dsimp only
    split
    · rename_i ht
      apply ack_ends
      refine hcalm ⟨?_, ?_⟩
      · intro hp
        rw [hp] at ht
        cases ht
      · intro hc
        rw [JobStatus.claimable_iff, ht] at hc
        cases hc.2
    · rename_i ht
      split
      · rename_i hp
        have hh : InHand job { w with clock := w.clock + e.elapsed } := ⟨hp, job.progress, hf⟩
        have hnow : app.settings.plans job (w.clock + e.elapsed) = true := by
          rw [he]
          exact (Int.add_zero w.clock).symm ▸ hT job hf hp
        refine (scheduleRetryOrFail_still hnow hh _).bind ?_
        rintro w' out g ⟨delay, rfl, -, row', ha, hc, -⟩
        intro e' _
        refine ⟨_, _, rfl, rfl, reaped_row hm hf ⟨_, ?_, rfl⟩ hc.others hc.found ?_
          (reapedRow_closed hp ha hc)⟩
        · rw [hc.streams]
          split
          · exact .inr ⟨_, _, rfl⟩
          · exact .inl rfl
        · intro i
          rw [handoffs_cons rfl, handoffs_closed hc]
      · rename_i hp
        have hc : job.status.claimable = true :=
          JobStatus.claimable_iff.2 ⟨hp, Bool.eq_false_iff.2 ht⟩
        split
        · rename_i hs
          exact ack_ends _ _ (hcalm ⟨hp, fun _ => hs⟩)
        · rename_i hs
          have hs' : job.isSyncedToRedis = false := by simpa using hs
          split
          · rename_i t hst hat
            exact requeue_ends _ hm hf hc hs' (by simp [requeue, hst, hat])
          · rename_i hno
            refine requeue_ends _ hm hf hc hs' ?_
            unfold requeue
            split
            · rename_i t hst hat
              exact absurd hat (hno t hst)
            · rfl

end One

/-! ### The pass -/

def Settings.stale (settings : Settings) (now : Time) (es : List (Entry (Option Uuid))) :
    List (Entry (Option Uuid)) :=
  es.filter fun e => e.idle (millis now) settings.visibilityMs

/-- A retry that is due for the job of `e`, should it be processing, can be planned now. -/
def Planned (settings : Settings) (w : World) (e : Entry (Option Uuid)) : Prop :=
  ∀ j row, e.fields = some j → w.jobs.find? j = some row → row.status = .processing →
    settings.plans row w.clock = true

/-- The pass that began in `w₀` has reaped the entries `done`, newest first, and claimed
those with the ids `claimed`. -/
structure Swept (settings : Settings) (w₀ : World) (done : List (Entry (Option Uuid)))
    (claimed : List Nat) (w : World) (h : Hist) : Prop where
  clock : w.clock = w₀.clock
  streams : Streams.Taken w₀.streams reaperName (millis w₀.clock) (done.map Entry.id) claimed w.streams
  nodup : (done.map Entry.id).Nodup
  kept : ∀ j, (∀ e ∈ done, e.fields ≠ some j) ∨ w₀.jobs.find? j = none →
    w.jobs.find? j = w₀.jobs.find? j ∧ handoffs j h = []
  reaped : ∀ j row, w₀.jobs.find? j = some row → (∃ e ∈ done, e.fields = some j) →
    ∃ row', w.jobs.find? j = some row' ∧ ReapedRow settings row row' (handoffs j h)

section Pass

variable {n : Nat} {app : App} {settings : Settings} {w₀ w w' : World} {h g : Hist}
  {done : List (Entry (Option Uuid))} {claimed : List Nat} {e : Entry (Option Uuid)}

theorem swept_nil (settings : Settings) (w : World) : Swept settings w [] [] w [] where
  clock := rfl
  streams := Streams.taken_self w.streams reaperName (millis w.clock)
  nodup := List.nodup_nil
  kept _ _ := ⟨rfl, rfl⟩
  reaped _ _ _ he := by
    obtain ⟨e, he, -⟩ := he
    cases he

theorem Swept.step (hs : Swept settings w₀ done claimed w h) (he : e ∈ w₀.streams.entries)
    (hc : e.id ∈ claimed) (hn : e.id ∉ done.map Entry.id)
    (hr : Reaped settings (.ofEntry e) w h w' g) (hclock : w'.clock = w.clock) :
    Swept settings w₀ (e :: done) claimed w' g where
  clock := hclock.trans hs.clock
  streams := by
    obtain ⟨b, hb, hw⟩ := hr.streams
    rw [hw]
    refine Streams.Taken.xack ?_ he hc
    rcases hb with rfl | ⟨s, id, rfl⟩
    · exact hs.streams
    · exact hs.streams.xadd s (some id)
  nodup := List.nodup_cons.2 ⟨hn, hs.nodup⟩
  kept j hj := by
    have hbefore : (∀ e' ∈ done, e'.fields ≠ some j) ∨ w₀.jobs.find? j = none :=
      hj.imp_left fun hj e' he' => hj e' (List.mem_cons_of_mem _ he')
    obtain ⟨hf, hh⟩ := hs.kept j hbefore
    have hnow : (Message.ofEntry e).jobId ≠ some j ∨ w.jobs.find? j = none :=
      hj.imp (fun hj => hj e List.mem_cons_self) fun hj => hf.trans hj
    obtain ⟨hf', hh'⟩ := hr.kept j hnow
    exact ⟨hf'.trans hf, hh'.trans hh⟩
  reaped j row hf hj := by
    by_cases hbefore : ∃ e' ∈ done, e'.fields = some j
    · obtain ⟨row₁, hf₁, hr₁⟩ := hs.reaped j row hf hbefore
      by_cases hnow : e.fields = some j
      · -- a duplicate: the job was reaped before
        obtain ⟨row₂, hs₂, hf₂, hh₂, hr₂⟩ := hr.found j row₁ hnow hf₁
        obtain ⟨rfl, rfl⟩ := hr₁.again hr₂
        rw [List.nil_append] at hh₂
        exact ⟨row₂, hf₂, hh₂ ▸ hr₁⟩
      · obtain ⟨hf', hh'⟩ := hr.kept j (.inl hnow)
        exact ⟨row₁, hf'.trans hf₁, hh' ▸ hr₁⟩
    · have hnow : e.fields = some j := by
        obtain ⟨e', he', hfields⟩ := hj
        rcases List.mem_cons.1 he' with rfl | he'
        · exact hfields
        · exact absurd ⟨e', he', hfields⟩ hbefore
      have hfirst : ∀ e' ∈ done, e'.fields ≠ some j := fun e' he' hfields =>
        hbefore ⟨e', he', hfields⟩
      obtain ⟨hf₀, hh₀⟩ := hs.kept j (.inl hfirst)
      obtain ⟨row', hs', hf', hh', hr'⟩ := hr.found j row hnow (hf₀.trans hf)
      rw [hh₀, List.append_nil] at hh'
      exact ⟨row', hf', hh' ▸ hr'⟩

theorem Swept.planned (hs : Swept settings w₀ done claimed w h) (hp : Planned settings w₀ e) :
    Planned settings w e := by
  intro j row hj hf hproc
  rw [hs.clock]
  cases hf₀ : w₀.jobs.find? j with
  | none =>
    rw [(hs.kept j (.inr hf₀)).1, hf₀] at hf
    cases hf
  | some row₀ =>
    by_cases hbefore : ∃ e' ∈ done, e'.fields = some j
    · obtain ⟨row', hf', hr⟩ := hs.reaped j row₀ hf₀ hbefore
      rw [hf, Option.some.injEq] at hf'
      subst hf'
      exact absurd hproc hr.calm.1
    · have hfirst : ∀ e' ∈ done, e'.fields ≠ some j := fun e' he' hfields =>
        hbefore ⟨e', he', hfields⟩
      rw [(hs.kept j (.inl hfirst)).1] at hf
      exact hp j row hj hf hproc

theorem reapMessages_ends (es : List (Entry (Option Uuid))) (hs : Swept app.settings w₀ done claimed w h)
    (hes : ∀ e ∈ es, e ∈ w₀.streams.entries ∧ e.id ∈ claimed ∧ e.id ∉ done.map Entry.id)
    (hT : ∀ e ∈ es, Planned app.settings w₀ e) (hnodup : (es.map Entry.id).Nodup) :
    Ends (exec n) (fun e => e.elapsed = 0)
      (fun w' out g => out = .ok (done.length + es.length) ∧
        Swept app.settings w₀ (es.reverse ++ done) claimed w' g)
      (reapMessages app (es.map Message.ofEntry) done.length) w h := by
  induction es generalizing done w h with
  | nil => exact ⟨rfl, hs⟩
  | cons e es ih =>
    obtain ⟨he, hc, hn⟩ := hes e List.mem_cons_self
    rw [List.map_cons, List.nodup_cons] at hnodup
    have hrest : ∀ e' ∈ es, e' ∈ w₀.streams.entries ∧ e'.id ∈ claimed ∧
        e'.id ∉ (e :: done).map Entry.id := by
      intro e' he'
      obtain ⟨h1, h2, h3⟩ := hes e' (List.mem_cons_of_mem _ he')
      refine ⟨h1, h2, ?_⟩
      rw [List.map_cons, List.mem_cons]
      rintro (hid | hid)
      · exact hnodup.1 (hid ▸ List.mem_map.2 ⟨e', he', rfl⟩)
      · exact h3 hid
    have hnext : ∀ {w' : World} {g : Hist}, Reaped app.settings (.ofEntry e) w h w' g →
        w'.clock = w.clock → Ends (exec n) (fun e => e.elapsed = 0)
          (fun w'' out g => out = .ok (done.length + (e :: es).length) ∧
            Swept app.settings w₀ ((e :: es).reverse ++ done) claimed w'' g)
          (reapMessages app (es.map Message.ofEntry) (done.length + 1)) w' g := by
      intro w' g hr hclock
      refine (ih (hs.step he hc hn hr hclock) hrest
        (fun e' he' => hT e' (List.mem_cons_of_mem _ he')) hnodup.2).mono ?_
      rintro w'' out g' ⟨rfl, hs'⟩
      refine ⟨?_, ?_⟩
      · rw [List.length_cons, List.length_cons, Nat.add_assoc, Nat.add_comm 1]
      · rwa [List.reverse_cons, List.append_assoc]
    rw [List.map_cons, reapMessages]
    split
    · rename_i hj
      intro env henv
      refine ⟨_, _, rfl, hnext (reaped_calm _ rfl rfl (fun i => handoffs_cons rfl) ?_) ?_⟩
      · intro j row hj'
        rw [hj] at hj'
        cases hj'
      · exact exec_still (n := n) (o := .xack e.stream e.id) henv rfl
    · rename_i j hj
      have hplanned := hs.planned (hT e List.mem_cons_self)
      refine ((reapOne_ends hj fun row => hplanned j row hj).keeps (f := World.clock) ?_).bind ?_
      · intro o env w w' r henv hx
        exact exec_still henv hx
      · rintro w' out g ⟨⟨rfl, hr⟩, hclock⟩
        exact hnext hr hclock

theorem Swept.claim {o : Op} {r : o.Res} {ids : List Nat}
    (hs : Swept settings w₀ done claimed w h) (ho : o.handsOff = none)
    (hids : ∀ i ∈ ids, i ∉ done.map Entry.id ∧ ∃ e ∈ w₀.streams.entries, e.id = i)
    (hclock : w'.clock = w.clock) (hjobs : w'.jobs = w.jobs)
    (hst : w'.streams = w.streams.deliver reaperName (millis w₀.clock) ids) :
    Swept settings w₀ done (ids ++ claimed) w' (⟨o, r⟩ :: h) where
  clock := hclock.trans hs.clock
  streams := hst ▸ hs.streams.deliver hids
  nodup := hs.nodup
  kept j hj := by
    rw [hjobs, handoffs_cons ho]
    exact hs.kept j hj
  reaped j row hf hj := by
    rw [hjobs, handoffs_cons ho]
    exact hs.reaped j row hf hj

/-- One call of `XAUTOCLAIM`: a part of the list from its front is looked at, and what is
stale there is claimed. -/
theorem Swept.page (hs : Swept app.settings w₀ done claimed w h) (hsub : claimed ⊆ done.map Entry.id)
    (hsize : 0 < app.settings.reaperBatchSize) (stream : String) (cursor : Nat) {env : Env}
    (henv : env.elapsed = 0) :
    ∃ pre post w₁, w.streams.pel stream cursor = pre ++ post ∧
      (w.streams.pel stream cursor ≠ [] → pre ≠ []) ∧
      exec n (.xautoclaim stream app.settings.visibilityMs cursor app.settings.reaperBatchSize)
        env w = some (w₁, (post.head?.map Entry.id, (app.settings.stale w₀.clock pre).map .ofEntry)) ∧
      Swept app.settings w₀ done ((app.settings.stale w₀.clock pre).map Entry.id ++ claimed) w₁
        (⟨.xautoclaim stream app.settings.visibilityMs cursor app.settings.reaperBatchSize,
          (post.head?.map Entry.id, (app.settings.stale w₀.clock pre).map .ofEntry)⟩ :: h) ∧
      ∀ e ∈ app.settings.stale w₀.clock pre,
        e ∈ w₀.streams.entries ∧ e.id ∉ done.map Entry.id := by
  obtain ⟨pre, post, hpel, hgot, hcur, hpre⟩ := Streams.scan_split (millis w₀.clock)
    app.settings.visibilityMs (app.settings.reaperBatchSize * 10)
    app.settings.reaperBatchSize (w.streams.pel stream cursor)
  have hmem : ∀ e ∈ app.settings.stale w₀.clock pre,
      e ∈ w₀.streams.entries ∧ e.id ∉ done.map Entry.id := by
    intro e he
    have hin : e ∈ w.streams.pel stream cursor :=
      hpel ▸ List.mem_append_left _ (List.mem_of_mem_filter he)
    rw [hs.streams.pel hsub, List.mem_filter, decide_eq_true_eq] at hin
    exact ⟨(Streams.mem_pel.1 hin.1).1, hin.2⟩
  have hclock : w.clock + (env.elapsed : Int) = w₀.clock := by
    rw [henv, hs.clock]
    exact Int.add_zero _
  let w₁ : World :=
    { w with
      clock := w₀.clock
      streams := w.streams.deliver reaperName (millis w₀.clock)
        ((app.settings.stale w₀.clock pre).map Entry.id) }
  refine ⟨pre, post, w₁, hpel, ?_, ?_, ?_, hmem⟩
  · intro hne
    exact hpre (by omega) hsize hne
  · simp only [exec, hclock, Streams.xautoclaim_eq, hgot, hcur]
    rfl
  · refine hs.claim rfl ?_ hs.clock.symm rfl rfl
    intro i hi
    obtain ⟨e, he, rfl⟩ := List.mem_map.1 hi
    exact ⟨(hmem e he).2, e, (hmem e he).1, rfl⟩

/-- The cursor loop over one stream reaps what is stale in the list it starts with. -/
theorem reapStream_ends (hsize : 0 < app.settings.reaperBatchSize) (stream : String) (fuel : Nat)
    {cursor : Nat}
    (hT : ∀ e ∈ w₀.streams.entries, e.stream = stream →
      e.idle (millis w₀.clock) app.settings.visibilityMs = true → Planned app.settings w₀ e)
    (hs : Swept app.settings w₀ done claimed w h) (hsub : claimed ⊆ done.map Entry.id)
    (hfuel : (w.streams.pel stream cursor).length < fuel) :
    Ends (exec n) (fun e => e.elapsed = 0)
      (fun w' out g => ∃ done' claimed', out = .ok done'.length ∧
        Swept app.settings w₀ done' claimed' w' g ∧ claimed' ⊆ done'.map Entry.id ∧
        ∀ e, e ∈ done' ↔ e ∈ done ∨ e ∈ w.streams.pel stream cursor ∧
          e.idle (millis w₀.clock) app.settings.visibilityMs = true)
      (reapStream app stream fuel cursor done.length) w h := by
  induction fuel generalizing done claimed w h cursor with
  | zero => exact absurd hfuel (Nat.not_lt_zero _)
  | succ fuel ih =>
    rw [reapStream]
    intro env henv
    obtain ⟨pre, post, w₁, hpel, hpre, hx, hs₁, hmem⟩ :=
      hs.page (n := n) hsub hsize stream cursor henv
    have hnodup : ((app.settings.stale w₀.clock pre).map Entry.id).Nodup := by
      have hsorted := w.streams.pel_sorted stream cursor
      rw [hpel, List.pairwise_append] at hsorted
      rw [List.Nodup, List.pairwise_map]
      exact (hsorted.1.filter _).imp fun h => Nat.ne_of_lt h
    refine ⟨w₁, _, hx, ?_⟩
    refine (reapMessages_ends (app.settings.stale w₀.clock pre) hs₁ ?_ ?_ hnodup).bind ?_
    · intro e he
      exact ⟨(hmem e he).1, List.mem_append_left _ (List.mem_map.2 ⟨e, he, rfl⟩), (hmem e he).2⟩
    · intro e he
      have hin : e ∈ w.streams.pel stream cursor :=
        hpel ▸ List.mem_append_left _ (List.mem_of_mem_filter he)
      rw [hs.streams.pel hsub, List.mem_filter] at hin
      exact hT e (hmem e he).1 (Streams.mem_pel.1 hin.1).2.1 (List.mem_filter.1 he).2
    rintro w₂ out g ⟨rfl, hs₂⟩
    have hlen : done.length + (app.settings.stale w₀.clock pre).length =
        ((app.settings.stale w₀.clock pre).reverse ++ done).length := by
      rw [List.length_append, List.length_reverse, Nat.add_comm]
    have hsub₂ : (app.settings.stale w₀.clock pre).map Entry.id ++ claimed ⊆
        ((app.settings.stale w₀.clock pre).reverse ++ done).map Entry.id := by
      rw [List.map_append, List.map_reverse]
      intro i hi
      rcases List.mem_append.1 hi with hi | hi
      · exact List.mem_append_left _ (List.mem_reverse.2 hi)
      · exact List.mem_append_right _ (hsub hi)
    rw [hlen]
    cases post with
    | nil =>
      refine ⟨_, _, rfl, hs₂, hsub₂, ?_⟩
      intro e
      rw [hpel, List.append_nil, List.mem_append, List.mem_reverse, Settings.stale, List.mem_filter,
        or_comm]
    | cons e post =>
      have hresume : w₂.streams.pel stream e.id = e :: post := by
        refine hs.streams.pel_resume hsub hs₂.streams hsub₂ ?_ ?_ hpel
        · rw [List.map_append]
          exact List.subset_append_right _ _
        · intro i hi
          rw [List.map_append, List.map_reverse, List.mem_append, List.mem_reverse] at hi
          rcases hi with hi | hi
          · obtain ⟨e', he', rfl⟩ := List.mem_map.1 hi
            exact .inr ⟨e', List.mem_of_mem_filter he', rfl⟩
          · exact .inl hi
      have hne : pre ≠ [] := hpre (by rw [hpel]; simp)
      have hshort : (w₂.streams.pel stream e.id).length < fuel := by
        have hpos := List.length_pos_iff.2 hne
        rw [hresume]
        rw [hpel, List.length_append] at hfuel
        omega
      refine (ih hs₂ hsub₂ hshort).mono ?_
      rintro w₃ out g' ⟨done', claimed', rfl, hs₃, hsub₃, hmem₃⟩
      refine ⟨done', claimed', rfl, hs₃, hsub₃, ?_⟩
      intro e'
      rw [hmem₃, hresume, hpel]
      simp only [Settings.stale, List.mem_append, List.mem_reverse, List.mem_filter]
      tauto

/-- The loop over the streams; one that is listed twice has nothing stale left the second
time. -/
theorem reapStreams_ends (hsize : 0 < app.settings.reaperBatchSize) {fuel : Nat}
    (hfuel : w₀.streams.entries.length < fuel) (streams visited : List String)
    (hT : ∀ e ∈ w₀.streams.entries, e.stream ∈ streams →
      e.idle (millis w₀.clock) app.settings.visibilityMs = true → Planned app.settings w₀ e)
    (hs : Swept app.settings w₀ done claimed w h) (hsub : claimed ⊆ done.map Entry.id)
    (hdone : ∀ e, e ∈ done ↔ e ∈ w₀.streams.entries ∧ e.stream ∈ visited ∧
      e.idle (millis w₀.clock) app.settings.visibilityMs = true) :
    Ends (exec n) (fun e => e.elapsed = 0)
      (fun w' out g => ∃ done' claimed', out = .ok done'.length ∧
        Swept app.settings w₀ done' claimed' w' g ∧ claimed' ⊆ done'.map Entry.id ∧
        ∀ e, e ∈ done' ↔ e ∈ w₀.streams.entries ∧ e.stream ∈ visited ++ streams ∧
          e.idle (millis w₀.clock) app.settings.visibilityMs = true)
      (reapStreams app fuel streams done.length) w h := by
  induction streams generalizing done claimed w h visited with
  | nil =>
    rw [List.append_nil]
    exact ⟨done, claimed, rfl, hs, hsub, hdone⟩
  | cons s ss ih =>
    have hpel := hs.streams.pel hsub s 0
    have hshort : (w.streams.pel s 0).length < fuel := by
      have h₁ := List.length_filter_le (fun e => decide (e.id ∉ done.map Entry.id))
        (w₀.streams.pel s 0)
      have h₂ : (w₀.streams.pel s 0).length ≤ w₀.streams.entries.length :=
        List.length_filter_le _ _
      rw [hpel]
      omega
    rw [reapStreams]
    refine (reapStream_ends hsize s fuel (fun e he hst => hT e he (hst ▸ List.mem_cons_self)) hs hsub
      hshort).bind ?_
    rintro w' out g ⟨done', claimed', rfl, hs', hsub', hmem⟩
    have hdone' : ∀ e, e ∈ done' ↔ e ∈ w₀.streams.entries ∧ e.stream ∈ visited ++ [s] ∧
        e.idle (millis w₀.clock) app.settings.visibilityMs = true := by
      intro e
      rw [hmem, hpel, List.mem_filter, Streams.mem_pel, hdone, List.mem_append, List.mem_singleton,
        decide_eq_true_eq]
      constructor
      · rintro (⟨he, hv, hi⟩ | ⟨⟨⟨he, hst, -⟩, -⟩, hi⟩)
        · exact ⟨he, .inl hv, hi⟩
        · exact ⟨he, .inr hst, hi⟩
      · rintro ⟨he, hv, hi⟩
        by_cases hin : e.id ∈ done.map Entry.id
        · obtain ⟨e', he', hid⟩ := List.mem_map.1 hin
          have he'' := (hdone e').1 he'
          obtain rfl := List.inj_on_of_nodup_map w₀.streams.nodup_ids he''.1 he hid
          exact .inl he''
        · rcases hv with hv | hv
          · exact .inl ⟨he, hv, hi⟩
          · exact .inr ⟨⟨⟨he, hv, Streams.idle_isPending hi, Nat.zero_le _⟩, hin⟩, hi⟩
    refine (ih (visited ++ [s]) (fun e he hst => hT e he (List.mem_cons_of_mem _ hst)) hs' hsub'
      hdone').mono ?_
    rintro w'' out g' ⟨done'', claimed'', rfl, hs'', hsub'', hmem''⟩
    refine ⟨done'', claimed'', rfl, hs'', hsub'', ?_⟩
    intro e
    rw [hmem'', List.append_assoc, List.singleton_append]

end Pass

/-! ### What a pass has done -/

/-- The entry is on one of the three streams, and by the clock of Redis it has been pending
for `int(visibility_timeout_s * 1000)` milliseconds. -/
def Settings.isStale (settings : Settings) (now : Time) (e : Entry (Option Uuid)) : Bool :=
  e.stream ∈ settings.orderedStreams && e.idle (millis now) settings.visibilityMs

/-- A pass from `w` to `w'` with the replies `g` that returned `handled` is exact: the
stale entries are acknowledged and counted and all others keep their consumer; each job
with a stale entry was reaped once, and no other job was touched. -/
structure PassExact (settings : Settings) (stale : Entry (Option Uuid) → Bool) (w w' : World)
    (handled : Nat) (g : Hist) : Prop where
  counted : handled = w.streams.entries.countP stale
  acked : ∃ new, w'.streams.entries = w.streams.entries.map (fun e =>
      if stale e = true then { e with state := .acked } else e) ++ new ∧
    ∀ e ∈ new, e.state = .undelivered
  reaped : ∀ j row, w.jobs.find? j = some row →
    (∃ e ∈ w.streams.entries, stale e = true ∧ e.fields = some j) →
      ∃ row', w'.jobs.find? j = some row' ∧ ReapedRow settings row row' (handoffs j g)
  untouched : ∀ j, w.jobs.find? j = none ∨
    (∀ e ∈ w.streams.entries, stale e = true → e.fields ≠ some j) →
      w'.jobs.find? j = w.jobs.find? j ∧ handoffs j g = []

theorem Swept.exact {settings : Settings} {stale : Entry (Option Uuid) → Bool} {w w' : World}
    {done : List (Entry (Option Uuid))} {claimed : List Nat} {g : Hist}
    (hs : Swept settings w done claimed w' g) (hsub : claimed ⊆ done.map Entry.id)
    (hdone : ∀ e, e ∈ done ↔ e ∈ w.streams.entries ∧ stale e = true) :
    PassExact settings stale w w' done.length g where
  counted := by
    have hnodup : (w.streams.entries.filter stale).Nodup :=
      (w.streams.nodup_ids.of_map _).filter _
    rw [List.countP_eq_length_filter]
    apply List.Perm.length_eq
    rw [List.perm_ext_iff_of_nodup (hs.nodup.of_map _) hnodup]
    intro e
    rw [hdone, List.mem_filter]
  acked := by
    obtain ⟨new, hb, hun⟩ := hs.streams
    refine ⟨new, ?_, hun⟩
    rw [hb]
    congr 1
    apply List.map_congr_left
    intro e he
    split
    · rename_i hst
      have hin : e.id ∈ done.map Entry.id := List.mem_map.2 ⟨e, (hdone e).2 ⟨he, hst⟩, rfl⟩
      simp [Streams.mark, hin]
    · rename_i hst
      have hout : e.id ∉ done.map Entry.id := by
        intro hin
        obtain ⟨e', he', hid⟩ := List.mem_map.1 hin
        have hst' := (hdone e').1 he'
        obtain rfl := List.inj_on_of_nodup_map w.streams.nodup_ids hst'.1 he hid
        exact hst hst'.2
      have hfree : e.id ∉ claimed := fun hc => hout (hsub hc)
      simp [Streams.mark, hout, hfree]
  reaped j row hf hj := by
    obtain ⟨e, he, hst, hfields⟩ := hj
    exact hs.reaped j row hf ⟨e, (hdone e).2 ⟨he, hst⟩, hfields⟩
  untouched j hj := by
    refine hs.kept j (hj.symm.imp_left fun hj e he => ?_)
    exact hj e ((hdone e).1 he).1 ((hdone e).1 he).2

/-- `reap_stale` with nothing in between and the clock standing still. -/
theorem reaper_exact (app : App) (hsize : 1 ≤ app.settings.reaperBatchSize) (w : World)
    (hplanned : ∀ e ∈ w.streams.entries, app.settings.isStale w.clock e = true →
      Planned app.settings w e)
    (fuel : Nat) (hfuel : w.streams.entries.length < fuel) (env : Nat → Env)
    (henv : ∀ i, (env i).elapsed = 0) :
    ∃ w' handled g,
      (reapStale app fuel).trace (exec app.settings.workerConcurrency) env w [] =
        some (w', .ok handled, g) ∧
      PassExact app.settings (app.settings.isStale w.clock) w w' handled g := by
  have hT : ∀ e ∈ w.streams.entries, e.stream ∈ app.settings.orderedStreams →
      e.idle (millis w.clock) app.settings.visibilityMs = true → Planned app.settings w e := by
    intro e he hs hi
    refine hplanned e he ?_
    rw [Settings.isStale, hi, Bool.and_true, decide_eq_true_eq]
    exact hs
  have hends := reapStreams_ends (n := app.settings.workerConcurrency) hsize hfuel
    app.settings.orderedStreams [] hT (swept_nil app.settings w) (List.nil_subset _) (by simp)
  obtain ⟨w', out, g, ht, done, claimed, rfl, hs, hsub, hmem⟩ := hends.trace env henv
  refine ⟨w', done.length, g, ht, hs.exact hsub ?_⟩
  intro e
  rw [hmem, List.nil_append, Settings.isStale, Bool.and_eq_true, decide_eq_true_eq]

/-- A job whose worker died, with two stale entries on two streams, and a fresh one of
another job. -/
def lostTwice : World :=
  { World.init with
    clock := 100000000
    jobs := ⟨[{ Repository.NewJob.row
      { id := 1, type := .webhook, payload := .null, userId := some 8 } 0 with
        status := .processing }], by decide, by decide⟩
    streams := ⟨[⟨0, "jobs:stream:high", some 1, .pending "a" 0⟩,
      ⟨1, "jobs:stream:normal", some 1, .pending "b" 7⟩,
      ⟨2, "jobs:stream:normal", some 2, .pending "b" 99999⟩], 3, by decide, by decide⟩ }

/-- The duplicates are acknowledged, and the job is charged and queued once. -/
theorem reaper_exact_lostTwice :
    ∃ w' g row', (reapStale defaultApp 4).trace (exec 10) (fun _ => {}) lostTwice [] =
        some (w', .ok 2, g) ∧ w'.jobs.find? 1 = some row' ∧ row'.attempts = 1 ∧
      handoffs 1 g = [requeue defaultApp.settings row'] ∧ handoffs 2 g = [] := by
  obtain ⟨w', handled, g, ht, hp⟩ := reaper_exact defaultApp (by decide) lostTwice
    (fun _ _ _ _ row _ _ _ => Settings.plans_of_schedule (by decide) (by decide) row) 4
    (by decide) (fun _ => {}) fun _ => rfl
  obtain rfl : handled = 2 := hp.counted.trans (by decide)
  obtain ⟨row', hf, hr⟩ := hp.reaped 1 _ rfl ⟨_, List.mem_cons_self, by decide, rfl⟩
  refine ⟨w', g, row', ht, hf, hr.attempts.trans rfl, hr.handed (.inl ⟨rfl, by decide⟩), ?_⟩
  exact (hp.untouched 2 (.inl rfl)).2

/-- The entry is on one of the three streams and has been pending for the visibility timeout
itself. -/
def Settings.isOverdue (settings : Settings) (now : Time) (e : Entry (Option Uuid)) : Bool :=
  e.stream ∈ settings.orderedStreams &&
    match e.state with
    | .pending _ since => settings.visibilityTimeoutS ≤ (millis now - since) * 1000
    | _ => false

/-- A visibility timeout of 64.1 s, which is 64099 ms after the truncation. -/
def truncatedApp : App :=
  { defaultApp with
    settings := { visibilityTimeoutS := 64100000, checkTimeoutInvariant := by decide } }

/-- The job of the first entry was delivered 64099 ms ago. -/
def almostDue : World :=
  { lostTwice with
    clock := 64099000
    streams := ⟨[⟨0, "jobs:stream:high", some 1, .pending "a" 0⟩], 1, by decide, by decide⟩ }

theorem reaper_early_truncated :
    ¬ ∃ w' handled g, (reapStale truncatedApp 2).trace (exec 10) (fun _ => {}) almostDue [] =
        some (w', .ok handled, g) ∧
      PassExact truncatedApp.settings (truncatedApp.settings.isOverdue almostDue.clock) almostDue w'
        handled g := by
  rintro ⟨w', handled, g, ht, hp⟩
  cases ht
  cases hp.counted

end JobProcessor
