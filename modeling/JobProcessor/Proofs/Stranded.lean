import JobProcessor.Proofs.Traces

/-! No accepted job is stranded: a queued job whose flag is set is somewhere in Redis,
and a processing one is in the pending list. The ticker takes traces away, and the
conditions under which it never takes the last one are stated first. -/

namespace JobProcessor

open Interleave Prog Store

/-- Every queued row can be found: its flag is `FALSE`, or its id is in the delayed set,
or a message naming it is undelivered or pending. Every processing row has a pending
message. -/
def NotStranded (w : World) : Prop :=
  ∀ j row, w.jobs.find? j = some row →
    (row.status.claimable = true → row.isSyncedToRedis = false ∨ w.delayed.score? j ≠ none ∨
      ∃ en ∈ w.streams.entries, en.fields = some j ∧
        (en.state = .undelivered ∨ en.isPending = true)) ∧
    (row.status = .processing →
      ∃ en ∈ w.streams.entries, en.fields = some j ∧ en.isPending = true)

/-- When the reaper reads a queued row whose flag is set, the task of the entry at hand
has already run `claim_job`. -/
def readsUsed (σ : State) : Ev → Bool
  | .act pid (.getJob j none) _ =>
    match proc? pid σ.log, (reap (own pid σ.log)).todo with
    | some p, m :: _ => !p.isTicker || usedEntry m.messageId σ.log ||
      !(σ.world.jobs.find? j).any fun row => row.status.claimable && row.isSyncedToRedis
    | _, _ => true
  | _ => true

/-- `claim_job` is not run under an entry that was reclaimed. -/
def claimsLeased (l : List Ev) : Ev → Bool
  | .act pid (.claimJob _) _ => (taskEntry l pid).all fun i => !reclaimed i l
  | _ => true

/-- `j` was put into the delayed set since process `t` put it into a stream. -/
def zaddedSince (t : Nat) (j : Uuid) : List Ev → Bool
  | [] => false
  | .act q (.xadd _ id) _ :: l => !(q == t && id == j) && zaddedSince t j l
  | .act _ (.zadd id _) _ :: l => id == j || zaddedSince t j l
  | _ :: l => zaddedSince t j l

/-- A promotion does not remove an id that was parked again since its `XADD`. -/
def removesPromoted (l : List Ev) : Ev → Bool
  | .act t (.zrem ids) _ => (proc? t l).all fun p =>
    !p.isTicker || ids.all fun j => !zaddedSince t j l
  | _ => true

def keepsTrace (σ : State) (ev : Ev) : Bool :=
  readsUsed σ ev && claimsLeased σ.log ev && removesPromoted σ.log ev && marksFresh σ ev

/-! ### Steps -/

section Steps

variable {app : App} {σ σ' : State} {ev : Ev} {j : Uuid} {i : Nat}

theorem reclaimed_cons (ev : Ev) {l : List Ev} (h : reclaimed i l = true) :
    reclaimed i (ev :: l) = true := by
  cases ev with
  | act q o r => cases o <;> simp [reclaimed, h]
  | _ => exact h

theorem used_cons (ev : Ev) {l : List Ev} (h : usedEntry i l = true) :
    usedEntry i (ev :: l) = true := (usedEntry_cons i ev l).2 (.inl h)

theorem lastClaim_mem {q : Nat} {l : List Ev} (h : lastClaim j l = some q) :
    .act q (.claimJob j) true ∈ l := by
  induction l with
  | nil => cases h
  | cons ev l ih =>
    rw [lastClaim_cons] at h
    split at h
    · rename_i hw
      obtain ⟨pid, o, r, rfl, ho, hr⟩ := wins_iff.1 hw
      cases o <;> simp only [Op.claims, Option.some.injEq, reduceCtorEq] at ho
      subst ho
      change r = true at hr
      subst hr
      obtain rfl : pid = q := by simpa using h
      exact List.mem_cons_self
    · exact List.mem_cons_of_mem _ (ih h)

theorem processing_before {row' : Job} (hm : Move (system app) σ ev σ')
    (hj' : σ'.world.jobs.find? j = some row') (hs' : row'.status = .processing)
    (ht : Told app σ ev) :
    (∃ q, ev = .act q (.claimJob j) true) ∨
      lastClaim j (ev :: σ.log) = lastClaim j σ.log ∧
        ∃ row, σ.world.jobs.find? j = some row ∧ row.status = .processing := by
  by_cases hw : wins Op.claims j ev = true
  · obtain ⟨q, o, r, rfl, ho, hr⟩ := wins_iff.1 hw
    cases o <;> simp only [Op.claims, Option.some.injEq, reduceCtorEq] at ho
    subst ho
    change r = true at hr
    subst hr
    exact .inl ⟨q, rfl⟩
  · refine .inr ⟨by rw [lastClaim_cons, if_neg hw], ?_⟩
    rcases move_row hm hj' with ⟨row, hj, rfl⟩ | ⟨pid, n, rfl, hn, rfl, -⟩
    · refine ⟨row, hj, ?_⟩
      have hid : row.id = j := Table.find?_key hj
      cases ev with
      | act pid o r =>
        by_contra hs
        -- only a claim that finds the row queued writes this status
        have hclaim : o = .claimJob j ∧ row.status.claimable = true := by
          subst hid
          cases o <;> simp only [onRow, Op.onRow] at hs' <;> (try split at hs') <;>
            simp_all
        obtain ⟨rfl, hc⟩ := hclaim
        have hwon := (move_won hm (by simp)).2 ⟨j, row, hj, by simp [Op.guard, hid, hc]⟩
        exact hw (wins_iff.2 ⟨pid, _, r, rfl, rfl, hwon⟩)
      | _ => exact hs'
    · obtain ⟨-, p, -, hi⟩ := ht
      obtain ⟨user, newId, sub, rfl, hnew, -⟩ := issues_createJob hi
      rcases hnew.status with hst | hst <;> rw [show (n.row _).status = n.status from rfl, hst] at hs' <;>
        cases hs'

theorem not_processing_of_settle {pid : Nat} {o : Op} {r : o.Res} {row' : Job}
    (hm : Move (system app) σ (.act pid o r) σ') (ho : o.settles = some j)
    (hj' : σ'.world.jobs.find? j = some row') : row'.status ≠ .processing := by
  rcases move_row hm hj' with ⟨row, hj, rfl⟩ | ⟨_, n, he, -, -, -⟩
  · have hid : row.id = j := Table.find?_key hj
    subst hid
    cases o <;> simp only [Op.settles, Option.some.injEq, reduceCtorEq] at ho <;> subst ho <;>
      simp only [onRow, Op.onRow] <;> split <;> simp_all
  · cases he
    cases ho

theorem TickerAt.step {t : Nat} (ht : Told app σ ev) (hm : Move (system app) σ ev σ')
    (h : TickerAt σ' t) :
    own t σ'.log = [] ∨ TickerAt σ t ∧
      ((own t σ'.log = own t σ.log ∧ ∀ o r, ev ≠ .act t o r) ∨
        ∃ o r, ev = .act t o r ∧ own t σ'.log = ⟨o, r⟩ :: own t σ.log ∧
          tickerIssues (own t σ.log) o) := by
  rcases h.before ht hm with hat | ⟨-, ho⟩
  · refine .inr ⟨hat, ?_⟩
    rw [move_log hm]
    cases ev with
    | act pid o r =>
      by_cases hpid : pid = t
      · subst hpid
        obtain ⟨-, p, hp, hk⟩ := hat
        obtain ⟨-, p', hp', hi⟩ := ht
        rw [hp, Option.some.injEq] at hp'
        subst hp'
        exact .inr ⟨o, r, rfl, by rw [own_act, if_pos rfl], issues_ticker hk hi⟩
      · refine .inl ⟨own_of_pid_ne hpid, fun o' r' he => ?_⟩
        cases he
        exact hpid rfl
    | _ => exact .inl ⟨rfl, by simp⟩
  · exact .inl ho

end Steps

/-! ### The invariant -/

/-- Process `q` has had its claim of `j` refused, or has won a settlement of `j`. -/
def Ended (q : Nat) (j : Uuid) (l : List Ev) : Prop :=
  .act q (.claimJob j) false ∈ l ∨
    ∃ (o : Op) (r : o.Res), .act q o r ∈ l ∧ o.settles = some j ∧ won o r = true

/-- The reaper has seen, or seen to it, that the job `j` of the message at hand does not
need that message. -/
def Reap.Safe (s : Reap) (j : Uuid) : Prop :=
  j ∈ s.handed ∨ ∃ job, s.row = some (some job) ∧
    (job.status.claimable = false ∨ job.isSyncedToRedis = true)

/-- The row of `j` is not processing under a claim made through entry `i`. -/
def Freed (σ : State) (i : Nat) (j : Uuid) : Prop :=
  ∀ row, σ.world.jobs.find? j = some row → row.status = .processing →
    claimEntry j σ.log ≠ some i

structure Kept (σ : State) : Prop where
  base : Base σ
  honest : FlagHonest σ
  covered : ∀ j, Covered none σ j
  inPel : ∀ j row, σ.world.jobs.find? j = some row → row.status = .processing →
    ∃ q i en, lastClaim j σ.log = some q ∧ taskEntry σ.log q = some i ∧
      σ.world.streams.find? i = some en ∧ en.fields = some j ∧ en.isPending = true
  acked : ∀ i en, σ.world.streams.find? i = some en → en.state = .acked → en.fields ≠ none →
    usedEntry i σ.log = true ∨ reclaimed i σ.log = true
  ended : ∀ q j row, Ended q j σ.log → σ.world.jobs.find? j = some row →
    row.status = .processing → lastClaim j σ.log ≠ some q
  taken : ∀ t, TickerAt σ t → ∀ m ∈ (reap (own t σ.log)).todo,
    Taken σ m ∧ reclaimed m.messageId σ.log = true
  found : ∀ t m ms j, TickerAt σ t → (reap (own t σ.log)).todo = m :: ms → m.jobId = some j →
    (reap (own t σ.log)).row ≠ some none
  spare : ∀ t m ms j, TickerAt σ t → (reap (own t σ.log)).todo = m :: ms → m.jobId = some j →
    (reap (own t σ.log)).Safe j →
      usedEntry m.messageId σ.log = true ∨ Covered (some m.messageId) σ j
  freed : ∀ t m ms j job, TickerAt σ t → (reap (own t σ.log)).todo = m :: ms →
    m.jobId = some j → (reap (own t σ.log)).row = some (some job) →
    (job.status ≠ .processing ∨ (reap (own t σ.log)).tried = true) → Freed σ m.messageId j
  promoting : ∀ t ps j, TickerAt σ t → promoted (own t σ.log) = some ps → j ∈ ps →
    Waiting σ j → (∃ i, Trace σ i j) ∨ zaddedSince t j σ.log = true

section Kept

variable {app : App} {σ σ' : State} {ev : Ev} {j : Uuid}

theorem Kept.taken_move (h : Kept σ) (hm : Move (system app) σ ev σ') (ht : Told app σ ev)
    {t : Nat} (hat : TickerAt σ' t) {m : Message} (hmem : m ∈ (reap (own t σ'.log)).todo) :
    Taken σ' m ∧ reclaimed m.messageId σ'.log = true := by
  rcases hat.step ht hm with ho | ⟨hat₀, ⟨ho, -⟩ | ⟨o, r, rfl, ho, -⟩⟩
  · rw [ho] at hmem
    cases hmem
  all_goals
    have hold : m ∈ (reap (own t σ.log)).todo → Taken σ' m ∧ reclaimed m.messageId σ'.log = true := by
      intro hmem
      obtain ⟨htaken, hre⟩ := h.taken t hat₀ m hmem
      rw [move_log hm]
      exact ⟨htaken.move hm, reclaimed_cons _ hre⟩
    rw [ho] at hmem
  · exact hold hmem
  · cases o with
    | xautoclaim s minIdle a n =>
      obtain ⟨en, now, -, hen, -, hf'⟩ := move_reclaim hm hmem
      refine ⟨⟨_, hf', hen, by simp⟩, ?_⟩
      rw [move_log hm, reclaimed, Bool.or_eq_true, List.any_eq_true]
      exact .inl ⟨m, hmem, by simp⟩
    | xack s i => exact hold (List.mem_of_mem_tail hmem)
    | shouldStop => cases hmem
    | _ => exact hold hmem

theorem Kept.read (h : Kept σ) {t : Nat} {id : Uuid} {u : Option Uuid} {r : Option Job}
    (hat : TickerAt σ t) (hm : Move (system app) σ (.act t (.getJob id u) r) σ')
    (hi : tickerIssues (own t σ.log) (.getJob id u)) {m : Message} {ms : List Message}
    (htodo : (reap (own t σ.log)).todo = m :: ms) (hj : m.jobId = some j) :
    id = j ∧ u = none ∧ ∃ job, r = some job ∧ σ.world.jobs.find? j = some job ∧
      σ'.world.jobs.find? j = some job := by
  obtain ⟨rfl, m', ms', htodo', hid⟩ := hi
  rw [htodo, List.cons.injEq] at htodo'
  obtain ⟨rfl, -⟩ := htodo'
  rw [hj, Option.some.injEq] at hid
  subst hid
  obtain ⟨⟨en, hf, hen, -⟩, -⟩ := h.taken t hat m (by rw [htodo]; exact List.mem_cons_self)
  obtain ⟨row, hrow⟩ := h.base.rows.entries m.messageId en j hf (by rw [← hj, ← hen]; rfl)
  obtain ⟨e, he⟩ := move_exec hm
  simp only [exec, Option.some.injEq, Prod.mk.injEq] at he
  have hr : r = some row := he.2.symm.trans hrow
  exact ⟨rfl, rfl, row, hr, hrow, by rw [← he.1]; exact hrow⟩

theorem Kept.found_move (h : Kept σ) (hm : Move (system app) σ ev σ') (ht : Told app σ ev)
    {t : Nat} {m : Message} {ms : List Message} (hat : TickerAt σ' t)
    (htodo : (reap (own t σ'.log)).todo = m :: ms) (hj : m.jobId = some j) :
    (reap (own t σ'.log)).row ≠ some none := by
  rcases hat.step ht hm with ho | ⟨hat₀, ⟨ho, -⟩ | ⟨o, r, rfl, ho, hi⟩⟩ <;> rw [ho] at htodo ⊢
  · cases htodo
  · exact h.found t m ms j hat₀ htodo hj
  · cases o with
    | getJob id u =>
      obtain ⟨-, -, job, rfl, -, -⟩ := h.read hat₀ hm hi htodo hj
      simp [reap, reapStep]
    | xautoclaim s minIdle a n => simp [reap, reapStep]
    | xack s i => simp [reap, reapStep]
    | shouldStop => cases htodo
    | _ => exact h.found t m ms j hat₀ htodo hj

/-- Coverage beside the message at hand is kept while the ticker neither acknowledges
nor promotes. -/
theorem Kept.spare_stays (h : Kept σ) (hm : Move (system app) σ ev σ') (ht : Told app σ ev)
    {t : Nat} {m : Message} {ms : List Message} (hat : TickerAt σ t)
    (htodo : (reap (own t σ.log)).todo = m :: ms) (hj : m.jobId = some j)
    (hsafe : (reap (own t σ.log)).Safe j)
    (hno : ∀ o r, ev = .act t o r → (∀ s i, o ≠ .xack s i) ∧ ∀ ids, o ≠ .zrem ids) :
    usedEntry m.messageId σ'.log = true ∨ Covered (some m.messageId) σ' j := by
  rw [move_log hm]
  rcases h.spare t m ms j hat htodo hj hsafe with hu | hcov
  · exact .inl (used_cons _ hu)
  · refine .inr (hcov.move h.base ?_ hm ht ?_)
    · rintro e he
      obtain ⟨⟨en, hf, -⟩, -⟩ := h.taken t hat m (by rw [htodo]; exact List.mem_cons_self)
      rw [Option.some.injEq] at he
      rw [← he, hf]
      simp
    · rintro t' o r rfl hat'
      obtain rfl := h.base.ticker t t' hat hat'
      exact hno o r rfl

/-- A handoff of the ticker covers the job by itself. -/
theorem Kept.spare_handed {t : Nat} {o : Op} {r : o.Res} {id : Uuid} (h : Kept σ)
    (hm : Move (system app) σ (.act t o r) σ') (ht : Told app σ (.act t o r))
    (hat : TickerAt σ t) (hid : o.handsOff = some id) {m : Message} {ms : List Message}
    (htodo : (reap (own t σ.log)).todo = m :: ms) (hj : m.jobId = some j)
    (hcase : j = id ∨ (reap (own t σ.log)).Safe j) :
    usedEntry m.messageId σ'.log = true ∨ Covered (some m.messageId) σ' j := by
  rcases hcase with rfl | hs
  · right
    intro _
    rcases trace_of_handsOver hm (by simpa [handsOver] using hid) with hs | ⟨i, hi, htr⟩
    · exact .inl hs
    · refine .inr ⟨i, ?_, htr⟩
      rintro he
      obtain ⟨⟨en, hf, -⟩, -⟩ := h.taken t hat m (by rw [htodo]; exact List.mem_cons_self)
      rw [Option.some.injEq] at he
      rw [he, hf] at hi
      cases hi
  · refine h.spare_stays hm ht hat htodo hj hs ?_
    rintro o' r' he
    cases he
    constructor
    · rintro s i rfl
      cases hid
    · rintro ids rfl
      cases hid

theorem Kept.spare_move (h : Kept σ) (hm : Move (system app) σ ev σ') (ht : Told app σ ev)
    (hok : ev.isStart = false → readsUsed σ ev = true)
    {t : Nat} {m : Message} {ms : List Message} (hat : TickerAt σ' t)
    (htodo : (reap (own t σ'.log)).todo = m :: ms) (hj : m.jobId = some j)
    (hsafe : (reap (own t σ'.log)).Safe j) :
    usedEntry m.messageId σ'.log = true ∨ Covered (some m.messageId) σ' j := by
  rcases hat.step ht hm with ho | ⟨hat₀, ⟨ho, hother⟩ | ⟨o, r, rfl, ho, hi⟩⟩ <;>
    rw [ho] at htodo hsafe
  · cases htodo
  · exact h.spare_stays hm ht hat₀ htodo hj hsafe fun o r he => absurd he (hother o r)
  · cases o with
    | getJob id u =>
      obtain ⟨rfl, rfl, job, rfl, hrow, hrow'⟩ := h.read hat₀ hm hi htodo hj
      have hcase : job.status.claimable = false ∨ job.isSyncedToRedis = true := by
        rcases hsafe with hin | ⟨job', hjob', hcase⟩
        · cases hin
        · cases hjob'
          exact hcase
      by_cases hc : job.status.claimable = true
      · left
        have hsync := hcase.resolve_left (by simp [hc])
        obtain ⟨-, p, hp, hk⟩ := hat₀
        have htodo₀ : (reap (own t σ.log)).todo = m :: ms := htodo
        have hused := hok rfl
        simp only [readsUsed, hp, htodo₀, hk, hrow, hc, hsync, Option.any_some, Bool.not_true,
          Bool.and_self, Bool.false_or, Bool.or_false] at hused
        rw [move_log hm]
        exact used_cons _ hused
      · right
        rintro ⟨⟨row, hj', hc'⟩, -⟩
        rw [hrow', Option.some.injEq] at hj'
        exact absurd (hj' ▸ hc') hc
    | xautoclaim s minIdle a n =>
      rcases hsafe with hin | ⟨job, hjob, -⟩
      · cases hin
      · cases hjob
    | xack s i =>
      rcases hsafe with hin | ⟨job, hjob, -⟩
      · cases hin
      · cases hjob
    | shouldStop => cases htodo
    | xadd s id =>
      refine h.spare_handed hm ht hat₀ rfl htodo hj ?_
      rcases hsafe with hin | hrow
      · exact (List.mem_cons.1 hin).imp_right .inl
      · exact .inr (.inr hrow)
    | zadd id s =>
      refine h.spare_handed hm ht hat₀ rfl htodo hj ?_
      rcases hsafe with hin | hrow
      · exact (List.mem_cons.1 hin).imp_right .inl
      · exact .inr (.inr hrow)
    | zrem ids =>
      have hempty : (reap (own t σ.log)).todo = [] := hi.2
      have htodo₀ : (reap (own t σ.log)).todo = m :: ms := htodo
      rw [hempty] at htodo₀
      cases htodo₀
    | _ =>
      refine h.spare_stays hm ht hat₀ htodo hj hsafe ?_
      rintro o' r' he
      cases he
      exact ⟨by simp, by simp⟩

/-- Once a reclaimed entry is not the one of the current claim it never is again. -/
theorem Freed.move {i : Nat} (hfree : Freed σ i j) (hre : reclaimed i σ.log = true)
    (hm : Move (system app) σ ev σ') (ht : Told app σ ev)
    (hok : ev.isStart = false → claimsLeased σ.log ev = true) : Freed σ' i j := by
  intro row' hj' hs' he
  rw [move_log hm] at he
  obtain ⟨q, hq, hte⟩ := Option.bind_eq_some_iff.1 he
  rcases processing_before hm hj' hs' ht with ⟨q', rfl⟩ | ⟨hlast, row, hj, hs⟩
  · obtain rfl : q' = q := by
      have hw : wins Op.claims j (.act q' (.claimJob j) true) = true := by
        simp [wins, Op.claims, won]
      rw [lastClaim_cons, if_pos hw] at hq
      simpa using hq
    have hte' : taskEntry σ.log q' = some i := hte
    have hno := hok rfl
    simp only [claimsLeased, hte', Option.all_some, Bool.not_eq_true'] at hno
    rw [hno] at hre
    cases hre
  · rw [hlast] at hq
    refine hfree row hj hs (Option.bind_eq_some_iff.2 ⟨q, hq, ?_⟩)
    exact taskEntry_acted ht (lastClaim_mem hq) hte

theorem Kept.freed_move (h : Kept σ) (hm : Move (system app) σ ev σ') (ht : Told app σ ev)
    (hok : ev.isStart = false → claimsLeased σ.log ev = true)
    {t : Nat} {m : Message} {ms : List Message} {job : Job} (hat : TickerAt σ' t)
    (htodo : (reap (own t σ'.log)).todo = m :: ms) (hj : m.jobId = some j)
    (hrow : (reap (own t σ'.log)).row = some (some job))
    (hcase : job.status ≠ .processing ∨ (reap (own t σ'.log)).tried = true) :
    Freed σ' m.messageId j := by
  rcases hat.step ht hm with ho | ⟨hat₀, ⟨ho, -⟩ | ⟨o, r, rfl, ho, hi⟩⟩
  · rw [ho] at htodo
    cases htodo
  all_goals
    have hold : (reap (own t σ.log)).todo = m :: ms →
        (reap (own t σ.log)).row = some (some job) →
        (job.status ≠ .processing ∨ (reap (own t σ.log)).tried = true) →
        Freed σ' m.messageId j := by
      intro htodo hrow hcase
      obtain ⟨-, hre⟩ := h.taken t hat₀ m (by rw [htodo]; exact List.mem_cons_self)
      exact (h.freed t m ms j job hat₀ htodo hj hrow hcase).move hre hm ht hok
    rw [ho] at htodo hrow hcase
  · exact hold htodo hrow hcase
  · -- after an attempt to settle the job its row is not processing
    have hsettle : ∀ id, o.settles = some id → (reap (own t σ.log)).todo = m :: ms →
        Reaping (own t σ.log) id → Freed σ' m.messageId j := by
      intro id hid htodo hre row' hj' hs'
      obtain ⟨m', ms', _, htodo', hid', -⟩ := hre
      rw [htodo, List.cons.injEq] at htodo'
      rw [← htodo'.1, hj, Option.some.injEq] at hid'
      exact absurd hs' (not_processing_of_settle hm (hid' ▸ hid) hj')
    cases o with
    | getJob id u =>
      obtain ⟨rfl, rfl, job', rfl, -, hnow⟩ := h.read hat₀ hm hi htodo hj
      obtain rfl : job' = job := by simpa [reap, reapStep] using hrow
      rcases hcase with hne | htried
      · intro row' hj' hs'
        rw [hnow, Option.some.injEq] at hj'
        exact absurd (hj' ▸ hs') hne
      · cases htried
    | xautoclaim s minIdle a n => cases hrow
    | xack s i => cases hrow
    | shouldStop => cases hrow
    | failJob id error => exact hsettle id rfl htodo hi
    | retryToPending id => exact hsettle id rfl htodo hi.1
    | retryToScheduled id s => exact hsettle id rfl htodo hi.1
    | completeJob id result progress => exact hi.elim
    | cancelJob id summary => exact hi.elim
    | _ => exact hold htodo hrow hcase

theorem zaddedSince_cons {t : Nat} (ev : Ev) {l : List Ev} (h : zaddedSince t j l = true)
    (hno : ∀ s u, ev ≠ .act t (.xadd s j) u) : zaddedSince t j (ev :: l) = true := by
  cases ev with
  | act q o r =>
    cases o with
    | xadd s id =>
      have hne : (q == t && id == j) = false := by
        by_contra hc
        simp only [Bool.not_eq_false, Bool.and_eq_true, beq_iff_eq] at hc
        obtain ⟨rfl, rfl⟩ := hc
        exact hno s r rfl
      simp [zaddedSince, hne, h]
    | _ => simp [zaddedSince, h]
  | _ => exact h

theorem Kept.promoting_stays (h : Kept σ) (hm : Move (system app) σ ev σ') (ht : Told app σ ev)
    {t : Nat} {ps : List Uuid} (hat : TickerAt σ t) (hps : promoted (own t σ.log) = some ps)
    (hmem : j ∈ ps) (hw : Waiting σ' j)
    (hno : ∀ o r, ev = .act t o r → (∀ s i, o ≠ .xack s i) ∧ ∀ s, o ≠ .xadd s j) :
    (∃ i, Trace σ' i j) ∨ zaddedSince t j σ'.log = true := by
  rw [move_log hm]
  rcases (waiting_before hm hw).2 with hh | hw₀
  · cases ev with
    | act q o r =>
      simp only [handsOver, beq_iff_eq] at hh
      cases o <;> simp only [Op.handsOff, Option.some.injEq, reduceCtorEq] at hh <;> subst hh
      · obtain ⟨i, -, htr⟩ := trace_of_xadd hm
        exact .inl ⟨i, htr⟩
      · right
        simp [zaddedSince]
    | _ => cases hh
  · rcases h.promoting t ps j hat hps hmem hw₀ with ⟨i, htr⟩ | hz
    · rcases htr.kept h.base hm ht hw with htr' | ⟨t', s, u, rfl, hat'⟩
      · exact .inl ⟨i, htr'⟩
      · obtain rfl := h.base.ticker t t' hat hat'
        exact absurd rfl ((hno _ u rfl).1 s i)
    · refine .inr (zaddedSince_cons ev hz ?_)
      rintro s u rfl
      exact (hno _ u rfl).2 s rfl

theorem Kept.promoting_move (h : Kept σ) (hm : Move (system app) σ ev σ') (ht : Told app σ ev)
    {t : Nat} {ps : List Uuid} (hat : TickerAt σ' t) (hps : promoted (own t σ'.log) = some ps)
    (hmem : j ∈ ps) (hw : Waiting σ' j) :
    (∃ i, Trace σ' i j) ∨ zaddedSince t j σ'.log = true := by
  rcases hat.step ht hm with ho | ⟨hat₀, ⟨ho, hother⟩ | ⟨o, r, rfl, ho, -⟩⟩ <;> rw [ho] at hps
  · cases hps
  · exact h.promoting_stays hm ht hat₀ hps hmem hw fun o r he => absurd he (hother o r)
  · cases o with
    | zrangebyscore hi n =>
      cases hps
      cases hmem
    | getPromotionInfo ids =>
      refine h.promoting_stays hm ht hat₀ hps hmem hw ?_
      rintro o' r' he
      cases he
      exact ⟨by simp, by simp⟩
    | xadd s id =>
      obtain ⟨ps₀, hps₀, rfl⟩ := Option.map_eq_some_iff.1 hps
      by_cases hid : j = id
      · subst hid
        obtain ⟨i, -, htr⟩ := trace_of_xadd hm
        exact .inl ⟨i, htr⟩
      · have hmem₀ := (List.mem_cons.1 hmem).resolve_left hid
        refine h.promoting_stays hm ht hat₀ hps₀ hmem₀ hw ?_
        rintro o' r' he
        cases he
        refine ⟨by simp, fun s' he => hid ?_⟩
        cases he
        rfl
    | _ => cases hps

theorem Kept.entry_of_task (h : Kept σ) {q : Nat} {c : String} {m : Message}
    (hp : proc? q σ.log = some (.runOne c m)) :
    ∃ en, σ.world.streams.find? m.messageId = some en ∧ en.fields = m.jobId ∧
      en.state ≠ .undelivered := by
  obtain ⟨-, en, hf, rfl, hst⟩ := h.base.procs.begun q c m hp
  exact ⟨en, hf, rfl, hst⟩

theorem Kept.inPel_claim (h : Kept σ) {q : Nat}
    (hm : Move (system app) σ (.act q (.claimJob j) true) σ')
    (ht : Told app σ (.act q (.claimJob j) true))
    (hok : claimsLeased σ.log (.act q (.claimJob j) true) = true) :
    ∃ i en, taskEntry σ.log q = some i ∧ σ'.world.streams.find? i = some en ∧
      en.fields = some j ∧ en.isPending = true := by
  obtain ⟨-, p, hp, hi⟩ := ht
  obtain ⟨c, m, rfl, hj, hown⟩ : ∃ c m, p = .runOne c m ∧ m.jobId = some j ∧ own q σ.log = [] := by
    cases p with
    | runOne c m => exact ⟨c, m, rfl, hi⟩
    | _ => exact absurd hi (by simp [issues, submitIssues, readIssues, retryJobIssues,
        cancelIssues, listIssues, loopIssues, promoteIssues, tickerIssues])
  obtain ⟨en, hf, hfields, hst⟩ := h.entry_of_task hp
  have hte := taskEntry_of_proc hp
  refine ⟨m.messageId, en, hte, ?_, hfields.trans hj, ?_⟩
  · rw [move_streams hm (by simp) (by simp) (by simp) (by simp)]
    exact hf
  · by_contra hpend
    have hacked : en.state = .acked := by
      obtain ⟨id, s, f, st⟩ := en
      cases st <;> simp_all [Entry.isPending]
    -- an acknowledged entry was used by this very task, or reclaimed
    rcases h.acked m.messageId en hf hacked (by rw [hfields, hj]; simp) with hu | hre
    · obtain ⟨q', id, r, hev, hte'⟩ := h.base.users _ hu
      obtain rfl := h.base.procs.once q q' _ hte hte'
      have := mem_own.2 hev
      rw [hown] at this
      cases this
    · simp only [claimsLeased, hte, Option.all_some, hre, Bool.not_true] at hok
      cases hok

theorem Kept.inPel_move (h : Kept σ) (hm : Move (system app) σ ev σ') (ht : Told app σ ev)
    (hok : ev.isStart = false → claimsLeased σ.log ev = true) {row' : Job}
    (hj' : σ'.world.jobs.find? j = some row') (hs' : row'.status = .processing) :
    ∃ q i en, lastClaim j σ'.log = some q ∧ taskEntry σ'.log q = some i ∧
      σ'.world.streams.find? i = some en ∧ en.fields = some j ∧ en.isPending = true := by
  rw [move_log hm]
  rcases processing_before hm hj' hs' ht with ⟨q, rfl⟩ | ⟨hlast, row, hj, hs⟩
  · obtain ⟨i, en, hte, hen⟩ := h.inPel_claim hm ht (hok rfl)
    have hw : wins Op.claims j (.act q (.claimJob j) true) = true := by simp [wins, Op.claims, won]
    exact ⟨q, i, en, by rw [lastClaim_cons, if_pos hw]; rfl, hte, hen⟩
  · obtain ⟨q, i, en, hq, hte, hf, hfields, hp⟩ := h.inPel j row hj hs
    obtain ⟨st, hf', hre⟩ := move_entry hm hf
    refine ⟨q, i, _, hlast.trans hq, taskEntry_stays ht hte, hf', hfields, ?_⟩
    cases hre with
    | kept => exact hp
    | delivered => rfl
    | reclaimed => rfl
    | acked pid _ u hpend =>
      have hid : en.id = i := Streams.find?_id hf
      obtain ⟨hl, p, hproc, hi⟩ := ht
      by_cases hk : p.isTicker = true
      · -- the ticker acknowledges only entries the current claim was not made under
        obtain ⟨m, ms, htodo, -, he, hdone⟩ := issues_ticker hk hi
        have hat : TickerAt σ pid := ⟨hl, p, hproc, hk⟩
        obtain ⟨⟨en', hf₂, hen', -⟩, -⟩ := h.taken pid hat m (by rw [htodo]; exact List.mem_cons_self)
        rw [← he, hid, hf, Option.some.injEq] at hf₂
        subst hf₂
        have hjob : m.jobId = some j := by
          rw [← hen']
          exact hfields
        rcases hdone j hjob with hnone | ⟨job, hrow, hcase⟩
        · exact absurd hnone (h.found pid m ms j hat htodo hjob)
        · have hfree : Freed σ m.messageId j := by
            refine h.freed pid m ms j job hat htodo hjob hrow ?_
            rcases hcase with hterm | ⟨-, htried⟩ | ⟨hc, -⟩
            · left
              rintro he
              rw [he] at hterm
              cases hterm
            · exact .inr htried
            · left
              rintro he
              rw [he] at hc
              cases hc
          refine absurd ?_ (hfree row hj hs)
          rw [claimEntry, hq, Option.bind_some, hte, ← he, hid]
      · cases p with
        | runOne c m =>
          obtain ⟨-, he, hack⟩ := hi
          obtain ⟨en', hf₂, hfields', -⟩ := h.entry_of_task hproc
          rw [← he, hid, hf, Option.some.injEq] at hf₂
          subst hf₂
          have hte' : taskEntry σ.log pid = some i := by rw [taskEntry_of_proc hproc, ← he, hid]
          obtain rfl := h.base.procs.once q pid i hte hte'
          have hend : Ended q j σ.log := by
            rcases hack j (hfields'.symm.trans hfields) with hc | ⟨-, x, hx, hset, hwon⟩
            · exact .inl (mem_own.1 hc)
            · exact .inr ⟨x.1, x.2, mem_own.1 hx, hset, hwon⟩
          exact absurd hq (h.ended q j row hend hj hs)
        | ticker fuel => exact absurd rfl hk
        | promoteDue => exact absurd rfl hk
        | _ => exact absurd hi (by simp [issues, submitIssues, readIssues, retryJobIssues,
            cancelIssues, listIssues, loopIssues])

theorem Kept.acked_move (h : Kept σ) (hm : Move (system app) σ ev σ') (ht : Told app σ ev)
    {i : Nat} {en : Entry (Option Uuid)} (hf' : σ'.world.streams.find? i = some en)
    (hst : en.state = .acked) (hfields : en.fields ≠ none) :
    usedEntry i σ'.log = true ∨ reclaimed i σ'.log = true := by
  rw [move_log hm]
  have hmono : usedEntry i σ.log = true ∨ reclaimed i σ.log = true →
      usedEntry i (ev :: σ.log) = true ∨ reclaimed i (ev :: σ.log) = true :=
    Or.imp (used_cons ev) (reclaimed_cons ev)
  cases hf : σ.world.streams.find? i with
  | none =>
    rcases move_entry_none hm hf with hn | ⟨pid, s, id, u, -, hnew⟩
    · rw [hn] at hf'
      cases hf'
    · rw [hf', Option.some.injEq] at hnew
      rw [hnew] at hst
      cases hst
  | some en₀ =>
    obtain ⟨st, hf₁, hre⟩ := move_entry hm hf
    rw [hf', Option.some.injEq] at hf₁
    subst hf₁
    cases hre with
    | kept => exact hmono (h.acked i en₀ hf hst hfields)
    | delivered => cases hst
    | reclaimed => cases hst
    | acked pid _ u hp =>
      have hid : en₀.id = i := Streams.find?_id hf
      obtain ⟨hl, p, hproc, hi⟩ := ht
      by_cases hk : p.isTicker = true
      · obtain ⟨m, ms, htodo, -, he, -⟩ := issues_ticker hk hi
        obtain ⟨-, hre⟩ := h.taken pid ⟨hl, p, hproc, hk⟩ m (by rw [htodo]; exact List.mem_cons_self)
        rw [← he, hid] at hre
        exact hmono (.inr hre)
      · cases p with
        | runOne c m =>
          obtain ⟨-, he, hack⟩ := hi
          obtain ⟨en', hf₂, hfields', -⟩ := h.entry_of_task hproc
          rw [← he, hid, hf, Option.some.injEq] at hf₂
          subst hf₂
          have hj : m.jobId ≠ none := by
            rw [← hfields']
            exact hfields
          obtain ⟨id, hjob⟩ := Option.ne_none_iff_exists'.1 hj
          have hte : taskEntry σ.log pid = some i := by rw [taskEntry_of_proc hproc, ← he, hid]
          refine hmono (.inl ?_)
          rcases hack id hjob with hc | ⟨hc, -⟩
          · exact h.base.usedBy pid id _ i (mem_own.1 hc) hte
          · exact h.base.usedBy pid id _ i (mem_own.1 hc) hte
        | ticker fuel => exact absurd rfl hk
        | promoteDue => exact absurd rfl hk
        | _ => exact absurd hi (by simp [issues, submitIssues, readIssues, retryJobIssues,
            cancelIssues, listIssues, loopIssues])

theorem own_of_claim {q : Nat} {id : Uuid} {r : Bool} (ht : Told app σ (.act q (.claimJob id) r)) :
    own q σ.log = [] := by
  obtain ⟨-, p, -, hi⟩ := ht
  exact (issues_claim hi).2

theorem Kept.ended_move (h : Kept σ) (hm : Move (system app) σ ev σ') (ht : Told app σ ev)
    {q : Nat} {row' : Job} (hend : Ended q j σ'.log) (hj' : σ'.world.jobs.find? j = some row')
    (hs' : row'.status = .processing) : lastClaim j σ'.log ≠ some q := by
  intro hq
  rw [move_log hm] at hend hq
  have hnever : ∀ {id r}, ev = .act q (.claimJob id) r → ∀ {o : Op} {r' : o.Res},
      .act q o r' ∉ σ.log := by
    rintro id r rfl o r' hev
    have hmem := mem_own.2 hev
    rw [own_of_claim ht] at hmem
    cases hmem
  rcases processing_before hm hj' hs' ht with ⟨q', rfl⟩ | ⟨hlast, row, hj, hs⟩
  · have hw : wins Op.claims j (.act q' (.claimJob j) true) = true := by simp [wins, Op.claims, won]
    obtain rfl : q' = q := by
      rw [lastClaim_cons, if_pos hw] at hq
      simpa using hq
    rcases hend with hc | ⟨o, r, hev, hset, -⟩
    · rcases List.mem_cons.1 hc with he | hc
      · cases he
      · exact hnever rfl hc
    · rcases List.mem_cons.1 hev with he | hev
      · cases he
        cases hset
      · exact hnever rfl hev
  · rw [hlast] at hq
    rcases hend with hc | ⟨o, r, hev, hset, hwon⟩
    · rcases List.mem_cons.1 hc with rfl | hc
      · exact hnever rfl (lastClaim_mem hq)
      · exact h.ended q j row (.inl hc) hj hs hq
    · rcases List.mem_cons.1 hev with rfl | hev
      · exact not_processing_of_settle hm hset hj' hs'
      · exact h.ended q j row (.inr ⟨o, r, hev, hset, hwon⟩) hj hs hq

/-- The entry the ticker acknowledges was not the last trace. -/
theorem Kept.covered_ack (h : Kept σ) {t : Nat} {s : String} {i : Nat} {u : Unit}
    (hat : TickerAt σ t) (hm : Move (system app) σ (.act t (.xack s i) u) σ')
    (ht : Told app σ (.act t (.xack s i) u)) (hi : tickerIssues (own t σ.log) (.xack s i)) :
    Covered none σ' j := by
  intro hw
  have hw₀ : Waiting σ j := by
    rcases (waiting_before hm hw).2 with hh | hw₀
    · cases hh
    · exact hw₀
  obtain ⟨m, ms, htodo, -, rfl, hdone⟩ := hi
  obtain ⟨⟨en, hf, hen, -⟩, -⟩ := h.taken t hat m (by rw [htodo]; exact List.mem_cons_self)
  -- a score, or a trace other than the entry at hand
  have hother : σ.world.delayed.score? j ≠ none ∨ ∃ i, i ≠ m.messageId ∧ Trace σ i j := by
    by_cases hjob : m.jobId = some j
    · have hsafe : (reap (own t σ.log)).row = some none ∨ (reap (own t σ.log)).Safe j := by
        rcases hdone j hjob with hnone | ⟨job, hrow, hcase⟩
        · exact .inl hnone
        · right
          rcases hcase with hterm | ⟨hst, -⟩ | ⟨-, hsync | hhand⟩
          · refine .inr ⟨job, hrow, .inl (Bool.eq_false_iff.2 fun hclaim => ?_)⟩
            rw [JobStatus.claimable_iff, hterm] at hclaim
            cases hclaim.2
          · exact .inr ⟨job, hrow, .inl (by rw [hst]; rfl)⟩
          · exact .inr ⟨job, hrow, .inr hsync⟩
          · exact .inl hhand
      rcases hsafe with hnone | hsafe
      · exact absurd hnone (h.found t m ms j hat htodo hjob)
      · rcases h.spare t m ms j hat htodo hjob hsafe with hu | hcov
        · refine (h.covered j hw₀).imp_right ?_
          rintro ⟨i, -, htr⟩
          refine ⟨i, ?_, htr⟩
          rintro rfl
          rw [htr.unused h.base] at hu
          cases hu
        · refine (hcov hw₀).imp_right ?_
          rintro ⟨i, hne, htr⟩
          exact ⟨i, fun he => hne (congrArg some he), htr⟩
    · refine (h.covered j hw₀).imp_right ?_
      rintro ⟨i, -, htr⟩
      refine ⟨i, ?_, htr⟩
      rintro rfl
      obtain ⟨en', hf', hfields, -⟩ := htr
      rw [hf, Option.some.injEq] at hf'
      subst hf'
      exact hjob (by rw [← hen]; exact hfields)
  rcases hother with hs | ⟨i, hne, htr⟩
  · rcases score_kept h.base hs hm ht hw with hs' | ⟨_, _, _, he, -⟩
    · exact .inl hs'
    · cases he
  · rcases htr.kept h.base hm ht hw with htr' | ⟨_, _, _, he, -⟩
    · exact .inr ⟨i, by simp, htr'⟩
    · cases he
      exact absurd rfl hne

/-- A promotion removes an id only when a message names it. -/
theorem Kept.covered_zrem (h : Kept σ) {t : Nat} {ids : List Uuid} {u : Unit}
    (hat : TickerAt σ t) (hm : Move (system app) σ (.act t (.zrem ids) u) σ')
    (ht : Told app σ (.act t (.zrem ids) u)) (hi : tickerIssues (own t σ.log) (.zrem ids))
    (hok : removesPromoted σ.log (.act t (.zrem ids) u) = true) : Covered none σ' j := by
  intro hw
  have hw₀ : Waiting σ j := by
    rcases (waiting_before hm hw).2 with hh | hw₀
    · cases hh
    · exact hw₀
  have htrace : (∃ i, Trace σ i j) → ∃ i, some i ≠ none ∧ Trace σ' i j := by
    rintro ⟨i, htr⟩
    rcases htr.kept h.base hm ht hw with htr' | ⟨_, _, _, he, -⟩
    · exact ⟨i, by simp, htr'⟩
    · cases he
  rcases h.covered j hw₀ with hs | ⟨i, -, htr⟩
  · rcases score_kept h.base hs hm ht hw with hs' | ⟨_, _, _, he, hj, -⟩
    · exact .inl hs'
    · cases he
      obtain ⟨⟨ps, info, hi, n, hps, hdue, hinfo, hall⟩, -⟩ := hi
      obtain ⟨p, hp⟩ := (h.base.rows.info t ids info (mem_own.1 hinfo)).1 j hj
      have hno : zaddedSince t j σ.log = false := by
        obtain ⟨-, p, hproc, hk⟩ := hat
        simp only [removesPromoted, hproc, Option.all_some, hk, Bool.not_true, Bool.false_or,
          List.all_eq_true, Bool.not_eq_true'] at hok
        exact hok j hj
      rcases h.promoting t ps j hat hps (hall j hj p hp) hw₀ with htr | hz
      · exact .inr (htrace htr)
      · rw [hno] at hz
        cases hz
  · exact .inr (htrace ⟨i, htr⟩)

theorem Kept.covered_move (h : Kept σ) (hm : Move (system app) σ ev σ') (ht : Told app σ ev)
    (hok : ev.isStart = false → removesPromoted σ.log ev = true) : Covered none σ' j := by
  by_cases htick : ∃ t o r, ev = .act t o r ∧ TickerAt σ t
  · obtain ⟨t, o, r, rfl, hat⟩ := htick
    have hi : tickerIssues (own t σ.log) o := by
      obtain ⟨-, p, hp, hk⟩ := hat
      obtain ⟨-, p', hp', hi⟩ := ht
      rw [hp, Option.some.injEq] at hp'
      exact issues_ticker hk (hp' ▸ hi)
    cases o with
    | xack s i => exact h.covered_ack hat hm ht hi
    | zrem ids => exact h.covered_zrem hat hm ht hi (hok rfl)
    | _ =>
      refine (h.covered j).move h.base (by simp) hm ht ?_
      rintro t' o' r' he -
      cases he
      exact ⟨by simp, by simp⟩
  · refine (h.covered j).move h.base (by simp) hm ht ?_
    rintro t o r rfl hat
    exact absurd ⟨t, o, r, rfl, hat⟩ htick

theorem Kept.move (h : Kept σ) (hm : Move (system app) σ ev σ') (ht : Told app σ ev)
    (hok : ev.isStart = false → keepsTrace σ ev = true) : Kept σ' := by
  simp only [keepsTrace, Bool.and_eq_true] at hok
  exact {
    base := h.base.move hm ht
    honest := h.honest.move hm (fun hs => (hok hs).2) ht
    covered := fun _ => h.covered_move hm ht fun hs => (hok hs).1.2
    inPel := fun _ _ hj hs => h.inPel_move hm ht (fun hs => (hok hs).1.1.2) hj hs
    acked := fun _ _ hf hst hfields => h.acked_move hm ht hf hst hfields
    ended := fun _ _ _ hend hj hs => h.ended_move hm ht hend hj hs
    taken := fun _ hat _ hmem => h.taken_move hm ht hat hmem
    found := fun _ _ _ _ hat htodo hj => h.found_move hm ht hat htodo hj
    spare := fun _ _ _ _ hat htodo hj hsafe =>
      h.spare_move hm ht (fun hs => (hok hs).1.1.1) hat htodo hj hsafe
    freed := fun _ _ _ _ _ hat htodo hj hrow hcase =>
      h.freed_move hm ht (fun hs => (hok hs).1.1.2) hat htodo hj hrow hcase
    promoting := fun _ _ _ hat hps hmem hw => h.promoting_move hm ht hat hps hmem hw }

end Kept

/-! ### Runs -/

theorem kept_init : Kept ⟨World.init, []⟩ where
  base := base_init
  honest _ _ h := (nomatch h)
  covered _ h := (nomatch h.2)
  inPel _ _ h := (nomatch h)
  acked _ _ h := (nomatch h)
  ended _ _ _ _ h := (nomatch h)
  taken _ h := (nomatch h.1)
  found _ _ _ _ h := (nomatch h.1)
  spare _ _ _ _ h := (nomatch h.1)
  freed _ _ _ _ _ h := (nomatch h.1)
  promoting _ _ _ h := (nomatch h.1)

theorem kept {app : App} {c : Cfg}
    (hr : Run (system app) (fun σ ev => keepsTrace σ ev = true) c) : Kept c.shared :=
  run_inv kept_init (fun _ _ _ hI hm hok ht => hI.move hm ht hok) hr

theorem Kept.notStranded {σ : State} (h : Kept σ) : NotStranded σ.world := by
  intro j row hj
  constructor
  · intro hc
    by_cases hsync : row.isSyncedToRedis = true
    · right
      rcases h.covered j ⟨⟨row, hj, hc⟩, h.honest j row hj hc hsync⟩ with hs | ⟨i, -, en, hf, hen, hst⟩
      · exact .inl hs
      · exact .inr ⟨en, Streams.find?_mem hf, hen, hst.imp_right And.left⟩
    · exact .inl (by simpa using hsync)
  · intro hs
    obtain ⟨q, i, en, -, -, hf, hen, hp⟩ := h.inPel j row hj hs
    exact ⟨en, Streams.find?_mem hf, hen, hp⟩

theorem notStranded_of_keepsTrace (app : App) (c : Cfg)
    (hr : Run (system app) (fun σ ev => keepsTrace σ ev = true) c) :
    NotStranded c.shared.world :=
  (kept hr).notStranded

/-- Job 1 is accepted and marked; a worker reads its message and dies before it claims
the job; the reaper takes the entry. -/
def lostMessage : List (Choice Env Proc) := List.flatten
  [[.start (.submitJob 7 1 { type := .email, payload := .null })], runs 0 5,
    [.start (.workerLoop "a" 1)], runs 1 4, [.crash 1],
    [.start (.ticker 2), .run 2 { elapsed := 61000000 }], runs 2 9]

/-- A queued job whose flag is set and that Redis does not know. -/
def strandedJob (j : Uuid) (w : World) : Bool :=
  ((w.jobs.find? j).any fun row => row.status.claimable && row.isSyncedToRedis) &&
    (w.delayed.score? j).isNone && w.streams.entries.all fun en => en.state == .acked

theorem job_stranded :
    ¬ ∀ c, Reachable (system defaultApp) c → NotStranded c.shared.world := by
  intro h
  obtain ⟨c, hc, hl⟩ := reachable_of_replay defaultApp lostMessage
    (fun c => strandedJob 1 c.shared.world) (by decide +kernel)
  simp only [strandedJob, Bool.and_eq_true, Option.any_eq_true, Option.isNone_iff_eq_none,
    List.all_eq_true, beq_iff_eq] at hl
  obtain ⟨⟨⟨row, hj, hclaim, hsync⟩, hscore⟩, hacked⟩ := hl
  rcases (h c hc 1 row hj).1 hclaim with hf | hs | ⟨en, hen, -, hst⟩
  · rw [hsync] at hf
    cases hf
  · exact hs hscore
  · rcases hst with hst | hp
    · rw [hacked en hen] at hst
      cases hst
    · rw [Entry.isPending, hacked en hen] at hp
      cases hp

/-- The worker that dies has claimed the job: the reaper puts it back, hands it off and
acknowledges the old entry. -/
def deadWorkerReaped : List (Choice Env Proc) := List.flatten [deadWorker, runs 3 4]

theorem notStranded_deadWorkerReaped :
    ∃ c, Run (system defaultApp) (fun σ ev => keepsTrace σ ev = true) c ∧
      ((c.shared.world.jobs.find? 1).any fun row =>
        row.status.claimable && row.isSyncedToRedis && row.attempts == 1) = true ∧
      NotStranded c.shared.world := by
  obtain ⟨c, hc, hl⟩ := run_of_replay defaultApp (fun σ ev => keepsTrace σ ev = true) keepsTrace
    (fun _ _ h => h) deadWorkerReaped
    (fun c => (c.shared.world.jobs.find? 1).any fun row =>
      row.status.claimable && row.isSyncedToRedis && row.attempts == 1) (by decide +kernel)
  exact ⟨c, hc, hl, notStranded_of_keepsTrace defaultApp c hc⟩

end JobProcessor
