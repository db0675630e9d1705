import JobProcessor.Proofs.Budget
import JobProcessor.Proofs.Delivery

/-! Leases. Who holds the claim of a processing job, and who may end it: the task
that made the claim, or the reaper through the entry that task worked on. -/

namespace JobProcessor

open Interleave Prog Store

/-- The process whose claim of `j` was the last to be won. -/
def lastClaim (j : Uuid) : List Ev → Option Nat
  | [] => none
  | ev :: l => if wins Op.claims j ev = true then some ev.pid else lastClaim j l

def claimEntry (j : Uuid) (l : List Ev) : Option Nat := (lastClaim j l).bind (taskEntry l)

/-- The entry a pull loop has read and not yet created a task for. -/
def readHead : Hist → Option Nat
  | ⟨.xreadgroup _ _ _, m :: _⟩ :: _ => some m.messageId
  | _ => none

/-- A running process is at work on entry `i`: its task, or the loop that has just
read it. -/
def atWork (l : List Ev) (i : Nat) : Bool :=
  (started l).any fun p => live p.1 l &&
    (taskEntry l p.1 == some i || readHead (own p.1 l) == some i)

/-- `XAUTOCLAIM` takes only entries whose consumer has died or stopped working on
them. -/
def reclaimsDead (l : List Ev) : Ev → Bool
  | .act _ (.xautoclaim _ _ _ _) reply => reply.2.all fun m => !atWork l m.messageId
  | _ => true

/-- When the ticker reads a processing row through a reclaimed entry, the claim was
made under that entry. -/
def reapsOwn (σ : State) : Ev → Bool
  | .act pid (.getJob j none) _ =>
    match proc? pid σ.log, (reap (own pid σ.log)).todo with
    | some p, m :: _ => !p.isTicker ||
      !((σ.world.jobs.find? j).any fun row => row.status == .processing) ||
        claimEntry j σ.log == some m.messageId
    | _, _ => true
  | _ => true

/-- A transition out of `processing` is won by the process whose own claim it ends, or
by the ticker through the entry of that claim, whose task has died. -/
def SettledByHolder (l : List Ev) : Ev → Prop
  | .act pid o r => ∀ j, o.settles = some j → won o r = true →
    ∃ q, lastClaim j l = some q ∧
      (q = pid ∨ ∃ p m ms, proc? pid l = some p ∧ p.isTicker = true ∧
        (reap (own pid l)).todo = m :: ms ∧ taskEntry l q = some m.messageId ∧ live q l = false)
  | _ => True

section Issues

variable {app : App}

theorem issues_ticker {p : Proc} {h : Hist} {o : Op} (hp : p.isTicker = true)
    (hi : issues app p h o) : tickerIssues h o := by
  cases p with
  | ticker fuel => exact hi
  | promoteDue => exact hi.1
  | _ => cases hp

/-- Settlements are tried by the task that holds a claim and by the reaper. -/
theorem issues_settle {p : Proc} {h : Hist} {o : Op} {j : Uuid} (ho : o.settles = some j)
    (hi : issues app p h o) :
    (∃ consumer m, p = .runOne consumer m ∧ Holding m h j) ∨ p.isTicker = true ∧ Reaping h j := by
  by_cases hp : p.isTicker = true
  · have ht := issues_ticker hp hi
    cases o <;> simp only [Op.settles, Option.some.injEq, reduceCtorEq] at ho <;> subst ho
    · exact ht.elim
    · exact .inr ⟨hp, ht⟩
    · exact .inr ⟨hp, ht.1⟩
    · exact .inr ⟨hp, ht.1⟩
    · exact ht.elim
  · cases p with
    | runOne consumer m =>
      refine .inl ⟨consumer, m, rfl, ?_⟩
      cases o <;> simp only [Op.settles, Option.some.injEq, reduceCtorEq] at ho <;> subst ho
      · exact hi
      · exact hi
      · exact hi.1
      · exact hi.1
      · exact hi
    | ticker fuel => exact absurd rfl hp
    | promoteDue => exact absurd rfl hp
    | _ =>
      cases o <;> simp only [Op.settles, reduceCtorEq] at ho <;> exact absurd hi (by
        simp [issues, submitIssues, readIssues, retryJobIssues, cancelIssues, listIssues, loopIssues])

end Issues

/-! ### Steps -/

section Steps

variable {app : App} {σ σ' : State} {ev : Ev} {j : Uuid}

theorem lastClaim_cons (j : Uuid) (ev : Ev) (l : List Ev) :
    lastClaim j (ev :: l) = if wins Op.claims j ev = true then some ev.pid else lastClaim j l := rfl

/-- A processing row stays processing under the same claim until it is settled. -/
theorem processing_stays {row : Job} (hm : Move (system app) σ ev σ')
    (hj : σ.world.jobs.find? j = some row) (hs : row.status = .processing) :
    (∃ pid o r, ev = .act pid o r ∧ o.settles = some j ∧ won o r = true) ∨
      lastClaim j (ev :: σ.log) = lastClaim j σ.log ∧
        ∃ row', σ'.world.jobs.find? j = some row' ∧ row'.status = .processing := by
  have hid : row.id = j := Table.find?_key hj
  have hclaim : wins Op.claims j ev = false := by
    by_contra hw
    obtain ⟨row', hj', hc, -⟩ := claim_won hm (by simpa using hw)
    rw [hj, Option.some.injEq] at hj'
    rw [← hj', hs] at hc
    cases hc
  have hlast : lastClaim j (ev :: σ.log) = lastClaim j σ.log := by
    rw [lastClaim_cons, hclaim]
    rfl
  have hrow := move_row_some hm hj
  cases ev with
  | act pid o r =>
    by_cases ho : o.settles = some j
    · by_cases hw : won o r = true
      · exact .inl ⟨pid, o, r, rfl, ho, hw⟩
      · -- a settlement that finds the row processing wins
        refine absurd ((move_won hm ?_).2 ⟨j, row, hj, ?_⟩) hw
        · rintro m rfl
          cases ho
        · cases o <;> simp_all [Op.settles, Op.guard]
    · refine .inr ⟨hlast, _, hrow, ?_⟩
      subst hid
      have hne : ∀ i, o.settles = some i → row.id ≠ i := fun i hi he => ho (he ▸ hi)
      cases o <;> simp_all [onRow, Op.onRow, Op.settles, JobStatus.claimable]
      all_goals split <;> simp_all
  | _ => exact .inr ⟨hlast, _, hrow, hs⟩

/-- A running ticker, or a running call of `promote_due`. -/
def TickerAt (σ : State) (t : Nat) : Prop :=
  live t σ.log = true ∧ ∃ p, proc? t σ.log = some p ∧ p.isTicker = true

def OneTicker (σ : State) : Prop := ∀ t t', TickerAt σ t → TickerAt σ t' → t = t'

theorem TickerAt.before {t : Nat} (ht : Told app σ ev) (hm : Move (system app) σ ev σ')
    (h : TickerAt σ' t) :
    TickerAt σ t ∨ (∃ p, p.isTicker = true ∧ ev = .start t p) ∧ own t σ'.log = [] := by
  obtain ⟨hl, p, hp, hk⟩ := h
  rw [move_log hm] at hl hp ⊢
  rcases running_before ht hl hp with ⟨hl', hp'⟩ | ⟨he, ho⟩
  · exact .inl ⟨hl', p, hp', hk⟩
  · exact .inr ⟨⟨p, hk, he⟩, ho⟩

theorem OneTicker.move (h : OneTicker σ) (hT : TasksOnly σ) (hm : Move (system app) σ ev σ')
    (ht : Told app σ ev) : OneTicker σ' := by
  -- when a ticker starts no other one is running
  have hnone : ∀ {t p t'}, ev = .start t p → p.isTicker = true → ¬ TickerAt σ t' := by
    rintro t p t' rfl hk ⟨hl, p', hp', hk'⟩
    have ha : allows σ p = true := allowed_of_start hT ht (by
      rintro c m rfl
      cases hk)
    have hall : ((started σ.log).all fun p => !(p.2.isTicker && live p.1 σ.log)) = true := by
      cases p <;> first | exact ha | cases hk
    have := List.all_eq_true.1 hall _ (mem_started hp')
    simp [hk', hl] at this
  intro t t' h1 h2
  rcases h1.before ht hm with h1 | ⟨⟨p, hk, he⟩, -⟩ <;>
    rcases h2.before ht hm with h2 | ⟨⟨p', hk', he'⟩, -⟩
  · exact h t t' h1 h2
  · exact absurd h1 (hnone he' hk')
  · exact absurd h2 (hnone he hk)
  · rw [he] at he'
    cases he'
    rfl

end Steps

/-! ### Runs in which only the entries of dead consumers are reclaimed -/

section Runs

variable {app : App} {σ σ' : State} {ev : Ev}

/-- Nobody is at work on the entry of `m`, and nobody will be. -/
structure Idle (σ : State) (m : Message) : Prop where
  taken : Taken σ m
  task : ∀ q, live q σ.log = true → taskEntry σ.log q ≠ some m.messageId
  loop : ∀ q, live q σ.log = true → readHead (own q σ.log) ≠ some m.messageId
  created : ∀ q c m' r l, σ.log = .act q (.createTask (.runOne c m')) r :: l →
    m'.messageId ≠ m.messageId

theorem readHead_eq {h : Hist} {i : Nat} (hr : readHead h = some i) :
    ∃ c ss n m ms g, h = ⟨.xreadgroup c ss n, m :: ms⟩ :: g ∧ m.messageId = i := by
  unfold readHead at hr
  split at hr
  · rename_i c ss n m ms g
    exact ⟨c, ss, n, m, ms, g, rfl, by simpa using hr⟩
  · cases hr

theorem Idle.move {m : Message} (h : Idle σ m) (hm : Move (system app) σ ev σ')
    (ht : Told app σ ev) : Idle σ' m where
  taken := h.taken.move hm
  task q hl he := by
    rw [move_log hm] at hl he
    rcases taskEntry_before he with he' | ⟨c, m', rfl, hid⟩
    · rcases live_before hl with hl' | ⟨p, rfl⟩
      · exact h.task q hl' he'
      · unfold taskEntry at he'
        rw [ht.1.1] at he'
        cases he'
    · obtain ⟨q', r, l, hlog⟩ := created_of_start ht
      exact h.created q' c m' r l hlog hid
  loop q hl he := by
    rw [move_log hm] at hl he
    obtain ⟨c, ss, n, m', ms, g, ho, hid⟩ := readHead_eq he
    have hold : own q σ.log = ⟨.xreadgroup c ss n, m' :: ms⟩ :: g → False := by
      intro ho'
      rcases live_before hl with hl' | ⟨p, rfl⟩
      · refine h.loop q hl' ?_
        rw [ho']
        exact congrArg some hid
      · rw [ht.1.2] at ho'
        cases ho'
    rcases own_head ho with rfl | ⟨-, ho'⟩ | ⟨ho', -⟩
    · -- what is read now was not delivered before
      obtain ⟨en, now, hf, -, -, hst, -⟩ := move_read hm (List.mem_cons_self : m' ∈ m' :: ms)
      obtain ⟨en', hf', -, hst'⟩ := h.taken
      rw [hid, hf', Option.some.injEq] at hf
      exact hst' (hf ▸ hst)
    · exact hold ho'
    · exact hold ho'
  created q c m' r l hlog hid := by
    rw [move_log hm, List.cons.injEq] at hlog
    obtain ⟨rfl, rfl⟩ := hlog
    obtain ⟨hl, p, -, hi⟩ := ht
    obtain ⟨c', m'', ms, c₁, ss, n, g, he, ho⟩ := issues_createTask hi
    cases he
    refine h.loop q hl ?_
    rw [ho]
    exact congrArg some hid

theorem idle_of_reclaimed {t : Nat} {s : String} {minIdle : Time} {a n : Nat}
    {reply : Option Nat × List Message} {m : Message}
    (hm : Move (system app) σ (.act t (.xautoclaim s minIdle a n) reply) σ')
    (hok : reclaimsDead σ.log (.act t (.xautoclaim s minIdle a n) reply) = true)
    (hS : ∀ q, live q σ.log = true → proc? q σ.log ≠ none) (hmem : m ∈ reply.2) : Idle σ' m := by
  have hdead : ∀ q, live q σ.log = true →
      taskEntry σ.log q ≠ some m.messageId ∧ readHead (own q σ.log) ≠ some m.messageId := by
    intro q hl
    have hw := List.all_eq_true.1 hok m hmem
    rw [Bool.not_eq_true', atWork, List.any_eq_false] at hw
    obtain ⟨p, hp⟩ := Option.ne_none_iff_exists'.1 (hS q hl)
    simpa [hl] using hw _ (mem_started hp)
  obtain ⟨en, now, -, hen, -, hf'⟩ := move_reclaim hm hmem
  refine ⟨⟨_, hf', hen, by simp⟩, ?_, ?_, ?_⟩ <;> rw [move_log hm]
  · exact fun q hl => (hdead q hl).1
  · intro q hl he
    rw [own_act] at he
    split at he
    · cases he
    · exact (hdead q hl).2 he
  · intro q c m' r l hlog
    cases hlog

def ClaimedBy (σ : State) (j : Uuid) (q : Nat) : Prop :=
  lastClaim j σ.log = some q ∧
    ∃ row, σ.world.jobs.find? j = some row ∧ row.status = .processing

structure Lease (σ : State) : Prop where
  tasks : TasksOnly σ
  known : ∀ q, live q σ.log = true → proc? q σ.log ≠ none
  ticker : OneTicker σ
  held : ∀ q c m j, live q σ.log = true → proc? q σ.log = some (.runOne c m) →
    Holding m (own q σ.log) j → ClaimedBy σ j q
  idle : ∀ t, TickerAt σ t → ∀ m ∈ (reap (own t σ.log)).todo, Idle σ m
  reading : ∀ t j m ms, TickerAt σ t → Reaping (own t σ.log) j →
    (reap (own t σ.log)).todo = m :: ms →
      ∃ q, ClaimedBy σ j q ∧ taskEntry σ.log q = some m.messageId

/-- Who may settle `j`: the task whose claim is the last one, or the reaper through
the entry of a dead one. -/
theorem Lease.settler {pid : Nat} {o : Op} {r : o.Res} {j : Uuid} (h : Lease σ)
    (ht : Told app σ (.act pid o r)) (ho : o.settles = some j) :
    lastClaim j σ.log = some pid ∨ TickerAt σ pid ∧ ∃ q m ms, lastClaim j σ.log = some q ∧
      (reap (own pid σ.log)).todo = m :: ms ∧ taskEntry σ.log q = some m.messageId ∧
      live q σ.log = false := by
  obtain ⟨hl, p, hp, hi⟩ := ht
  rcases issues_settle ho hi with ⟨c, m, rfl, hh⟩ | ⟨hk, hr⟩
  · exact .inl (h.held pid c m j hl hp hh).1
  · have hat : TickerAt σ pid := ⟨hl, p, hp, hk⟩
    obtain ⟨m, ms, job, htodo, -⟩ := id hr
    obtain ⟨q, hc, he⟩ := h.reading pid j m ms hat hr htodo
    refine .inr ⟨hat, q, m, ms, hc.1, htodo, he, ?_⟩
    have hidle := h.idle pid hat m (by rw [htodo]; exact List.mem_cons_self)
    by_contra hq
    exact hidle.task q (by simpa using hq) he

theorem Lease.claim_stays {j : Uuid} {q : Nat} (h : Lease σ) (hm : Move (system app) σ ev σ')
    (ht : Told app σ ev) (hc : ClaimedBy σ j q)
    (hno : ∀ pid o r, ev = .act pid o r → o.settles = some j →
      q ≠ pid ∧ (TickerAt σ pid → live q σ.log = true)) : ClaimedBy σ' j q := by
  obtain ⟨hlast, row, hj, hs⟩ := hc
  rcases processing_stays hm hj hs with ⟨pid, o, r, rfl, ho, hw⟩ | ⟨hl, hrow⟩
  · obtain ⟨hne, hlive⟩ := hno pid o r rfl ho
    rcases h.settler ht ho with hp | ⟨hat, q', m, ms, hq', -, -, hdead⟩
    · rw [hlast, Option.some.injEq] at hp
      exact absurd hp hne
    · rw [hlast, Option.some.injEq] at hq'
      rw [← hq', hlive hat] at hdead
      cases hdead
  · exact ⟨by rw [move_log hm, hl, hlast], hrow⟩

theorem Lease.held_move (h : Lease σ) (hm : Move (system app) σ ev σ') (ht : Told app σ ev)
    {q : Nat} {c : String} {m : Message} {j : Uuid} (hl : live q σ'.log = true)
    (hp : proc? q σ'.log = some (.runOne c m)) (hh : Holding m (own q σ'.log) j) :
    ClaimedBy σ' j q := by
  rw [move_log hm] at hl hp hh
  rcases running_before ht hl hp with ⟨hl', hp'⟩ | ⟨-, ho⟩
  · by_cases hact : ∃ o r, ev = .act q o r
    · obtain ⟨o, r, rfl⟩ := hact
      rw [own_act, if_pos rfl] at hh
      have hset : o.settles = none := hh.2.2 ⟨o, r⟩ List.mem_cons_self
      rcases List.mem_cons.1 hh.2.1 with he | hmem
      · -- the claim itself
        obtain ⟨rfl, hr⟩ := Sigma.mk.inj he
        cases hr
        have hw : wins Op.claims j (.act q (.claimJob j) true) = true := by simp [wins, Op.claims, won]
        obtain ⟨row, hj, -, hrow⟩ := claim_won hm hw
        refine ⟨by rw [move_log hm, lastClaim_cons, if_pos hw]; rfl, _, move_row_some hm hj, ?_⟩
        rw [hrow]
      · have hold : Holding m (own q σ.log) j :=
          ⟨hh.1, hmem, fun x hx => hh.2.2 x (List.mem_cons_of_mem _ hx)⟩
        refine h.claim_stays hm ht (h.held q c m j hl' hp' hold) ?_
        intro pid o' r' he ho'
        cases he
        rw [hset] at ho'
        cases ho'
    · have hown : own q (ev :: σ.log) = own q σ.log := by
        cases ev with
        | act pid o r =>
          refine own_of_pid_ne fun he => hact ⟨o, r, ?_⟩
          rw [show pid = q from he]
        | _ => rfl
      rw [hown] at hh
      refine h.claim_stays hm ht (h.held q c m j hl' hp' hh) ?_
      rintro pid o r rfl -
      refine ⟨?_, fun _ => hl'⟩
      rintro rfl
      exact hact ⟨o, r, rfl⟩
  · rw [ho] at hh
    cases hh.2.1

theorem reaping_before {o : Op} {r : o.Res} {h : Hist} {j : Uuid}
    (hr : Reaping (⟨o, r⟩ :: h) j) :
    o.settles = none ∧ ((∃ id u, o = .getJob id u) ∨
      Reaping h j ∧ (reap (⟨o, r⟩ :: h)).todo = (reap h).todo) := by
  obtain ⟨m, ms, job, htodo, hid, hrow, hst, htried⟩ := hr
  cases o <;> simp only [reap, reapStep, reduceCtorEq, Bool.true_eq_false] at htodo hrow htried
  case getJob id u => exact ⟨rfl, .inl ⟨id, u, rfl⟩⟩
  all_goals exact ⟨rfl, .inr ⟨⟨m, ms, job, htodo, hid, hrow, hst, htried⟩, rfl⟩⟩

theorem Lease.idle_move (h : Lease σ) (hm : Move (system app) σ ev σ') (ht : Told app σ ev)
    (hok : ev.isStart = false → reclaimsDead σ.log ev = true) {t : Nat} (hat : TickerAt σ' t)
    {m : Message} (hmem : m ∈ (reap (own t σ'.log)).todo) : Idle σ' m := by
  rcases hat.before ht hm with hat' | ⟨-, ho⟩
  · have hold : m ∈ (reap (own t σ.log)).todo → Idle σ' m := fun hmem =>
      (h.idle t hat' m hmem).move hm ht
    rw [move_log hm] at hmem
    cases ev with
    | act pid o r =>
      rw [own_act] at hmem
      split at hmem
      · cases o with
        | xautoclaim s minIdle a n => exact idle_of_reclaimed hm (hok rfl) h.known hmem
        | xack s i => exact hold (List.mem_of_mem_tail hmem)
        | shouldStop => cases hmem
        | _ => exact hold hmem
      · exact hold hmem
    | _ => exact hold hmem
  · rw [ho] at hmem
    cases hmem

theorem Lease.reading_move (h : Lease σ) (hm : Move (system app) σ ev σ') (ht : Told app σ ev)
    (hok : ev.isStart = false → reapsOwn σ ev = true) {t : Nat} {j : Uuid} {m : Message}
    {ms : List Message} (hat : TickerAt σ' t) (hr : Reaping (own t σ'.log) j)
    (htodo : (reap (own t σ'.log)).todo = m :: ms) :
    ∃ q, ClaimedBy σ' j q ∧ taskEntry σ'.log q = some m.messageId := by
  rcases hat.before ht hm with hat' | ⟨-, ho⟩
  · rw [move_log hm] at hr htodo
    -- a claim that was there before: nobody else can settle it
    have hold : Reaping (own t σ.log) j → (reap (own t σ.log)).todo = m :: ms →
        (∀ o r, ev = .act t o r → o.settles ≠ some j) →
        ∃ q, ClaimedBy σ' j q ∧ taskEntry σ'.log q = some m.messageId := by
      intro hr htodo hno
      obtain ⟨q, hc, he⟩ := h.reading t j m ms hat' hr htodo
      have hidle := h.idle t hat' m (by rw [htodo]; exact List.mem_cons_self)
      refine ⟨q, h.claim_stays hm ht hc ?_, by rw [move_log hm]; exact taskEntry_stays ht he⟩
      rintro pid o r rfl ho
      refine ⟨?_, fun hat₂ => ?_⟩
      · rintro rfl
        exact hidle.task q ht.1 he
      · obtain rfl := h.ticker t pid hat' hat₂
        exact absurd ho (hno o r rfl)
    cases ev with
    | act pid o r =>
      rw [own_act] at hr htodo
      split at hr
      · rename_i hpid
        subst hpid
        rw [if_pos rfl] at htodo
        obtain ⟨hset, ⟨id, u, rfl⟩ | ⟨hr', htodo'⟩⟩ := reaping_before hr
        · -- the read itself
          obtain ⟨hl, p, hp, hi⟩ := ht
          have hk : p.isTicker = true := by
            obtain ⟨-, p', hp', hk⟩ := hat'
            rw [hp, Option.some.injEq] at hp'
            exact hp' ▸ hk
          obtain ⟨rfl, m', ms', htodo', hid⟩ := issues_ticker hk hi
          obtain ⟨m₁, ms₁, job, h1, h2, h3, h4, -⟩ := hr
          have hsame : (reap (own pid σ.log)).todo = m :: ms := htodo
          have hm₁ : m₁ = m := by
            have h1' : (reap (own pid σ.log)).todo = m₁ :: ms₁ := h1
            rw [hsame, List.cons.injEq] at h1'
            exact h1'.1.symm
          rw [hsame, List.cons.injEq] at htodo'
          obtain ⟨rfl, -⟩ := htodo'
          subst hm₁
          rw [hid, Option.some.injEq] at h2
          subst h2
          have hrow : r = some job := by simpa [reap, reapStep] using h3
          subst hrow
          obtain ⟨e, he⟩ := move_exec hm
          simp only [exec, Option.some.injEq, Prod.mk.injEq] at he
          have hj : σ.world.jobs.find? id = some job := he.2
          have hown := hok rfl
          simp only [reapsOwn, hp, hsame, hk, hj, h4, Option.any_some, beq_self_eq_true,
            Bool.not_true, Bool.false_or, beq_iff_eq] at hown
          obtain ⟨q, hq, hte⟩ := Option.bind_eq_some_iff.1 hown
          refine ⟨q, ⟨?_, job, ?_, h4⟩, ?_⟩
          · rw [move_log hm]
            exact hq
          · rw [← he.1]
            exact hj
          · rw [move_log hm]
            exact hte
        · refine hold hr' (htodo' ▸ htodo) ?_
          intro o' r' he
          cases he
          rw [hset]
          simp
      · rename_i hpid
        rw [if_neg hpid] at htodo
        refine hold hr htodo ?_
        intro o' r' he
        cases he
        exact absurd rfl hpid
    | _ => exact hold hr htodo (by simp)
  · rw [ho] at htodo
    cases htodo

theorem Lease.move (h : Lease σ) (hm : Move (system app) σ ev σ') (ht : Told app σ ev)
    (hok : ev.isStart = false → reclaimsDead σ.log ev = true ∧ reapsOwn σ ev = true) :
    Lease σ' where
  tasks := h.tasks.move hm ht
  known q hl := by
    rw [move_log hm] at hl ⊢
    rcases live_before hl with hl' | ⟨p, rfl⟩
    · obtain ⟨p, hp⟩ := Option.ne_none_iff_exists'.1 (h.known q hl')
      rw [proc?_stays ht hp]
      simp
    · simp
  ticker := h.ticker.move h.tasks hm ht
  held _ _ _ _ hl hp hh := h.held_move hm ht hl hp hh
  idle _ hat _ hmem := h.idle_move hm ht (fun hs => (hok hs).1) hat hmem
  reading _ _ _ _ hat hr htodo := h.reading_move hm ht (fun hs => (hok hs).2) hat hr htodo

theorem lease {c : Cfg}
    (hr : Run (system app) (fun σ ev => reclaimsDead σ.log ev = true ∧ reapsOwn σ ev = true) c) :
    Lease c.shared := by
  refine run_inv ?_ (fun σ ev σ' hI hm hok ht => hI.move hm ht hok) hr
  refine ⟨?_, ?_, ?_, ?_, ?_, ?_⟩
  · exact fun _ _ _ h => (nomatch h)
  · exact fun _ h => (nomatch h)
  · exact fun _ _ h => (nomatch h.1)
  · exact fun _ _ _ _ h => (nomatch h)
  · exact fun _ h => (nomatch h.1)
  · exact fun _ _ _ _ h => (nomatch h.1)

end Runs

theorem settledByHolder_of_reapsOwn (app : App) (c : Cfg)
    (hr : Run (system app) (fun σ ev => reclaimsDead σ.log ev = true ∧ reapsOwn σ ev = true) c) :
    ∀ ch ev c', step (system app) c ch = some (ev, c') → SettledByHolder c.shared.log ev := by
  intro ch ev c' hs
  obtain ⟨σ, -, ht, -, -⟩ :=
    hr.step_issued (fun _ _ _ _ _ he => exec_valid he) (body_emits app) hs
  cases ev with
  | act pid o r =>
    intro j ho _
    rcases (lease hr).settler ht ho with hp | ⟨⟨-, p, hp, hk⟩, q, m, ms, hq, htodo, he, hdead⟩
    · exact ⟨pid, hp, .inl rfl⟩
    · exact ⟨q, hq, .inr ⟨p, m, ms, hp, hk, htodo, he, hdead⟩⟩
  | _ => trivial

/-- Job 1 is in its stream twice: its submission is slow to mark it and the ticker
hands it off again. Worker `a` dies with the first entry, unclaimed; worker `b`
claims the job under the second one. Then the first entry is reclaimed. -/
def duplicateReaped : List (Choice Env Proc) := List.flatten
  [[.start (.submitJob 7 1 { type := .email, payload := .null })], runs 0 3,
    [.start (.ticker 3), .run 1 { elapsed := 61000000 }], runs 1 11,
    [.start (.workerLoop "a" 1)], runs 2 5, [.crash 2, .crash 3],
    [.start (.workerLoop "b" 1), .run 4 { elapsed := 40000000 }], runs 4 4, runs 5 1,
    [.run 1 { elapsed := 21000000 }], runs 1 7]

/-- The next step of process `pid` takes the job `j` away from a process that runs. -/
def takesAway (pid : Nat) (j : Uuid) (c : Cfg) : Bool :=
  match step (system defaultApp) c (.run pid {}) with
  | some (ev, _) => wins Op.settles j ev && ev.pid == pid && (lastClaim j c.shared.log).any fun q =>
    q != pid && live q c.shared.log
  | none => false

theorem live_claim_taken :
    ¬ ∀ c, Run (system defaultApp) (fun σ ev => reclaimsDead σ.log ev = true) c →
      ∀ ch ev c', step (system defaultApp) c ch = some (ev, c') →
        SettledByHolder c.shared.log ev := by
  intro h
  obtain ⟨c, hc, hl⟩ := run_of_replay defaultApp (fun σ ev => reclaimsDead σ.log ev = true)
    (fun σ ev => reclaimsDead σ.log ev) (fun _ _ h => h) duplicateReaped (takesAway 1 1)
    (by decide +kernel)
  unfold takesAway at hl
  split at hl
  · rename_i ev c' hs
    simp only [Bool.and_eq_true, beq_iff_eq, Option.any_eq_true, bne_iff_ne] at hl
    obtain ⟨⟨hw, hpid⟩, q, hq, hne, hlive⟩ := hl
    obtain ⟨pid, o, r, rfl, ho, hr⟩ := wins_iff.1 hw
    obtain rfl : pid = 1 := hpid
    obtain ⟨q', hq', hcase⟩ := h c hc (.run 1 {}) _ c' hs 1 ho hr
    rw [hq, Option.some.injEq] at hq'
    rcases hcase with rfl | ⟨_, _, _, _, _, _, _, hdead⟩
    · exact hne hq'
    · rw [← hq', hlive] at hdead
      cases hdead
  · cases hl

/-- A worker claims job 1 and dies; its entry is reclaimed and the row read. -/
def deadWorker : List (Choice Env Proc) := List.flatten
  [[.start (.submitJob 7 1 { type := .email, payload := .null })], runs 0 5,
    [.start (.workerLoop "a" 1)], runs 1 5, runs 2 1, [.crash 1, .crash 2],
    [.start (.ticker 2), .run 3 { elapsed := 61000000 }], runs 3 8]

theorem settledByHolder_deadWorker :
    ∃ c ev c', Run (system defaultApp)
        (fun σ ev => reclaimsDead σ.log ev = true ∧ reapsOwn σ ev = true) c ∧
      step (system defaultApp) c (.run 3 {}) = some (ev, c') ∧ wins Op.settles 1 ev = true ∧
      SettledByHolder c.shared.log ev := by
  obtain ⟨c, hc, hl⟩ := run_of_replay defaultApp
    (fun σ ev => reclaimsDead σ.log ev = true ∧ reapsOwn σ ev = true)
    (fun σ ev => reclaimsDead σ.log ev && reapsOwn σ ev)
    (fun _ _ h => by simpa using h) deadWorker
    (fun c => match step (system defaultApp) c (.run 3 {}) with
      | some (ev, _) => wins Op.settles 1 ev
      | none => false) (by decide +kernel)
  split at hl
  · rename_i ev c' hs
    exact ⟨c, ev, c', hc, hs, hl, settledByHolder_of_reapsOwn defaultApp c hc _ ev c' hs⟩
  · cases hl

end JobProcessor
