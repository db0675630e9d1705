import JobProcessor.Proofs.Rows

/-! Submissions of one user with one idempotency key, in any race: one row, one
handoff, one 202, and an answer that depends only on the hash of that row. -/

namespace JobProcessor

open Interleave Prog Store

variable {app : App} {σ σ' : State} {ev : Ev}

/-! ### Ids and rows of submissions -/

def FreshIds (σ : State) : Prop :=
  ∀ pid pid' u u' id sub sub', proc? pid σ.log = some (.submitJob u id sub) →
    proc? pid' σ.log = some (.submitJob u' id sub') → pid = pid'

theorem FreshIds.move (h : FreshIds σ) (hT : TasksOnly σ) (hm : Move (system app) σ ev σ')
    (ht : Told app σ ev) : FreshIds σ' := by
  intro pid pid' u u' id sub sub' hp hp'
  rw [move_log hm] at hp hp'
  cases ev with
  | start q p =>
    -- an id that is allowed differs from every earlier one
    have hnew : ∀ {i v s}, p = .submitJob v id s → proc? i σ.log ≠ some (.submitJob u id sub) ∧
        proc? i σ.log ≠ some (.submitJob u' id sub') := by
      rintro i v s rfl
      have ha := allowed_of_start hT ht (by simp)
      simp only [allows, List.all_eq_true] at ha
      constructor <;> intro hi <;> simpa using ha _ (mem_started hi)
    rw [proc?_start] at hp hp'
    by_cases hq : q = pid <;> by_cases hq' : q = pid'
    · exact hq.symm.trans hq'
    · rw [if_pos hq, Option.some.injEq] at hp
      rw [if_neg hq'] at hp'
      exact absurd hp' (hnew hp).2
    · rw [if_neg hq] at hp
      rw [if_pos hq', Option.some.injEq] at hp'
      exact absurd hp (hnew hp').1
    · rw [if_neg hq] at hp
      rw [if_neg hq'] at hp'
      exact h pid pid' u u' id sub sub' hp hp'
  | _ => exact h pid pid' u u' id sub sub' hp hp'

/-- What a submission inserts, and what it was refused for. -/
structure Inserts (app : App) (σ : State) : Prop where
  asked : ∀ pid n r, .act pid (.createJob n) r ∈ σ.log → ∃ user newId sub,
    proc? pid σ.log = some (.submitJob user newId sub) ∧ IsNew app user newId sub n
  inserted : ∀ j row, σ.world.jobs.find? j = some row →
    ∃ pid n, n.id = j ∧ .act pid (.createJob n) true ∈ σ.log
  refused : ∀ pid n, .act pid (.createJob n) false ∈ σ.log →
    ∃ row ∈ σ.world.jobs.rows, ∃ x, row.uqUserIdempotencyKey = some x ∧
      (n.row 0).uqUserIdempotencyKey = some x

theorem uq_of_fixed {r₁ r₂ : Job} (h : r₁.fixed = r₂.fixed) :
    r₁.uqUserIdempotencyKey = r₂.uqUserIdempotencyKey := by
  have hu : r₁.userId = r₂.userId := congrArg (fun k => k.1) h
  have hk : r₁.idempotencyKey = r₂.idempotencyKey := congrArg (fun k => k.2.2.2.1) h
  unfold Job.uqUserIdempotencyKey
  rw [hu, hk]

theorem index_stays {x : Uuid × String} (hm : Move (system app) σ ev σ')
    (h : ∃ row ∈ σ.world.jobs.rows, row.uqUserIdempotencyKey = some x) :
    ∃ row ∈ σ'.world.jobs.rows, row.uqUserIdempotencyKey = some x := by
  obtain ⟨row, hr, hx⟩ := h
  have hs : Stored σ.world row.id row := ⟨row, Table.find?_of_mem hr, rfl⟩
  obtain ⟨row', hf, hfix⟩ := hs.move hm
  exact ⟨row', Table.find?_mem hf, (uq_of_fixed hfix).trans hx⟩

theorem Inserts.move (h : Inserts app σ) (hF : FreshIds σ) (hm : Move (system app) σ ev σ')
    (ht : Told app σ ev) : Inserts app σ' where
  asked pid n r hev := by
    rw [move_log hm] at hev ⊢
    rcases List.mem_cons.1 hev with rfl | hev
    · obtain ⟨-, p, hp, hi⟩ := ht
      obtain ⟨user, newId, sub, rfl, hn, -⟩ := issues_createJob hi
      exact ⟨user, newId, sub, hp, hn⟩
    · obtain ⟨user, newId, sub, hp, hn⟩ := h.asked pid n r hev
      exact ⟨user, newId, sub, proc?_stays ht hp, hn⟩
  inserted j row' hj' := by
    rw [move_log hm]
    rcases move_row hm hj' with ⟨row, hj, -⟩ | ⟨pid, n, rfl, hn, -, -⟩
    · obtain ⟨pid, n, hn, hev⟩ := h.inserted j row hj
      exact ⟨pid, n, hn, List.mem_cons_of_mem _ hev⟩
    · exact ⟨pid, n, hn, List.mem_cons_self⟩
  refused pid n hev := by
    rw [move_log hm] at hev
    rcases List.mem_cons.1 hev with rfl | hev
    · obtain ⟨hjobs, hfit⟩ := move_refused hm
      obtain ⟨-, p, hp, hi⟩ := ht
      obtain ⟨user, newId, sub, rfl, hn, hq⟩ := issues_createJob hi
      -- the id is fresh, so it is the key that clashes
      have hid : σ.world.jobs.find? n.id = none := by
        by_contra hne
        obtain ⟨row, hrow⟩ := Option.ne_none_iff_exists'.1 hne
        obtain ⟨pid', n', hid', hev'⟩ := h.inserted _ row hrow
        obtain ⟨user', newId', sub', hp', hn'⟩ := h.asked pid' n' true hev'
        obtain rfl : newId' = newId := by rw [← hn'.id, hid', hn.id]
        obtain rfl := hF _ _ _ _ _ _ _ hp' hp
        have := (hq _ (mem_own.2 hev')).1
        cases this
      rw [hjobs]
      have hclash : ¬ ∀ u ∈ (n.row 0).uqUserIdempotencyKey,
          u ∉ σ.world.jobs.rows.filterMap Job.uqUserIdempotencyKey := fun hno =>
        hfit ⟨Table.find?_eq_none_iff.1 hid, hno⟩
      push Not at hclash
      obtain ⟨x, hx, hmem⟩ := hclash
      obtain ⟨row, hr, hrx⟩ := List.mem_filterMap.1 hmem
      exact ⟨row, hr, x, hrx, hx⟩
    · obtain ⟨row, hr, x, hrx, hx⟩ := h.refused pid n hev
      obtain ⟨row', hr', hrx'⟩ := index_stays hm ⟨row, hr, hrx⟩
      exact ⟨row', hr', x, hrx', hx⟩

/-- A lookup after a refused insert finds a row, and so does the read after an
insert. -/
def Finds (σ : State) : Prop :=
  ∀ l, l <:+ σ.log → ∀ pid x g, own pid l = x :: g →
    (∀ id, x = ⟨.getJob id none, none⟩ → ¬ Created g id) ∧
    ∀ u k n, x = ⟨.getByIdempotencyKey k u, none⟩ →
      (n.row 0).uqUserIdempotencyKey = some (u, k) → (⟨.createJob n, false⟩ : Reply Op Op.Res) ∉ g

theorem Finds.move (h : Finds σ) (hI : Inserts app σ) (hR : Remembered σ)
    (hm : Move (system app) σ ev σ') : Finds σ' := by
  intro l hl pid x g ho
  rw [move_log hm] at hl
  rcases List.suffix_cons_iff.1 hl with rfl | hl
  · by_cases hpid : ev.pid = pid
    · cases hm with
      | act q o e he =>
        obtain rfl : q = pid := hpid
        rw [own_act, if_pos rfl, List.cons.injEq] at ho
        obtain ⟨rfl, rfl⟩ := ho
        constructor
        · rintro id hx ⟨n, rfl, hn⟩
          cases hx
          obtain ⟨row, hf, -⟩ := hR.created (mem_own.1 hn)
          simp only [system, exec, Option.some.injEq, Prod.mk.injEq] at he
          have hnone := he.2
          change σ.world.jobs.find? n.id = none at hnone
          cases hnone.symm.trans hf
        · rintro u k n hx hk hn
          cases hx
          obtain ⟨row, hr, y, hy, hny⟩ := hI.refused _ _ (mem_own.1 hn)
          simp only [system, exec, Option.some.injEq, Prod.mk.injEq] at he
          rw [hk] at hny
          exact Repository.getByIdempotencyKey_none he.2 row hr (hy.trans hny.symm)
      | _ => exact h _ (List.suffix_refl _) pid x g ho
    · rw [own_of_pid_ne hpid] at ho
      exact h _ (List.suffix_refl _) pid x g ho
  · exact h l hl pid x g ho

/-- Everything the answers to submissions rest on. -/
structure SubmitInv (app : App) (σ : State) : Prop where
  seen : Remembered σ
  tasks : TasksOnly σ
  fresh : FreshIds σ
  inserts : Inserts app σ
  finds : Finds σ

theorem SubmitInv.move (h : SubmitInv app σ) (hm : Move (system app) σ ev σ')
    (ht : Told app σ ev) : SubmitInv app σ' :=
  ⟨h.seen.move hm, h.tasks.move hm ht, h.fresh.move h.tasks hm ht,
    h.inserts.move h.fresh hm ht, h.finds.move h.inserts h.seen hm⟩

theorem submitInv {ok : State → Ev → Prop} {c : Cfg} (hr : Run (system app) ok c) :
    SubmitInv app c.shared := by
  refine run_inv ?_ ?_ hr
  · refine ⟨?_, ?_, ?_, ⟨?_, ?_, ?_⟩, ?_⟩
    · exact fun _ _ _ h => (by cases h)
    · exact fun _ _ _ h => (by cases h)
    · exact fun _ _ _ _ _ _ _ h => (by cases h)
    · exact fun _ _ _ h => (by cases h)
    · exact fun _ _ h => (by cases h)
    · exact fun _ _ h => (by cases h)
    · intro l hl pid x g ho
      rw [List.suffix_nil.1 hl] at ho
      cases ho
  · intro σ ev σ' hI hm _ ht
    exact hI.move hm ht

/-! ### The law of one key -/

/-- `pid` is a submission by `user` with `key` whose payload is valid. -/
structure IsRequest (app : App) (user : Uuid) (key : String) (l : List Ev) (pid : Nat)
    (newId : Uuid) (sub : JobSubmission) : Prop where
  proc : proc? pid l = some (.submitJob user newId sub)
  keyed : sub.idempotencyKey = some key
  valid : ∃ payload, app.validatePayload sub.type sub.payload = .ok payload

/-- The same as a test. -/
def requests (app : App) (user : Uuid) (key : String) (l : List Ev) (pid : Nat) : Bool :=
  match proc? pid l with
  | some (.submitJob u _ sub) => decide (u = user) && decide (sub.idempotencyKey = some key) &&
    (app.validatePayload sub.type sub.payload).isOk
  | _ => false

def hands : Ev → Bool
  | .act _ o _ => o.handsOff.isSome
  | _ => false

def answers202 : Ev → Bool
  | .ret _ (.response (.ok r)) => r.status == 202
  | _ => false

def inserts (user : Uuid) (key : String) : Ev → Bool
  | .act _ (.createJob n) r => r && decide ((n.row 0).uqUserIdempotencyKey = some (user, key))
  | _ => false

/-- What holds, at a reachable configuration, of all submissions by `user` with `key`. -/
structure KeyLaw (app : App) (user : Uuid) (key : String) (c : Cfg) : Prop where
  oneRow : ∀ r₁ ∈ c.shared.world.jobs.rows, ∀ r₂ ∈ c.shared.world.jobs.rows,
    r₁.uqUserIdempotencyKey = some (user, key) → r₂.uqUserIdempotencyKey = some (user, key) →
      r₁ = r₂
  oneHandoff : c.shared.log.countP
    (fun ev => requests app user key c.shared.log ev.pid && hands ev) ≤ 1
  oneAccepted : c.shared.log.countP
    (fun ev => requests app user key c.shared.log ev.pid && answers202 ev) ≤ 1
  answered : ∀ pid newId sub r, IsRequest app user key c.shared.log pid newId sub →
    .ret pid (.response r) ∈ c.shared.log →
      ∃ row ∈ c.shared.world.jobs.rows, row.uqUserIdempotencyKey = some (user, key) ∧
        ∃ resp, r = .ok resp ∧
          (resp.status = 200 ∨ resp.status = 202 →
            ∃ a, resp.body = .accepted a ∧ a.id = row.id) ∧
          (row.idempotencyHash = some (app.canonicalHash sub.type sub.payload) →
            resp.status ≠ 409) ∧
          (row.idempotencyHash ≠ some (app.canonicalHash sub.type sub.payload) →
            resp.status = 409)
  conflictSilent : ∀ ch ev c' newId sub row, step (system app) c ch = some (ev, c') →
    IsRequest app user key c.shared.log ev.pid newId sub →
    row ∈ c'.shared.world.jobs.rows → row.uqUserIdempotencyKey = some (user, key) →
    row.idempotencyHash ≠ some (app.canonicalHash sub.type sub.payload) →
      c'.shared.world.jobs = c.shared.world.jobs ∧
      c'.shared.world.streams = c.shared.world.streams ∧
      c'.shared.world.delayed = c.shared.world.delayed

section Law

variable {user newId : Uuid} {key : String} {sub : JobSubmission} {pid : Nat}

theorem IsNew.uq {n : Repository.NewJob} (hn : IsNew app user newId sub n)
    (hk : sub.idempotencyKey = some key) :
    (n.row 0).uqUserIdempotencyKey = some (user, key) := by
  have hu : (n.row 0).userId = some user := hn.userId
  have hk' : (n.row 0).idempotencyKey = some key := hn.key.trans hk
  unfold Job.uqUserIdempotencyKey
  rw [hu, hk']

theorem SubmitInv.own_row (h : SubmitInv app σ) (hp : proc? pid σ.log = some (.submitJob user newId sub))
    (hk : sub.idempotencyKey = some key) (hc : Created (own pid σ.log) newId) :
    ∃ row ∈ σ.world.jobs.rows, row.uqUserIdempotencyKey = some (user, key) ∧ row.id = newId ∧
      row.idempotencyHash = some (app.canonicalHash sub.type sub.payload) := by
  obtain ⟨n, hid, hn⟩ := hc
  obtain ⟨user', newId', sub', hp', hnew⟩ := h.inserts.asked pid n true (mem_own.1 hn)
  rw [hp, Option.some.injEq, Proc.submitJob.injEq] at hp'
  obtain ⟨rfl, rfl, rfl⟩ := hp'
  obtain ⟨row, hf, hfix⟩ := h.seen.created (mem_own.1 hn)
  refine ⟨row, Table.find?_mem hf, (uq_of_fixed hfix).trans (hnew.uq hk), ?_, ?_⟩
  · exact (Table.find?_key hf).trans hid
  · have hh : row.idempotencyHash = n.idempotencyHash := congrArg (fun k => k.2.2.2.2.1) hfix
    rw [hh, hnew.hash, hk]
    rfl

/-- Two rows stored under one key are one row. -/
theorem same_row {r₁ r₂ : Job} (h₁ : r₁ ∈ σ.world.jobs.rows) (h₂ : r₂ ∈ σ.world.jobs.rows)
    (hx₁ : r₁.uqUserIdempotencyKey = some (user, key))
    (hx₂ : r₂.uqUserIdempotencyKey = some (user, key)) : r₁ = r₂ :=
  Table.index_unique h₁ h₂ hx₁ hx₂

theorem inserts_iff :
    inserts user key ev = true ↔ ∃ pid n, ev = .act pid (.createJob n) true ∧
      (n.row 0).uqUserIdempotencyKey = some (user, key) := by
  unfold inserts
  split
  · rename_i pid n r
    rw [Bool.and_eq_true, decide_eq_true_eq]
    constructor
    · rintro ⟨rfl, hx⟩
      exact ⟨pid, n, rfl, hx⟩
    · rintro ⟨pid', n', he, hx⟩
      cases he
      exact ⟨rfl, hx⟩
  · rename_i h
    simp only [Bool.false_eq_true, false_iff]
    rintro ⟨pid, n, rfl, -⟩
    exact h pid n true rfl

theorem inserted_once {ok : State → Ev → Prop} {c : Cfg} (hr : Run (system app) ok c)
    (user : Uuid) (key : String) : c.shared.log.countP (inserts user key) ≤ 1 := by
  have hI : Remembered c.shared ∧ c.shared.log.countP (inserts user key) ≤ 1 := by
    refine run_inv (I := fun σ => Remembered σ ∧ σ.log.countP (inserts user key) ≤ 1) ?_ ?_ hr
    · exact ⟨fun _ _ _ h => (by cases h), by simp⟩
    · intro σ ev σ' hI hm _ _
      refine ⟨hI.1.move hm, ?_⟩
      rw [move_log hm, List.countP_cons]
      split
      · -- an insert that succeeds finds the key unused, so there was none before
        rename_i hi
        obtain ⟨pid, n, rfl, hx⟩ := inserts_iff.1 hi
        have hzero : σ.log.countP (inserts user key) = 0 := by
          rw [List.countP_eq_zero]
          intro ev' hev hi'
          obtain ⟨pid', n', rfl, hx'⟩ := inserts_iff.1 hi'
          obtain ⟨row, hf, hfix⟩ := hI.1.created hev
          obtain ⟨hnone, hfind, hrows⟩ := move_created hm
          have h₁ : row ∈ σ'.world.jobs.rows := by
            rw [hrows]
            exact List.mem_append_left _ (Table.find?_mem hf)
          have h₂ : n.row σ'.world.clock ∈ σ'.world.jobs.rows := by
            rw [hrows]
            exact List.mem_append_right _ List.mem_cons_self
          have heq := same_row h₁ h₂ ((uq_of_fixed hfix).trans hx') hx
          have hid : row.id = n.id := congrArg Job.id heq
          have hmem := Table.find?_of_mem (Table.find?_mem hf)
          rw [hid, hnone] at hmem
          cases hmem
        omega
      · exact hI.2
  exact hI.2

theorem requests_iff {l : List Ev} :
    requests app user key l pid = true ↔
      ∃ newId sub, IsRequest app user key l pid newId sub := by
  unfold requests
  constructor
  · intro h
    split at h
    · rename_i u newId sub hp
      simp only [Bool.and_eq_true, decide_eq_true_eq] at h
      obtain ⟨⟨rfl, hk⟩, hv⟩ := h
      refine ⟨newId, sub, hp, hk, ?_⟩
      cases hval : app.validatePayload sub.type sub.payload with
      | error exc => rw [hval] at hv; cases hv
      | ok payload => exact ⟨payload, rfl⟩
    · cases h
  · rintro ⟨newId, sub, hp, hk, payload, hv⟩
    simp [hp, hk, hv, Except.isOk, Except.toBool]

theorem issues_handsOff {h : Hist} {o : Op} (ho : o.handsOff.isSome = true)
    (hi : issues app (.submitJob user newId sub) h o) :
    Created h newId ∧ ∀ x ∈ h, x.1.handsOff = none := by
  cases o <;> simp only [Op.handsOff, Option.isSome_none, Bool.false_eq_true] at ho
  · obtain ⟨rfl, hc, hx⟩ := hi
    exact ⟨hc, hx⟩
  · obtain ⟨rfl, hc, hx⟩ := hi
    exact ⟨hc, hx⟩

variable {ok : State → Ev → Prop} {c : Cfg}

theorem inserts_of_created (hr : Run (system app) ok c) {l : List Ev} (hl : l <:+ c.shared.log)
    (hreq : IsRequest app user key c.shared.log pid newId sub) (hc : Created (own pid l) newId) :
    ∃ ev ∈ c.shared.log, inserts user key ev = true ∧ ev.pid = pid := by
  obtain ⟨n, -, hn⟩ := hc
  have hev : .act pid (.createJob n) true ∈ c.shared.log := hl.subset (mem_own.1 hn)
  obtain ⟨u, i, s, hp, hnew⟩ := (submitInv hr).inserts.asked pid n true hev
  rw [hreq.proc, Option.some.injEq, Proc.submitJob.injEq] at hp
  obtain ⟨rfl, rfl, rfl⟩ := hp
  exact ⟨_, hev, inserts_iff.2 ⟨pid, n, rfl, hnew.uq hreq.keyed⟩, rfl⟩

theorem handed_once (hr : Run (system app) ok c) (user : Uuid) (key : String) :
    c.shared.log.countP (fun ev => requests app user key c.shared.log ev.pid && hands ev) ≤ 1 := by
  -- what a handoff of the key says about the replies before it
  have hand : ∀ ev l, ev :: l <:+ c.shared.log →
      (requests app user key c.shared.log ev.pid && hands ev) = true →
      ∃ newId sub, IsRequest app user key c.shared.log ev.pid newId sub ∧
        Created (own ev.pid l) newId ∧ ∀ x ∈ own ev.pid l, x.1.handsOff = none := by
    intro ev l hl hp
    rw [Bool.and_eq_true, requests_iff] at hp
    obtain ⟨⟨newId, sub, hreq⟩, hh⟩ := hp
    cases ev with
    | act pid o r =>
      obtain ⟨p, hproc, hi⟩ := (run_recorded hr).1 pid o r l hl
      have hsub : proc? pid c.shared.log = some (.submitJob user newId sub) := hreq.proc
      rw [hsub, Option.some.injEq] at hproc
      subst hproc
      exact ⟨newId, sub, hreq, issues_handsOff hh hi⟩
    | _ => cases hh
  refine (countP_le_of_pids ?_ ?_).trans (inserted_once hr user key)
  · refine nodup_pids _ fun ev l hl hp ev' hev' hp' hpid => ?_
    obtain ⟨-, -, -, -, hnone⟩ := hand ev l hl hp
    rw [Bool.and_eq_true] at hp'
    cases ev' with
    | act pid o r =>
      obtain rfl : pid = ev.pid := hpid
      have hh : o.handsOff.isSome = true := hp'.2
      rw [hnone _ (mem_own.2 hev')] at hh
      cases hh
    | _ => cases hp'.2
  · intro ev hev hp
    obtain ⟨l₁, l, hl⟩ := List.append_of_mem hev
    have hsuf : ev :: l <:+ c.shared.log := ⟨l₁, hl.symm⟩
    obtain ⟨newId, sub, hreq, hc, -⟩ := hand ev l hsuf hp
    exact inserts_of_created hr ((List.suffix_cons ev l).trans hsuf) hreq hc

theorem answers_of_ret (hr : Run (system app) ok c) {r : Except Exc Response} {l : List Ev}
    (hl : .ret pid (.response r) :: l <:+ c.shared.log)
    (hreq : IsRequest app user key c.shared.log pid newId sub) :
    Answers app user newId sub key (own pid l) r := by
  obtain ⟨p, hp, hret⟩ := (run_recorded hr).2 pid _ l hl
  rw [hreq.proc, Option.some.injEq] at hp
  subst hp
  obtain ⟨r', he, hans⟩ := hret
  cases he
  obtain ⟨payload, hv⟩ := hreq.valid
  exact hans payload key hv hreq.keyed

theorem accepted_once (hr : Run (system app) ok c) (user : Uuid) (key : String) :
    c.shared.log.countP
      (fun ev => requests app user key c.shared.log ev.pid && answers202 ev) ≤ 1 := by
  refine (countP_le_of_pids ?_ ?_).trans (inserted_once hr user key)
  · have hsub : (c.shared.log.filter fun ev =>
        requests app user key c.shared.log ev.pid && answers202 ev).Sublist
        (c.shared.log.filter Event.isRet) := by
      refine List.monotone_filter_right _ fun ev hp => ?_
      rw [Bool.and_eq_true] at hp
      cases ev with
      | ret pid a => rfl
      | _ => cases hp.2
    exact hr.ret_nodup.sublist (hsub.map _)
  · intro ev hev hp
    rw [Bool.and_eq_true, requests_iff] at hp
    obtain ⟨⟨newId, sub, hreq⟩, h202⟩ := hp
    obtain ⟨l₁, l, hl⟩ := List.append_of_mem hev
    have hsuf : ev :: l <:+ c.shared.log := ⟨l₁, hl.symm⟩
    unfold answers202 at h202
    split at h202
    · rename_i pid resp
      have hs : resp.status = 202 := by simpa using h202
      generalize hres : (Except.ok resp : Except Exc Response) = r at hsuf
      have hans := answers_of_ret hr hsuf hreq
      cases hans with
      | created n job hn hc hj hid =>
        exact inserts_of_created hr ((List.suffix_cons _ l).trans hsuf) hreq ⟨n, hn.id, hc⟩
      | found job hj hx hq =>
        cases hres
        simp only [replayOrConflict] at hs
        split at hs <;> cases hs
      | vanished n g hn hg hc =>
        cases hres
        cases hs
      | unread g hg hc => cases hres
    · cases h202

theorem answered_by_hash (hr : Run (system app) ok c) {r : Except Exc Response}
    (hreq : IsRequest app user key c.shared.log pid newId sub)
    (hret : .ret pid (.response r) ∈ c.shared.log) :
    ∃ row ∈ c.shared.world.jobs.rows, row.uqUserIdempotencyKey = some (user, key) ∧
      ∃ resp, r = .ok resp ∧
        (resp.status = 200 ∨ resp.status = 202 → ∃ a, resp.body = .accepted a ∧ a.id = row.id) ∧
        (row.idempotencyHash = some (app.canonicalHash sub.type sub.payload) →
          resp.status ≠ 409) ∧
        (row.idempotencyHash ≠ some (app.canonicalHash sub.type sub.payload) →
          resp.status = 409) := by
  have hI := submitInv hr
  obtain ⟨l₁, l, hlog⟩ := List.append_of_mem hret
  have hsuf : .ret pid (.response r) :: l <:+ c.shared.log := ⟨l₁, hlog.symm⟩
  have hl : l <:+ c.shared.log := (List.suffix_cons _ l).trans hsuf
  have hmem : ∀ {x : Reply Op Op.Res}, x ∈ own pid l → x ∈ own pid c.shared.log := fun hx =>
    mem_own.2 (hl.subset (mem_own.1 hx))
  cases answers_of_ret hr hsuf hreq with
  | created n job hn hc hj hid =>
    obtain ⟨row, hrow, hx, hrid, hhash⟩ :=
      hI.own_row hreq.proc hreq.keyed ⟨n, hn.id, hmem hc⟩
    refine ⟨row, hrow, hx, _, rfl, fun _ => ⟨_, rfl, hid.trans hrid.symm⟩, ?_, ?_⟩
    · exact fun _ h => (by cases h)
    · exact fun h => absurd hhash h
  | found job hj hjx hq =>
    obtain ⟨row, hf, hfix⟩ := hI.seen pid (.getByIdempotencyKey key user) (some job)
      (mem_own.1 (hmem hj)) job List.mem_cons_self
    have hhash : row.idempotencyHash = job.idempotencyHash :=
      congrArg (fun k => k.2.2.2.2.1) hfix
    have hid : row.id = job.id := Table.find?_key hf
    refine ⟨row, Table.find?_mem hf, (uq_of_fixed hfix).trans hjx, _, rfl, ?_⟩
    simp only [replayOrConflict, hhash]
    split
    · rename_i heq
      exact ⟨fun _ => ⟨_, rfl, hid.symm⟩, fun _ h => (by cases h), fun h => absurd heq h⟩
    · rename_i hne
      exact ⟨fun h => (by rcases h with h | h <;> cases h), fun h => absurd h hne, fun _ => rfl⟩
  | vanished n g hn hg hc =>
    exact absurd hc ((hI.finds l hl pid _ g hg).2 user key n rfl (hn.uq hreq.keyed))
  | unread g hg hc => exact absurd hc ((hI.finds l hl pid _ g hg).1 newId rfl)

/-- A submission whose hash is not the stored one changes neither the rows nor Redis. -/
theorem conflict_silent (hr : Run (system app) ok c) {ch : Choice Env Proc} {ev : Ev} {c' : Cfg}
    {row : Job} (hs : step (system app) c ch = some (ev, c'))
    (hreq : IsRequest app user key c.shared.log ev.pid newId sub)
    (hrow : row ∈ c'.shared.world.jobs.rows)
    (hx : row.uqUserIdempotencyKey = some (user, key))
    (hne : row.idempotencyHash ≠ some (app.canonicalHash sub.type sub.payload)) :
    c'.shared.world.jobs = c.shared.world.jobs ∧
      c'.shared.world.streams = c.shared.world.streams ∧
      c'.shared.world.delayed = c.shared.world.delayed := by
  obtain ⟨σ, hm, ht, hw, -⟩ :=
    hr.step_issued (fun _ _ _ _ _ he => exec_valid he) (body_emits app) hs
  have hI := (submitInv hr).move hm ht
  have hproc : proc? ev.pid σ.log = some (.submitJob user newId sub) := by
    rw [move_log hm]
    exact proc?_stays ht hreq.proc
  rw [hw] at hrow ⊢
  -- were the stored row its own, the hashes would agree
  have hown : ¬ Created (own ev.pid σ.log) newId := by
    intro hc
    obtain ⟨row', hrow', hx', -, hhash⟩ := hI.own_row hproc hreq.keyed hc
    exact hne (same_row hrow hrow' hx hx' ▸ hhash)
  have hbefore : ¬ Created (own ev.pid c.shared.log) newId := by
    rintro ⟨n, hid, hn⟩
    refine hown ⟨n, hid, mem_own.2 ?_⟩
    rw [move_log hm]
    exact List.mem_cons_of_mem _ (mem_own.1 hn)
  cases ev with
  | act pid o r =>
    obtain ⟨-, p, hp, hi⟩ := ht
    have hsub : proc? pid c.shared.log = some (.submitJob user newId sub) := hreq.proc
    rw [hsub, Option.some.injEq] at hp
    subst hp
    cases o with
    | createJob n =>
      cases r with
      | true =>
        refine absurd ⟨n, hi.1.id, mem_own.2 ?_⟩ hown
        rw [move_log hm]
        exact List.mem_cons_self
      | false =>
        exact ⟨(move_refused hm).1, move_streams hm (by simp) (by simp) (by simp) (by simp),
          move_delayed hm (by simp) (by simp)⟩
    | xadd s id => exact absurd (hi.1 ▸ hi.2.1) hbefore
    | zadd id t => exact absurd (hi.1 ▸ hi.2.1) hbefore
    | markSynced id =>
      obtain ⟨rfl, x, g, hg, -, n, hid, hn⟩ := hi
      rw [Event.pid_act, hg] at hbefore
      exact absurd ⟨n, hid, List.mem_cons_of_mem _ hn⟩ hbefore
    | getJob id u | getByIdempotencyKey k u | now =>
      cases hm with
      | act _ _ e he =>
        simp only [system, exec, Option.some.injEq, Prod.mk.injEq] at he
        obtain ⟨rfl, -⟩ := he
        exact ⟨rfl, rfl, rfl⟩
    | _ => exact absurd hi (by simp [issues, submitIssues])
  | _ =>
    cases hm
    exact ⟨rfl, rfl, rfl⟩

end Law

theorem keyLaw (app : App) (user : Uuid) (key : String) (c : Cfg)
    (hr : Reachable (system app) c) : KeyLaw app user key c where
  oneRow _ h₁ _ h₂ hx₁ hx₂ := same_row h₁ h₂ hx₁ hx₂
  oneHandoff := handed_once hr user key
  oneAccepted := accepted_once hr user key
  answered _ _ _ _ hreq hret := answered_by_hash hr hreq hret
  conflictSilent _ _ _ _ _ _ hs hreq hrow hx hne := conflict_silent hr hs hreq hrow hx hne

/-- Three submissions of user 7 with one key, two of them with the same payload, look
the key up before any of them inserts. -/
def keyRace : List (Choice Env Proc) := List.flatten
  [[.start (.submitJob 7 1 { type := .email, payload := .str "a", idempotencyKey := some "k" }),
    .start (.submitJob 7 2 { type := .email, payload := .str "a", idempotencyKey := some "k" }),
    .start (.submitJob 7 3 { type := .email, payload := .str "b", idempotencyKey := some "k" })],
    runs 0 1, runs 1 1, runs 2 1, runs 0 5, runs 1 3, runs 2 3]

def statusOf (pid : Nat) (l : List Ev) : Option Nat :=
  l.findSome? fun
    | .ret q (.response (.ok r)) => if q = pid then some r.status else none
    | _ => none

theorem keyLaw_race :
    ∃ c, Reachable (system defaultApp) c ∧ (statusOf 0 c.shared.log, statusOf 1 c.shared.log,
      statusOf 2 c.shared.log) = (some 202, some 200, some 409) ∧ KeyLaw defaultApp 7 "k" c := by
  obtain ⟨c, hc, hl⟩ := reachable_of_replay defaultApp keyRace
    (fun c => (statusOf 0 c.shared.log, statusOf 1 c.shared.log,
      statusOf 2 c.shared.log) == (some 202, some 200, some 409)) (by decide +kernel)
  exact ⟨c, hc, by simpa using hl, keyLaw defaultApp 7 "k" c hc⟩

end JobProcessor
