import JobProcessor.Proofs.Rows

/-! Tenants. A request reads and writes only what belongs to its user: the reads
are scoped by `user_id`, and every update by a bare id follows a scoped read, or
the insert, of that row. -/

namespace JobProcessor

open Interleave Prog Store

def Proc.user? : Proc → Option Uuid
  | .submitJob user _ _ => some user
  | .getJob user _ => some user
  | .retryJob user _ => some user
  | .cancelJobRoute user _ => some user
  | .listJobs user _ _ _ _ _ => some user
  | _ => none

def Proc.newId? : Proc → Option Uuid
  | .submitJob _ newId _ => some newId
  | _ => none

def Proc.jobId? : Proc → Option Uuid
  | .getJob _ jobId => some jobId
  | .retryJob _ jobId => some jobId
  | .cancelJobRoute _ jobId => some jobId
  | _ => none

def alone (app : App) (p : Proc) (env : Nat → Env) (w : World) : Option (World × Out) :=
  (body app p).eval (exec app.settings.workerConcurrency) env w

/-- The rows of `u` and their scores are the same in both worlds. -/
structure SameFor (u : Uuid) (w₁ w₂ : World) : Prop where
  rows : ∀ id row, row.userId = some u →
    (w₁.jobs.find? id = some row ↔ w₂.jobs.find? id = some row)
  scores : ∀ id row, w₁.jobs.find? id = some row → row.userId = some u →
    w₁.delayed.score? id = w₂.delayed.score? id

/-- Two worlds at the same instant that `u` cannot tell apart. -/
structure Agree (u : Uuid) (w₁ w₂ : World) : Prop extends SameFor u w₁ w₂ where
  clock : w₁.clock = w₂.clock

def Unused (w : World) (id : Uuid) : Prop :=
  w.jobs.find? id = none ∧ w.delayed.score? id = none

theorem SameFor.refl (u : Uuid) (w : World) : SameFor u w w := ⟨fun _ _ _ => Iff.rfl, fun _ _ _ _ => rfl⟩

theorem SameFor.symm {u : Uuid} {w₁ w₂ : World} (h : SameFor u w₁ w₂) : SameFor u w₂ w₁ where
  rows id row hu := (h.rows id row hu).symm
  scores id row hr hu := (h.scores id row ((h.rows id row hu).2 hr) hu).symm

theorem SameFor.trans {u : Uuid} {w₁ w₂ w₃ : World} (h : SameFor u w₁ w₂) (h' : SameFor u w₂ w₃) :
    SameFor u w₁ w₃ where
  rows id row hu := (h.rows id row hu).trans (h'.rows id row hu)
  scores id row hr hu :=
    (h.scores id row hr hu).trans (h'.scores id row ((h.rows id row hu).1 hr) hu)

/-! ### What a request may touch -/

/-- The process has seen that row `id` belongs to `u`: it has read it as `u`'s, or
inserted it. -/
def Holds (u : Uuid) (h : Hist) (id : Uuid) : Prop := Owned u id h ∨ Created h id

def Scoped (u : Uuid) (newId : Option Uuid) (h : Hist) : Op → Prop
  | .createJob n => n.userId = some u ∧ n.id ∈ newId ∧ ¬ Created h n.id
  | .getJob id v => v = some u ∨ v = none ∧ Holds u h id
  | .getByIdempotencyKey _ v => v = u
  | .listJobs f _ => f.userId = some u
  | .xadd _ id => Holds u h id
  | .zadd id _ => Holds u h id
  | .zrem ids => ∀ id ∈ ids, Holds u h id
  | .markSynced id => Holds u h id
  | .resetFailedToPending id => Holds u h id
  | .cancelPendingOrScheduled id => Holds u h id
  | .requestCancel id => Holds u h id
  | .now => True
  | _ => False

section Scope

variable {app : App} {u : Uuid} {newId : Option Uuid} {h : Hist} {o : Op}

theorem not_created_of_quiet {id : Uuid} (hq : Quiet h) : ¬ Created h id := by
  rintro ⟨n, -, hn⟩
  exact absurd (hq _ hn).1 (by simp [won])

theorem submit_scoped {id : Uuid} {sub : JobSubmission} (ho : submitIssues app u id sub h o) :
    Scoped u (some id) h o := by
  cases o <;> simp only [submitIssues] at ho <;> try exact ho.elim
  case createJob n => exact ⟨ho.1.userId, by simp [ho.1.id], not_created_of_quiet ho.2⟩
  case getJob => exact .inr ⟨ho.1, .inr ho.2.2⟩
  case getByIdempotencyKey => exact ho.1
  case xadd => exact .inr ho.2.1
  case zadd => exact .inr ho.2.1
  case markSynced =>
    obtain ⟨-, x, g, rfl, -, n, hid, hn⟩ := ho
    exact .inr ⟨n, hid, List.mem_cons_of_mem _ hn⟩
  case now => trivial

theorem retry_scoped {id : Uuid} (ho : retryJobIssues u id h o) : Scoped u newId h o := by
  cases o <;> simp only [retryJobIssues] at ho <;> try exact ho.elim
  case getJob =>
    obtain ⟨rfl, hv⟩ := ho
    exact hv.imp_right fun hv => ⟨hv.1, .inl hv.2⟩
  all_goals
    obtain ⟨rfl, ho⟩ := ho
    first
    | exact .inl ho
    | exact .inl ho.1

theorem cancel_scoped {id : Uuid} (ho : cancelIssues u id h o) : Scoped u newId h o := by
  cases o <;> simp only [cancelIssues] at ho <;> try exact ho.elim
  case getJob =>
    obtain ⟨rfl, hv⟩ := ho
    exact hv.imp_right fun hv => ⟨hv.1, .inl hv.2⟩
  case zrem =>
    obtain ⟨rfl, ho, -⟩ := ho
    intro i hi
    rw [List.mem_singleton] at hi
    exact hi ▸ .inl ho
  case now => trivial
  all_goals
    obtain ⟨rfl, ho⟩ := ho
    exact .inl ho

theorem request_scoped {p : Proc} (hp : p.user? = some u) (ho : issues app p h o) :
    Scoped u p.newId? h o := by
  cases p with
  | submitJob user id sub =>
    obtain rfl : user = u := by simpa [Proc.user?] using hp
    exact submit_scoped ho
  | getJob user id =>
    obtain rfl : user = u := by simpa [Proc.user?] using hp
    cases o <;> simp only [issues, readIssues] at ho
    exact .inl ho.2
  | retryJob user id =>
    obtain rfl : user = u := by simpa [Proc.user?] using hp
    exact retry_scoped ho
  | cancelJobRoute user id =>
    obtain rfl : user = u := by simpa [Proc.user?] using hp
    exact cancel_scoped ho
  | listJobs user =>
    obtain rfl : user = u := by simpa [Proc.user?] using hp
    cases o <;> simp only [issues, listIssues] at ho
    exact ho
  | _ => cases hp

theorem Scoped.writes (hs : Scoped u newId h o) : ∀ id ∈ o.writes, Holds u h id := by
  cases o <;> simp only [Scoped] at hs <;> simp only [Op.writes, List.not_mem_nil,
    List.mem_singleton] <;> first | exact hs | (rintro _ rfl; exact hs) | simp

end Scope

section Step

variable {u v : Uuid} {newId : Option Uuid} {h : Hist} {n : Nat} {o : Op} {e : Env}
  {w w' : World} {r : o.Res}

def Holder (u : Uuid) (h : Hist) (w : World) : Prop :=
  ∀ id, Holds u h id → ∃ row, w.jobs.find? id = some row ∧ row.userId = some u

theorem onRow_userId (now : Time) (row : Job) (o : Op) :
    (o.onRow now row).userId = row.userId :=
  congrArg Prod.fst (onRow_fixed now row o)

theorem Holder.step (hh : Holder u h w) (hs : Scoped u newId h o)
    (he : exec n o e w = some (w', r)) : Holder u (⟨o, r⟩ :: h) w' := by
  have hold : ∀ id, Holds u h id → ∃ row, w'.jobs.find? id = some row ∧ row.userId = some u := by
    intro id hid
    obtain ⟨row, hr, hu⟩ := hh id hid
    exact ⟨_, exec_row_some he hr, by rw [onRow_userId, hu]⟩
  rintro id (⟨job, hj⟩ | ⟨m, rfl, hm⟩)
  · rcases List.mem_cons.1 hj with hj | hj
    · obtain ⟨rfl, hr⟩ := Sigma.mk.inj hj
      cases hr
      simp only [exec, Option.some.injEq, Prod.mk.injEq] at he
      obtain ⟨rfl, hg⟩ := he
      obtain ⟨hr, hu⟩ := Repository.getJob_some hg
      exact ⟨job, hr, hu u rfl⟩
    · exact hold id (.inl ⟨job, hj⟩)
  · rcases List.mem_cons.1 hm with hm | hm
    · obtain ⟨rfl, hr⟩ := Sigma.mk.inj hm
      cases hr
      have hcr := exec_create he
      rw [if_pos rfl] at hcr
      exact ⟨m.row w'.clock, by rw [hcr.2.1, if_pos rfl], hs.1⟩
    · exact hold m.id (.inr ⟨m, rfl, hm⟩)

theorem exec_score_of_not_mem {j : Uuid} (he : exec n o e w = some (w', r))
    (hj : j ∉ o.writes) : w'.delayed.score? j = w.delayed.score? j := by
  rw [exec_score he j]
  cases o <;> simp_all [Op.writes]

/-- A request of another user leaves every row of `u` and its score as they are. -/
theorem SameFor.step (hv : v ≠ u) (hh : Holder v h w) (hs : Scoped v newId h o)
    (he : exec n o e w = some (w', r)) : SameFor u w w' := by
  have hout : ∀ id row, w.jobs.find? id = some row → row.userId = some u → id ∉ o.writes := by
    intro id row hr hu hid
    obtain ⟨row', hr', hu'⟩ := hh id (hs.writes id hid)
    rw [hr, Option.some.injEq] at hr'
    rw [← hr', hu, Option.some.injEq] at hu'
    exact hv hu'.symm
  have hkeep : ∀ id row, w.jobs.find? id = some row → row.userId = some u →
      w'.jobs.find? id = some row := by
    intro id row hr hu
    rw [exec_row_some he hr, onRow_of_not_mem]
    rw [Table.find?_key hr]
    exact hout id row hr hu
  refine ⟨fun id row hu => ⟨fun hr => hkeep id row hr hu, fun hr' => ?_⟩, fun id row hr hu => ?_⟩
  · cases hr : w.jobs.find? id with
    | some row₀ =>
      have hr₀ := exec_row_some he hr
      rw [hr', Option.some.injEq] at hr₀
      have hu₀ : row₀.userId = some u := by rw [← hu, hr₀, onRow_userId]
      rw [← hr', hkeep id row₀ hr hu₀]
    | none =>
      -- the row is new, so it is the one a submission of `v` has inserted
      rcases exec_row_none he hr with hn | ⟨m, rfl, -, rfl, hm⟩
      · rw [hn] at hr'
        cases hr'
      · rw [hm, Option.some.injEq] at hr'
        rw [← hr'] at hu
        exact absurd (Option.some.inj (hs.1.symm.trans hu)) hv
  · exact (exec_score_of_not_mem he (hout id row hr hu)).symm

end Step

/-! ### Replies in worlds that agree -/

section Replies

variable {u : Uuid} {w₁ w₂ : World}

theorem SameFor.mem_iff (ha : SameFor u w₁ w₂) {row : Job} (hu : row.userId = some u) :
    row ∈ w₁.jobs.rows ↔ row ∈ w₂.jobs.rows := by
  rw [Table.mem_rows_iff, Table.mem_rows_iff]
  exact ha.rows row.id row hu

theorem getJob_scoped (ha : SameFor u w₁ w₂) (id : Uuid) :
    Repository.getJob w₁.jobs id (some u) = Repository.getJob w₂.jobs id (some u) := by
  apply Option.ext
  intro row
  simp only [Repository.getJob, Option.filter_eq_some_iff, decide_eq_true_eq]
  exact and_congr_left fun hu => ha.rows id row hu

theorem getByIdempotencyKey_iff {t : Jobs} {k : String} {row : Job} :
    Repository.getByIdempotencyKey t k u = some row ↔
      row ∈ t.rows ∧ row.uqUserIdempotencyKey = some (u, k) := by
  constructor
  · intro h
    obtain ⟨hf, hq⟩ := Repository.getByIdempotencyKey_some h
    exact ⟨Table.find?_mem hf, hq⟩
  · rintro ⟨hm, hq⟩
    cases hg : Repository.getByIdempotencyKey t k u with
    | none => exact absurd hq (Repository.getByIdempotencyKey_none hg row hm)
    | some row' =>
      obtain ⟨hf, hq'⟩ := Repository.getByIdempotencyKey_some hg
      rw [Table.index_unique (Table.find?_mem hf) hm hq' hq]

theorem userId_of_uq {row : Job} {k : String} (h : row.uqUserIdempotencyKey = some (u, k)) :
    row.userId = some u := by
  unfold Job.uqUserIdempotencyKey at h
  split at h
  · rename_i hu _
    rw [Option.some.injEq, Prod.mk.injEq] at h
    rw [hu, h.1]
  · cases h

theorem getByIdempotencyKey_scoped (ha : SameFor u w₁ w₂) (k : String) :
    Repository.getByIdempotencyKey w₁.jobs k u = Repository.getByIdempotencyKey w₂.jobs k u := by
  apply Option.ext
  intro row
  rw [getByIdempotencyKey_iff, getByIdempotencyKey_iff]
  exact and_congr_left fun hq => ha.mem_iff (userId_of_uq hq)

/-- The page depends only on which rows match, not on how the table stores them. -/
theorem listJobs_scoped (ha : SameFor u w₁ w₂) {f : Repository.Filter} (hf : f.userId = some u)
    (limit : Nat) :
    Repository.listJobs w₁.jobs f limit = Repository.listJobs w₂.jobs f limit := by
  have hnd : ∀ t : Jobs, (t.rows.filter f.matches).Nodup := fun t =>
    (List.Nodup.of_map _ t.key_nodup).filter _
  have howner : ∀ row, f.matches row = true → row.userId = some u := by
    intro row hm
    simp only [Repository.Filter.matches, hf, Bool.and_eq_true, Option.all_some,
      decide_eq_true_eq] at hm
    exact hm.1.2
  have hperm : (w₁.jobs.rows.filter f.matches).Perm (w₂.jobs.rows.filter f.matches) := by
    rw [List.perm_ext_iff_of_nodup (hnd _) (hnd _)]
    intro row
    rw [List.mem_filter, List.mem_filter]
    exact and_congr_left fun hm => ha.mem_iff (howner row hm)
  rw [Repository.listJobs_orderBy, Repository.listJobs_orderBy,
    orderBy_perm hperm (Repository.nodup_standing_filter w₁.jobs f.matches)]

/-- Whether an insert for `u` breaks a constraint is a matter of `u`'s own rows. -/
theorem Fits.of_same (ha : SameFor u w₁ w₂) {row : Job} (hu : row.userId = some u)
    (hn : w₂.jobs.find? row.id = none) (hf : w₁.jobs.Fits row) : w₂.jobs.Fits row := by
  refine ⟨Table.find?_eq_none_iff.1 hn, ?_⟩
  rintro ⟨v, k⟩ hk hm
  obtain ⟨row', hr', hk'⟩ := List.mem_filterMap.1 hm
  obtain rfl : v = u := by
    have hv := userId_of_uq hk
    rw [hu, Option.some.injEq] at hv
    exact hv.symm
  have hr₁ := (ha.mem_iff (userId_of_uq hk')).2 hr'
  exact hf.2 (v, k) hk (List.mem_filterMap.2 ⟨row', hr₁, hk'⟩)

variable {n : Nat} {e : Env} {h : Hist} {o : Op} {newId : Option Uuid}
  {w₁' w₂' : World} {r₁ r₂ : o.Res}

theorem won_of_same (ha : SameFor u w₁ w₂) (hh : Holder u h w₁)
    (hg : ∀ row, o.guard row = true → Holds u h row.id) (hc : ∀ m, o ≠ .createJob m)
    (h₁ : exec n o e w₁ = some (w₁', r₁)) (h₂ : exec n o e w₂ = some (w₂', r₂))
    (hw : won o r₁ = true) : won o r₂ = true := by
  obtain ⟨j, row, hr, hgd⟩ := (exec_won h₁ hc).1 hw
  obtain ⟨row', hr', hu⟩ := hh row.id (hg row hgd)
  rw [Table.find?_key hr, hr, Option.some.injEq] at hr'
  rw [← hr'] at hu
  exact (exec_won h₂ hc).2 ⟨j, row, (ha.rows j row hu).1 hr, hgd⟩

theorem won_eq (ha : SameFor u w₁ w₂) (hh₁ : Holder u h w₁) (hh₂ : Holder u h w₂)
    (hg : ∀ row, o.guard row = true → Holds u h row.id) (hc : ∀ m, o ≠ .createJob m)
    (h₁ : exec n o e w₁ = some (w₁', r₁)) (h₂ : exec n o e w₂ = some (w₂', r₂)) :
    won o r₁ = won o r₂ := by
  rw [Bool.eq_iff_iff]
  exact ⟨won_of_same ha hh₁ hg hc h₁ h₂, won_of_same ha.symm hh₂ hg hc h₂ h₁⟩

theorem created_of_same {m : Repository.NewJob} {b₁ b₂ : Bool} (ha : Agree u w₁ w₂)
    (hu : m.userId = some u) (hn : w₂.jobs.find? m.id = none)
    (h₁ : exec n (.createJob m) e w₁ = some (w₁', b₁))
    (h₂ : exec n (.createJob m) e w₂ = some (w₂', b₂)) (hb : b₁ = true) : b₂ = true := by
  have hclock : w₁'.clock = w₂'.clock := by rw [exec_clock h₁, exec_clock h₂, ha.clock]
  by_contra hb₂
  have hc₂ := exec_create h₂
  rw [if_neg hb₂] at hc₂
  refine hc₂.2 (Fits.of_same ha.toSameFor hu hn ?_)
  simp only [exec] at h₁
  split at h₁
  · rename_i t ht
    simp only [Option.some.injEq, Prod.mk.injEq] at h₁
    by_contra hf
    have hnone := Table.insert?_eq_none.2 hf
    rw [← hclock, ← h₁.1] at hnone
    unfold Repository.createJob at ht
    rw [hnone] at ht
    cases ht
  · cases h₁
    cases hb

theorem reply_eq (ha : Agree u w₁ w₂) (hh₁ : Holder u h w₁) (hh₂ : Holder u h w₂)
    (hf : ∀ id ∈ newId, ¬ Created h id → Unused w₁ id ∧ Unused w₂ id)
    (hs : Scoped u newId h o) (h₁ : exec n o e w₁ = some (w₁', r₁))
    (h₂ : exec n o e w₂ = some (w₂', r₂)) : r₁ = r₂ := by
  have hsame := ha.toSameFor
  cases o <;> simp only [Scoped] at hs
  case createJob m =>
    obtain ⟨hu, hid, hnc⟩ := hs
    obtain ⟨hn₁, hn₂⟩ := hf m.id hid hnc
    have ha' : Agree u w₂ w₁ := ⟨hsame.symm, ha.clock.symm⟩
    rw [Bool.eq_iff_iff]
    exact ⟨created_of_same ha hu hn₂.1 h₁ h₂, created_of_same ha' hu hn₁.1 h₂ h₁⟩
  case getJob id v =>
    simp only [exec, Option.some.injEq, Prod.mk.injEq] at h₁ h₂
    rw [← h₁.2, ← h₂.2]
    rcases hs with rfl | ⟨rfl, hid⟩
    · exact getJob_scoped hsame id
    · obtain ⟨row, hr, hu⟩ := hh₁ id hid
      change w₁.jobs.find? id = w₂.jobs.find? id
      rw [hr, (hsame.rows id row hu).1 hr]
  case getByIdempotencyKey k v =>
    simp only [exec, Option.some.injEq, Prod.mk.injEq] at h₁ h₂
    rw [← h₁.2, ← h₂.2, hs]
    exact getByIdempotencyKey_scoped hsame k
  case listJobs f limit =>
    simp only [exec, Option.some.injEq, Prod.mk.injEq] at h₁ h₂
    rw [← h₁.2, ← h₂.2]
    exact listJobs_scoped hsame hs limit
  case now =>
    simp only [exec, Option.some.injEq, Prod.mk.injEq] at h₁ h₂
    rw [← h₁.2, ← h₂.2, ha.clock]
  case resetFailedToPending id =>
    exact won_eq (o := .resetFailedToPending id) hsame hh₁ hh₂
      (fun row hg => by simp_all [Op.guard]) (by simp) h₁ h₂
  case cancelPendingOrScheduled id =>
    exact won_eq (o := .cancelPendingOrScheduled id) hsame hh₁ hh₂
      (fun row hg => by simp_all [Op.guard]) (by simp) h₁ h₂
  case requestCancel id =>
    exact won_eq (o := .requestCancel id) hsame hh₁ hh₂
      (fun row hg => by simp_all [Op.guard]) (by simp) h₁ h₂
  all_goals rfl

end Replies

/-! ### Two worlds side by side -/

section Pair

variable {u : Uuid} {w w' w₁ w₂ w₁' w₂' : World} {n : Nat} {e : Env} {h : Hist} {o : Op}
  {newId : Option Uuid} {r : o.Res}

theorem rows_of_same {id : Uuid} {row : Job} (ha : Agree u w₁ w₂) (hu : row.userId = some u)
    (h₁ : exec n o e w₁ = some (w₁', r)) (h₂ : exec n o e w₂ = some (w₂', r))
    (hr : w₁'.jobs.find? id = some row) : w₂'.jobs.find? id = some row := by
  have hclock : w₁'.clock = w₂'.clock := by rw [exec_clock h₁, exec_clock h₂, ha.clock]
  cases hr₀ : w₁.jobs.find? id with
  | some row₀ =>
    have hr₁ := exec_row_some h₁ hr₀
    rw [hr, Option.some.injEq] at hr₁
    have hu₀ : row₀.userId = some u := by rw [← hu, hr₁, onRow_userId]
    rw [exec_row_some h₂ ((ha.rows id row₀ hu₀).1 hr₀), ← hclock, hr₁]
  | none =>
    rcases exec_row_none h₁ hr₀ with hn | ⟨m, rfl, hw, rfl, hm⟩
    · rw [hn] at hr
      cases hr
    · have hc₂ := exec_create h₂
      rw [if_pos (show r = true from hw)] at hc₂
      rw [hc₂.2.1, if_pos rfl, ← hclock, ← hm, hr]

theorem Unused.step {id : Uuid} (hh : Holder u h w) (hf : Unused w id) (hs : Scoped u newId h o)
    (hc : ¬ Created (⟨o, r⟩ :: h) id) (he : exec n o e w = some (w', r)) : Unused w' id := by
  constructor
  · rcases exec_row_none he hf.1 with hn | ⟨m, rfl, hw, hid, -⟩
    · exact hn
    · change r = true at hw
      subst hw
      exact absurd ⟨m, hid, List.mem_cons_self⟩ hc
  · rw [exec_score_of_not_mem he, hf.2]
    intro hid
    obtain ⟨row, hr, -⟩ := hh id (hs.writes id hid)
    rw [hf.1] at hr
    cases hr

/-- What holds of the two worlds while a request of `u` runs in both. -/
structure Paired (u : Uuid) (newId : Option Uuid) (h : Hist) (w₁ w₂ : World) : Prop where
  agree : Agree u w₁ w₂
  left : Holder u h w₁
  right : Holder u h w₂
  fresh : ∀ id ∈ newId, ¬ Created h id → Unused w₁ id ∧ Unused w₂ id

theorem Agree.step (hp : Paired u newId h w₁ w₂) (hs : Scoped u newId h o)
    (h₁ : exec n o e w₁ = some (w₁', r)) (h₂ : exec n o e w₂ = some (w₂', r)) :
    Agree u w₁' w₂' where
  clock := by rw [exec_clock h₁, exec_clock h₂, hp.agree.clock]
  rows id row hu := ⟨rows_of_same hp.agree hu h₁ h₂,
    rows_of_same ⟨hp.agree.symm, hp.agree.clock.symm⟩ hu h₂ h₁⟩
  scores id row hr hu := by
    have hbefore : w₁.delayed.score? id = w₂.delayed.score? id := by
      cases hr₀ : w₁.jobs.find? id with
      | some row₀ =>
        have hr₁ := exec_row_some h₁ hr₀
        rw [hr, Option.some.injEq] at hr₁
        exact hp.agree.scores id row₀ hr₀ (by rw [← hu, hr₁, onRow_userId])
      | none =>
        -- a fresh id has no score yet on either side
        rcases exec_row_none h₁ hr₀ with hn | ⟨m, rfl, -, rfl, -⟩
        · rw [hn] at hr
          cases hr
        · obtain ⟨hn₁, hn₂⟩ := hp.fresh m.id hs.2.1 hs.2.2
          rw [hn₁.2, hn₂.2]
    rw [exec_score h₁, exec_score h₂]
    cases o <;> simp only [hbefore]

theorem exec_scoped (hs : Scoped u newId h o) (e : Env) (w : World) :
    ∃ w' r, exec n o e w = some (w', r) := by
  apply exec_total
  rintro c rfl
  exact hs

theorem Paired.step (hp : Paired u newId h w₁ w₂) (hs : Scoped u newId h o) (e : Env) :
    ∃ w₁' w₂' r, exec n o e w₁ = some (w₁', r) ∧ exec n o e w₂ = some (w₂', r) ∧ Valid o r ∧
      Paired u newId (⟨o, r⟩ :: h) w₁' w₂' := by
  obtain ⟨w₁', r₁, h₁⟩ := exec_scoped (n := n) hs e w₁
  obtain ⟨w₂', r₂, h₂⟩ := exec_scoped (n := n) hs e w₂
  obtain rfl := reply_eq hp.agree hp.left hp.right hp.fresh hs h₁ h₂
  refine ⟨w₁', w₂', r₁, h₁, h₂, exec_valid h₁, Agree.step hp hs h₁ h₂, hp.left.step hs h₁,
    hp.right.step hs h₂, fun id hid hc => ?_⟩
  have hc₀ : ¬ Created h id := fun ⟨m, hm, hmem⟩ => hc ⟨m, hm, List.mem_cons_of_mem _ hmem⟩
  obtain ⟨hn₁, hn₂⟩ := hp.fresh id hid hc₀
  exact ⟨hn₁.step hp.left hs hc h₁, hn₂.step hp.right hs hc h₂⟩

end Pair

theorem Holder.nil (u : Uuid) (w : World) : Holder u [] w := by
  rintro id (⟨job, hj⟩ | ⟨m, -, hm⟩)
  · cases hj
  · cases hm

/-- A request of `u` answers alike in worlds that agree for `u`, and leaves such worlds. -/
theorem answers_alike {app : App} {u : Uuid} {p : Proc} (hp : p.user? = some u)
    (env : Nat → Env) {w₁ w₂ : World} (ha : Agree u w₁ w₂)
    (hf : ∀ id ∈ p.newId?, Unused w₁ id ∧ Unused w₂ id) :
    ∃ out w₁' w₂', alone app p env w₁ = some (w₁', out) ∧ alone app p env w₂ = some (w₂', out) ∧
      Agree u w₁' w₂' := by
  have h0 : Paired u p.newId? [] w₁ w₂ := ⟨ha, .nil u w₁, .nil u w₂, fun id hid _ => hf id hid⟩
  obtain ⟨g, w₁', w₂', out, h₁, h₂, -, hP⟩ := (body_emits app p).eval_pair
    (fun h o e _ _ ho hP => hP.step (request_scoped hp ho) e) env h0
  exact ⟨out, w₁', w₂', h₁, h₂, hP.agree⟩

theorem leaves_alone {app : App} {u v : Uuid} {p : Proc} (hp : p.user? = some v) (hv : v ≠ u)
    (env : Nat → Env) (w : World) :
    ∃ w' out, alone app p env w = some (w', out) ∧ SameFor u w w' := by
  have hstep : ∀ h o e w₁, issues app p h o → Holder v h w₁ ∧ SameFor u w w₁ →
      ∃ w₁' r, exec app.settings.workerConcurrency o e w₁ = some (w₁', r) ∧ Valid o r ∧
        Holder v (⟨o, r⟩ :: h) w₁' ∧ SameFor u w w₁' := by
    rintro h o e w₁ ho ⟨hh, hS⟩
    have hs := request_scoped hp ho
    obtain ⟨w₁', r, he⟩ := exec_scoped (n := app.settings.workerConcurrency) hs e w₁
    exact ⟨w₁', r, he, exec_valid he, hh.step hs he, hS.trans (SameFor.step hv hh hs he)⟩
  obtain ⟨g, w', out, he, -, -, hS⟩ :=
    (body_emits app p).eval_inv hstep env ⟨.nil v w, .refl u w⟩
  exact ⟨w', out, he, hS⟩

theorem answers_notFound {app : App} {u id : Uuid} {p : Proc} (hp : p.user? = some u)
    (hid : p.jobId? = some id) (env : Nat → Env) {w : World}
    (hw : ∀ row, w.jobs.find? id = some row → row.userId ≠ some u) :
    ∃ w', alone app p env w = some (w', .response (.ok notFound)) := by
  have hnone : Repository.getJob w.jobs id (some u) = none := by
    rw [Option.eq_none_iff_forall_ne_some]
    intro row hr
    obtain ⟨hf, hu⟩ := Repository.getJob_some hr
    exact hw row hf (hu u rfl)
  cases p <;> simp only [Proc.jobId?, Option.some.injEq, reduceCtorEq] at hid <;>
    (simp only [Proc.user?, Option.some.injEq] at hp; subst hid hp)
  case getJob => exact ⟨_, by simp [alone, body, getJobRoute, perform, eval, exec, hnone]; rfl⟩
  case retryJob => exact ⟨_, by simp [alone, body, retryJob, perform, eval, exec, hnone]; rfl⟩
  case cancelJobRoute =>
    exact ⟨_, by simp [alone, body, cancelJobRoute, perform, eval, exec, hnone]; rfl⟩

/-! ### The same in every run -/

theorem run_holder {app : App} {c : Cfg} (hr : Reachable (system app) c) {pid : Nat} {p : Proc}
    {v : Uuid} (hp : proc? pid c.shared.log = some p) (hv : p.user? = some v) :
    Holder v (own pid c.shared.log) c.shared.world := by
  rintro id (⟨job, hj⟩ | ⟨n, rfl, hn⟩)
  · have hev := mem_own.1 hj
    obtain ⟨hid, hu⟩ := recorded_valid hr pid _ _ hev job rfl
    obtain ⟨row, hrow, hfix⟩ := remembered hr pid _ _ hev job List.mem_cons_self
    exact ⟨row, hid ▸ hrow, (congrArg Prod.fst hfix).trans (hu v rfl)⟩
  · have hev := mem_own.1 hn
    obtain ⟨l₁, l₂, hl⟩ := List.append_of_mem hev
    obtain ⟨p', hp', hi⟩ := (run_recorded hr).1 pid _ _ l₂ ⟨l₁, hl.symm⟩
    obtain ⟨user, newId, sub, rfl, hnew, -⟩ := issues_createJob hi
    obtain ⟨row, hrow, hfix⟩ := (remembered hr).created hev
    rw [hp, Option.some.injEq] at hp'
    subst hp'
    exact ⟨row, hrow, (congrArg Prod.fst hfix).trans (hnew.userId.trans hv)⟩

theorem step_sameFor {app : App} {c c' : Cfg} {ch : Choice Env Proc} {ev : Ev}
    (hr : Reachable (system app) c) (hs : step (system app) c ch = some (ev, c')) {p : Proc}
    {u v : Uuid} (hp : proc? ev.pid c.shared.log = some p) (hv : p.user? = some v) (hne : v ≠ u) :
    SameFor u c.shared.world c'.shared.world := by
  obtain ⟨σ, hm, ht, hw, -⟩ :=
    hr.step_issued (fun _ _ _ _ _ he => exec_valid he) (body_emits app) hs
  rw [hw]
  cases hm with
  | act pid o e he =>
    obtain ⟨-, p', hp', hi⟩ := ht
    rw [Event.pid_act, hp', Option.some.injEq] at hp
    subst hp
    exact SameFor.step hne (run_holder hr hp' hv) (request_scoped hv hi) he
  | _ => exact .refl u _

/-! ### Tenant isolation -/

/-- What user `u` is promised: the answers to `u`'s requests and the rows they leave
do not depend on other users' rows, requests of others do not change `u`'s rows or
scores, neither alone nor at any step of any run, and a foreign job is not found. -/
structure Isolated (app : App) (u : Uuid) : Prop where
  answers : ∀ p env w₁ w₂, p.user? = some u → Agree u w₁ w₂ →
    (∀ id ∈ p.newId?, Unused w₁ id ∧ Unused w₂ id) →
      ∃ out w₁' w₂', alone app p env w₁ = some (w₁', out) ∧
        alone app p env w₂ = some (w₂', out) ∧ Agree u w₁' w₂'
  untouched : ∀ p v env w, p.user? = some v → v ≠ u →
    ∃ w' out, alone app p env w = some (w', out) ∧ SameFor u w w'
  untouchedInRuns : ∀ c, Reachable (system app) c → ∀ ch ev c' p v,
    step (system app) c ch = some (ev, c') → proc? ev.pid c.shared.log = some p →
      p.user? = some v → v ≠ u → SameFor u c.shared.world c'.shared.world
  foreign : ∀ p id env w, p.user? = some u → p.jobId? = some id →
    (∀ row, w.jobs.find? id = some row → row.userId ≠ some u) →
      ∃ w', alone app p env w = some (w', .response (.ok notFound))

theorem tenant_isolation (app : App) (u : Uuid) : Isolated app u where
  answers _ env _ _ hp ha hf := answers_alike hp env ha hf
  untouched _ _ env w hp hv := leaves_alone hp hv env w
  untouchedInRuns _ hr _ _ _ _ _ hs hp hv hne := step_sameFor hr hs hp hv hne
  foreign _ _ env _ hp hid hw := answers_notFound hp hid env hw

def foreignJob : World :=
  { World.init with
    jobs := ⟨[Repository.NewJob.row { id := 1, type := .email, payload := .null, userId := some 8 } 0],
      by decide, by decide⟩ }

/-- User 7 submits job 2 and cannot tell whether user 8 has a job. -/
theorem tenant_isolation_foreignJob :
    Agree 7 World.init foreignJob ∧ Unused World.init 2 ∧ Unused foreignJob 2 ∧
      ∃ out w₁ w₂,
        alone defaultApp (.submitJob 7 2 { type := .email, payload := .null }) (fun _ => {})
          World.init = some (w₁, out) ∧
        alone defaultApp (.submitJob 7 2 { type := .email, payload := .null }) (fun _ => {})
          foreignJob = some (w₂, out) ∧ Agree 7 w₁ w₂ := by
  have ha : Agree 7 World.init foreignJob := by
    refine ⟨⟨fun id row hu => ⟨fun hr => (nomatch hr), fun hr => ?_⟩, fun _ _ hr => (nomatch hr)⟩, rfl⟩
    have hm := Table.find?_mem hr
    simp only [foreignJob, List.mem_singleton] at hm
    subst hm
    exact absurd hu (by decide)
  refine ⟨ha, ⟨rfl, rfl⟩, ⟨by decide, rfl⟩, (tenant_isolation defaultApp 7).answers _ _ _ _ rfl ha ?_⟩
  rintro id hid
  obtain rfl : 2 = id := by simpa [Proc.newId?] using hid
  exact ⟨⟨rfl, rfl⟩, ⟨by decide, rfl⟩⟩

end JobProcessor
