import JobProcessor.Proofs.Cursor
import JobProcessor.Proofs.Effects
import JobProcessor.Store.Keyset

/-! Following `next_cursor` loses nothing and repeats nothing, whatever other requests
insert and update between two pages. -/

namespace JobProcessor

open Codec Codec.Unicode Codec.Json Codec.Datetime Store OrderDual
open Repository (standing nodup_standing_filter)

/-- A stored instant comes out of the driver in UTC, and goes back in as it was. -/
def Driver.Carries (d : Driver) (t : Time) : Prop :=
  (d.toDatetime t).fields.offset = some 0 ∧ d.toTime (d.toDatetime t) = t

/-- What inserts and updates leave as it was: a row stays, with its id, its owner and the
time of its creation. -/
def Keeps (t t' : Jobs) : Prop :=
  ∀ r ∈ t.rows, ∃ r' ∈ t'.rows, r'.id = r.id ∧ r'.createdAt = r.createdAt ∧ r'.userId = r.userId

theorem Keeps.refl (t : Jobs) : Keeps t t := fun r hr => ⟨r, hr, rfl, rfl, rfl⟩

theorem Keeps.trans {t t' t'' : Jobs} (h : Keeps t t') (h' : Keeps t' t'') : Keeps t t'' := by
  intro r hr
  obtain ⟨r', hr', hid, hcreated, huser⟩ := h r hr
  obtain ⟨r'', hr'', hid', hcreated', huser'⟩ := h' r' hr'
  exact ⟨r'', hr'', hid'.trans hid, hcreated'.trans hcreated, huser'.trans huser⟩

theorem exec_keeps {n : Nat} {o : Op} {e : Env} {w w' : World} {r : o.Res}
    (h : exec n o e w = some (w', r)) : Keeps w.jobs w'.jobs := by
  intro row hrow
  have hfind := exec_row_some h (Table.find?_of_mem hrow)
  have hkey := onRow_key w'.clock row o
  have huser := congrArg Prod.fst (onRow_fixed w'.clock row o)
  exact ⟨_, Table.find?_mem hfind, hkey.1, hkey.2, huser⟩

theorem leads_keeps {app : App} {c c' : Cfg} (h : Interleave.Leads (system app) c c') :
    Keeps c.shared.world.jobs c'.shared.world.jobs := by
  induction h with
  | refl => exact .refl _
  | step _ hstep ih =>
    obtain ⟨p, -, -, rfl⟩ | ⟨pid, a, -, -, rfl⟩ | ⟨pid, o, k, e, w, r, -, hexec, -, hc⟩ |
      ⟨pid, left, -, -, rfl⟩ := Interleave.step_cases hstep
    · exact ih
    · exact ih
    · have hworld : Keeps c.shared.world.jobs w.jobs := ih.trans (exec_keeps hexec)
      rcases hc with ⟨-, rfl⟩ | ⟨p, -, rfl⟩
      · exact hworld
      · exact hworld
    · exact ih

def wanted (q : Repository.Filter) (r : Job) : Bool :=
  ({ q with before := none } : Repository.Filter).matches r

def listJobsOn (app : App) (q : Repository.Filter) (limit : Nat) (t : Jobs)
    (cursor : Option String) : Except Exc (List Job × Option String) := do
  let before ← cursorBound app cursor
  .ok (page app (Repository.listJobs t { q with before := before } limit) limit)

theorem listJobsRoute_listJobsOn (app : App) (user : Uuid) (status : Option JobStatus)
    (type : Option JobType) (priority : Option JobPriority) (limit : Nat) (cursor : Option String)
    (t : Jobs) {rows : List Job} {next : Option String}
    (h : listJobsOn app ⟨status, type, priority, some user, none⟩ limit t cursor = .ok (rows, next)) :
    ∃ f k, listJobsRoute app user status type priority limit cursor = .act (.listJobs f limit) k ∧
      k (Repository.listJobs t f limit) =
        .pure (.ok ⟨200, .jobs (rows.map JobOut.ofJob) next⟩) := by
  rw [listJobsRoute]
  rw [listJobsOn] at h
  rcases hb : cursorBound app cursor with exc | before
  · rw [hb] at h
    cases h
  · rw [hb] at h
    obtain ⟨rfl, rfl⟩ := Prod.mk.inj (Except.ok.inj h)
    exact ⟨_, _, rfl, rfl⟩

section Walk

variable (app : App) (q : Repository.Filter) (limit : Nat) (tables : Nat → Jobs)

/-- The answer to request `n` of a walk, which finds the table `tables n`; `none` if an
earlier answer had no cursor to go on with. -/
def walk : Nat → Option (Except Exc (List Job × Option String))
  | 0 => some (listJobsOn app q limit (tables 0) none)
  | n + 1 =>
    match walk n with
    | some (.ok (_, some cursor)) => some (listJobsOn app q limit (tables (n + 1)) (some cursor))
    | _ => none

def answerRows : Option (Except Exc (List Job × Option String)) → List Job
  | some (.ok (rows, _)) => rows
  | _ => []

def listed : Nat → List Job
  | 0 => []
  | n + 1 => listed n ++ answerRows (walk app q limit tables n)

end Walk

/-! ### One request -/

def listing (q : Repository.Filter) (t : Jobs) : List Job := orderBy standing (t.rows.filter (wanted q))

theorem mem_listing {q : Repository.Filter} {t : Jobs} {r : Job} :
    r ∈ listing q t ↔ r ∈ t.rows ∧ wanted q r = true := by
  rw [listing, mem_orderBy, List.mem_filter]

theorem listing_sorted (q : Repository.Filter) (t : Jobs) :
    (listing q t).Pairwise fun a b => standing a < standing b :=
  orderBy_sorted (nodup_standing_filter t (wanted q))

def keyOf (u : (Time ×ₗ Uuid)ᵒᵈ) : Time × Uuid := ofLex (ofDual u)

theorem matches_eq (q : Repository.Filter) (b : Option (Time ×ₗ Uuid)ᵒᵈ) (r : Job) :
    ({ q with before := b.map keyOf } : Repository.Filter).matches r =
      (wanted q r && b.all (· < standing r)) := by
  have hlt : ∀ u, Repository.keyLt (r.createdAt, r.id) (keyOf u) = decide (u < standing r) := by
    intro u
    rw [Bool.eq_iff_iff, Repository.keyLt_iff, decide_eq_true_eq]
    exact Iff.rfl
  cases b with
  | none => simp [wanted, Repository.Filter.matches]
  | some u => simp [wanted, Repository.Filter.matches, hlt]

/-- The statement reads, of the rows in order, the first behind the bound. -/
theorem listJobs_eq (q : Repository.Filter) (t : Jobs) (b : Option (Time ×ₗ Uuid)ᵒᵈ) (limit : Nat) :
    Repository.listJobs t { q with before := b.map keyOf } limit =
      (Keyset.rest standing b (listing q t)).take (limit + 1) := by
  have hfilter : t.rows.filter ({ q with before := b.map keyOf } : Repository.Filter).matches =
      (t.rows.filter (wanted q)).filter fun r => b.all (· < standing r) := by
    rw [List.filter_filter]
    apply List.filter_congr
    intro r _
    rw [matches_eq, Bool.and_comm]
  rw [Repository.listJobs_orderBy, hfilter, Keyset.rest, listing,
    ← orderBy_filter (nodup_standing_filter t (wanted q))]

def cursorOf (app : App) (u : (Time ×ₗ Uuid)ᵒᵈ) : String :=
  encodeCursor (app.driver.toDatetime (keyOf u).1) (keyOf u).2

theorem cursorBound_cursorOf {app : App} {b : Option (Time ×ₗ Uuid)ᵒᵈ}
    (hb : ∀ u, b = some u → app.driver.Carries (keyOf u).1) :
    cursorBound app (b.map (cursorOf app)) = .ok (b.map keyOf) := by
  cases b with
  | none => rfl
  | some u =>
    obtain ⟨hutc, hback⟩ := hb u rfl
    have hsafe : ¬ OffsetUnderSecond (app.driver.toDatetime (keyOf u).1) := by
      rintro ⟨o, ho, hne, -⟩
      rw [hutc, Option.some.injEq] at ho
      exact hne ho.symm
    have hdecode := (decodeCursor_encode_iff _ (keyOf u).2).2 hsafe
    rw [Option.map_some, cursorBound, cursorOf, hdecode, Except.map, hback]
    rfl

theorem page_eq (app : App) (q : Repository.Filter) (t : Jobs) (b : Option (Time ×ₗ Uuid)ᵒᵈ)
    (limit : Nat) : page app ((Keyset.rest standing b (listing q t)).take (limit + 1)) limit =
      ((Keyset.page standing limit (listing q t) b).1,
        (Keyset.page standing limit (listing q t) b).2.map (cursorOf app)) := by
  have htake : ((Keyset.rest standing b (listing q t)).take (limit + 1)).take limit =
      (Keyset.rest standing b (listing q t)).take limit := by
    rw [List.take_take, Nat.min_eq_left (Nat.le_succ limit)]
  rw [page, Keyset.page, List.length_take, htake]
  by_cases hlen : limit < (Keyset.rest standing b (listing q t)).length
  · rw [if_pos hlen, if_pos (by omega), Option.map_map]
    rfl
  · rw [if_neg hlen, if_neg (by omega), List.take_of_length_le (by omega)]
    rfl

theorem listJobsOn_eq {app : App} {b : Option (Time ×ₗ Uuid)ᵒᵈ}
    (hb : ∀ u, b = some u → app.driver.Carries (keyOf u).1) (q : Repository.Filter) (limit : Nat)
    (t : Jobs) : listJobsOn app q limit t (b.map (cursorOf app)) =
      .ok ((Keyset.page standing limit (listing q t) b).1,
        (Keyset.page standing limit (listing q t) b).2.map (cursorOf app)) := by
  rw [listJobsOn, cursorBound_cursorOf hb]
  exact congrArg Except.ok ((congrArg (page app · limit) (listJobs_eq q t b limit)).trans
    (page_eq app q t b limit))

/-! ### The walk -/

section Run

variable {app : App} {q : Repository.Filter} {limit : Nat} {tables : Nat → Jobs}

def listings (q : Repository.Filter) (tables : Nat → Jobs) (n : Nat) : List Job := listing q (tables n)

section Carried

variable (hdriver : ∀ n, ∀ r ∈ (tables n).rows, app.driver.Carries r.createdAt)

include hdriver

theorem bound_carries {n : Nat} {u : (Time ×ₗ Uuid)ᵒᵈ}
    (h : Keyset.bound standing limit (listings q tables) n = some (some u)) : app.driver.Carries (keyOf u).1 := by
  cases n with
  | zero => cases h
  | succ n =>
    obtain ⟨b, -, hnext⟩ := Option.bind_eq_some_iff.1 h
    obtain ⟨v, hv, huv⟩ := Option.map_eq_some_iff.1 hnext
    obtain rfl : v = u := Option.some.inj huv
    rw [Keyset.page] at hv
    split at hv
    case isTrue =>
      obtain ⟨r, hr, rfl⟩ := Option.map_eq_some_iff.1 hv
      have hmem := Keyset.mem_rest.1 (List.mem_of_mem_take (List.mem_of_getLast? hr))
      exact hdriver n r (mem_listing.1 hmem.1).1
    case isFalse => cases hv

/-- The walk by cursors is the walk by keys. -/
theorem walk_eq (n : Nat) : walk app q limit tables n =
    (Keyset.bound standing limit (listings q tables) n).map fun b =>
      .ok ((Keyset.page standing limit (listings q tables n) b).1,
        (Keyset.page standing limit (listings q tables n) b).2.map (cursorOf app)) := by
  induction n with
  | zero =>
    have hnone : ∀ u, none = some u → app.driver.Carries (keyOf u).1 := fun u hu => by cases hu
    exact congrArg some (listJobsOn_eq hnone q limit (tables 0))
  | succ n ih =>
    rw [walk, ih, Keyset.bound]
    cases hb : Keyset.bound standing limit (listings q tables) n with
    | none => rfl
    | some b =>
      have hnext : Keyset.bound standing limit (listings q tables) (n + 1) =
          (Keyset.page standing limit (listings q tables n) b).2.map some := by
        rw [Keyset.bound, hb, Option.bind_some]
      simp only [Option.map_some, Option.bind_some]
      cases hu : (Keyset.page standing limit (listings q tables n) b).2 with
      | none => rfl
      | some u =>
        have hcarry : ∀ v, some u = some v → app.driver.Carries (keyOf v).1 := by
          intro v huv
          rw [hu, huv] at hnext
          exact bound_carries hdriver hnext
        exact congrArg some (listJobsOn_eq hcarry q limit (tables (n + 1)))

theorem answerRows_walk (n : Nat) : answerRows (walk app q limit tables n) =
    Keyset.rows standing limit (listings q tables) n := by
  rw [walk_eq hdriver, Keyset.rows]
  cases Keyset.bound standing limit (listings q tables) n <;> rfl

theorem listed_eq (n : Nat) : listed app q limit tables n =
    Keyset.read standing limit (listings q tables) n := by
  induction n with
  | zero => rfl
  | succ n ih => rw [listed, Keyset.read, ih, answerRows_walk hdriver]

end Carried

/-! ### Rows across tables -/

section Kept

variable (hkeep : ∀ n, Keeps (tables n) (tables (n + 1)))

include hkeep

theorem keeps_le {i j : Nat} (hij : i ≤ j) : Keeps (tables i) (tables j) := by
  induction j, hij using Nat.le_induction with
  | base => exact .refl _
  | succ j _ ih => exact ih.trans (hkeep j)

theorem standing_eq {i j : Nat} {a b : Job} (ha : a ∈ (tables i).rows) (hb : b ∈ (tables j).rows)
    (hid : a.id = b.id) : standing a = standing b := by
  have hone : ∀ {i j : Nat} {a b : Job}, i ≤ j → a ∈ (tables i).rows → b ∈ (tables j).rows →
      a.id = b.id → a.createdAt = b.createdAt := by
    intro i j a b hij ha hb hid
    obtain ⟨a', ha', hid', hcreated, -⟩ := keeps_le hkeep hij a ha
    obtain rfl : a' = b := List.inj_on_of_nodup_map (tables j).key_nodup ha' hb (hid'.trans hid)
    exact hcreated.symm
  have hcreated : a.createdAt = b.createdAt := by
    rcases le_total i j with hij | hji
    · exact hone hij ha hb hid
    · exact (hone hji hb ha hid.symm).symm
  rw [standing, standing, Repository.position, Repository.position, hid, hcreated]

end Kept

/-! ### The whole walk -/

/-- A walk that loses nothing and repeats nothing. -/
structure Paginated (app : App) (q : Repository.Filter) (limit : Nat) (tables : Nat → Jobs) :
    Prop where
  /-- No request of the walk is turned down. -/
  answered : ∀ n a, walk app q limit tables n = some a → ∃ rows next, a = .ok (rows, next)
  /-- A request brings rows that it finds and that match. -/
  matching : ∀ n, ∀ r ∈ answerRows (walk app q limit tables n),
    r ∈ (tables n).rows ∧ wanted q r = true
  descending : ∀ n, (listed app q limit tables n).Pairwise fun a b =>
    Repository.keyLt (b.createdAt, b.id) (a.createdAt, a.id) = true
  once : ∀ n, ((listed app q limit tables n).map Job.id).Nodup
  /-- A page with a cursor is full. -/
  full : ∀ n rows cursor, walk app q limit tables n = some (.ok (rows, some cursor)) →
    rows.length = limit
  /-- A row that every request finds and that always matches has come by the last page. -/
  complete : ∀ n rows, walk app q limit tables n = some (.ok (rows, none)) → ∀ id,
    (∀ j ≤ n, ∃ r ∈ (tables j).rows, r.id = id ∧ wanted q r = true) →
    ((listed app q limit tables (n + 1)).map Job.id).count id = 1
  /-- When the table stands still there is a last page, and as many as the rows fill. -/
  ends : ∀ n, (∀ m ≥ n, tables m = tables n) →
    ∃ m ≤ n + ((tables n).rows.countP (wanted q) - 1) / limit,
      ∃ rows, walk app q limit tables m = some (.ok (rows, none))

section Main

variable (hl : 1 ≤ limit) (hkeep : ∀ n, Keeps (tables n) (tables (n + 1)))
  (hdriver : ∀ n, ∀ r ∈ (tables n).rows, app.driver.Carries r.createdAt)

theorem listings_sorted (n : Nat) :
    (listings q tables n).Pairwise fun a b => standing a < standing b := listing_sorted q (tables n)

include hdriver

theorem walk_matching (n : Nat) : ∀ r ∈ answerRows (walk app q limit tables n),
    r ∈ (tables n).rows ∧ wanted q r = true := by
  intro r hr
  rw [answerRows_walk hdriver] at hr
  obtain ⟨b, -, hrest⟩ := Keyset.mem_rows hr
  exact mem_listing.1 (Keyset.mem_rest.1 hrest).1

theorem mem_listed {n : Nat} {r : Job} (hr : r ∈ listed app q limit tables n) :
    ∃ i < n, r ∈ (tables i).rows ∧ wanted q r = true := by
  induction n with
  | zero => cases hr
  | succ n ih =>
    rcases List.mem_append.1 hr with hr | hr
    · obtain ⟨i, hi, hmem⟩ := ih hr
      exact ⟨i, by omega, hmem⟩
    · exact ⟨n, by omega, walk_matching hdriver n r hr⟩

theorem walk_last {n : Nat} :
    (∃ rows, walk app q limit tables n = some (.ok (rows, none))) ↔
      Keyset.bound standing limit (listings q tables) n ≠ none ∧
        Keyset.bound standing limit (listings q tables) (n + 1) = none := by
  rw [walk_eq hdriver, Keyset.bound]
  cases Keyset.bound standing limit (listings q tables) n <;> simp

include hl

theorem walk_full {n : Nat} {rows : List Job} {cursor : String}
    (h : walk app q limit tables n = some (.ok (rows, some cursor))) : rows.length = limit := by
  have hrows : Keyset.rows standing limit (listings q tables) n = rows := by
    rw [← answerRows_walk hdriver, h]
    rfl
  rw [walk_eq hdriver] at h
  obtain ⟨b, hb, hok⟩ := Option.map_eq_some_iff.1 h
  obtain ⟨u, hu, -⟩ := Option.map_eq_some_iff.1 (congrArg Prod.snd (Except.ok.inj hok))
  rw [← hrows]
  apply Keyset.rows_full listings_sorted hl
  rw [Keyset.bound, hb, Option.bind_some, hu, Option.map_some]

theorem listed_sorted (n : Nat) :
    (listed app q limit tables n).Pairwise fun a b => standing a < standing b := by
  rw [listed_eq hdriver]
  exact Keyset.read_sorted listings_sorted hl n

theorem walk_ends {n : Nat} (hstill : ∀ m ≥ n, tables m = tables n) :
    ∃ m ≤ n + ((tables n).rows.countP (wanted q) - 1) / limit,
      ∃ rows, walk app q limit tables m = some (.ok (rows, none)) := by
  have hsome : ∀ n, Keyset.bound standing limit (listings q tables) n = none →
      ∃ m < n, Keyset.bound standing limit (listings q tables) m ≠ none ∧
        Keyset.bound standing limit (listings q tables) (m + 1) = none := by
    intro n hn
    induction n with
    | zero => cases hn
    | succ n ih =>
      by_cases hprev : Keyset.bound standing limit (listings q tables) n = none
      · obtain ⟨m, hm, hends⟩ := ih hprev
        exact ⟨m, by omega, hends⟩
      · exact ⟨n, by omega, hprev, hn⟩
  cases hb : Keyset.bound standing limit (listings q tables) n with
  | none =>
    obtain ⟨m, hm, hends⟩ := hsome n hb
    exact ⟨m, hm.le.trans (Nat.le_add_right n _), (walk_last hdriver).2 hends⟩
  | some b =>
    have hstill' : ∀ m ≥ n, listings q tables m = listings q tables n := fun m hm => by
      rw [listings, hstill m hm, listings]
    have hends := Keyset.bound_ends listings_sorted hl hb hstill' rfl
    have hcount : (Keyset.rest standing b (listings q tables n)).length ≤
        (tables n).rows.countP (wanted q) := by
      have hperm := (perm_orderBy standing ((tables n).rows.filter (wanted q))).length_eq
      rw [List.countP_eq_length_filter, ← hperm]
      exact List.length_filter_le _ _
    refine ⟨_, ?_, (walk_last hdriver).2 hends⟩
    exact Nat.add_le_add_left (Nat.div_le_div_right (by omega)) n

include hkeep

theorem listed_once (n : Nat) : ((listed app q limit tables n).map Job.id).Nodup := by
  rw [List.Nodup, List.pairwise_map]
  refine (listed_sorted hl hdriver n).imp_of_mem ?_
  intro a b ha hb hlt hid
  obtain ⟨i, -, hai, -⟩ := mem_listed hdriver ha
  obtain ⟨j, -, hbj, -⟩ := mem_listed hdriver hb
  exact hlt.ne (standing_eq hkeep hai hbj hid)

theorem listed_complete {n : Nat} {rows : List Job}
    (h : walk app q limit tables n = some (.ok (rows, none))) {id : Uuid}
    (hthere : ∀ j ≤ n, ∃ r ∈ (tables j).rows, r.id = id ∧ wanted q r = true) :
    ((listed app q limit tables (n + 1)).map Job.id).count id = 1 := by
  obtain ⟨r₀, hr₀, hid₀, -⟩ := hthere 0 (Nat.zero_le n)
  obtain ⟨hsome, hnone⟩ := (walk_last hdriver).1 ⟨rows, h⟩
  obtain ⟨b, hb⟩ := Option.ne_none_iff_exists'.1 hsome
  have hfound : ∀ j ≤ n, ∃ r ∈ listings q tables j, standing r = standing r₀ := by
    intro j hj
    obtain ⟨r, hr, hid, hw⟩ := hthere j hj
    exact ⟨r, mem_listing.2 ⟨hr, hw⟩, standing_eq hkeep hr hr₀ (hid.trans hid₀.symm)⟩
  obtain ⟨r, hr, hstanding⟩ := Keyset.read_all listings_sorted hl hb hnone hfound
  have hid : r.id = id := by
    have hpair := congrArg (fun u => (keyOf u).2) hstanding
    exact hpair.trans hid₀
  rw [← listed_eq hdriver] at hr
  apply List.count_eq_one_of_mem (listed_once hl hkeep hdriver (n + 1))
  exact List.mem_map.2 ⟨r, hr, hid⟩

/-- For every filter and owner, every limit, and every history of the table. -/
theorem listJobs_paginated : Paginated app q limit tables where
  answered n a h := by
    rw [walk_eq hdriver] at h
    obtain ⟨b, -, rfl⟩ := Option.map_eq_some_iff.1 h
    exact ⟨_, _, rfl⟩
  matching := walk_matching hdriver
  descending n := (listed_sorted hl hdriver n).imp fun h => (Repository.keyLt_iff _ _).2 h
  once := listed_once hl hkeep hdriver
  full _ _ _ := walk_full hl hdriver
  complete _ _ h _ := listed_complete hl hkeep hdriver h
  ends _ := walk_ends hl hdriver

end Main

end Run

/-! ### A walk over four rows -/

def rowAt (id : Uuid) (createdAt : Time) : Job :=
  ({ id := id, type := .email, payload := .null, userId := some 7 } : Repository.NewJob).row createdAt

theorem fourRows_key : ([rowAt 1 10, rowAt 2 20, rowAt 3 20, rowAt 4 30].map Job.id).Nodup := by decide

theorem fourRows_index :
    ([rowAt 1 10, rowAt 2 20, rowAt 3 20, rowAt 4 30].filterMap Job.uqUserIdempotencyKey).Nodup := by
  decide

/-- Two of the rows are of one instant. -/
def fourRows : Jobs := ⟨[rowAt 1 10, rowAt 2 20, rowAt 3 20, rowAt 4 30], fourRows_key, fourRows_index⟩

theorem fifthRow_key : ([{ rowAt 1 10 with status := .completed }, rowAt 2 20, rowAt 3 20,
    rowAt 4 30, rowAt 5 40].map Job.id).Nodup := by decide

theorem fifthRow_index : ([{ rowAt 1 10 with status := .completed }, rowAt 2 20, rowAt 3 20,
    rowAt 4 30, rowAt 5 40].filterMap Job.uqUserIdempotencyKey).Nodup := by decide

/-- One row has changed its status, and a new one has come. -/
def fifthRow : Jobs := ⟨[{ rowAt 1 10 with status := .completed }, rowAt 2 20, rowAt 3 20,
  rowAt 4 30, rowAt 5 40], fifthRow_key, fifthRow_index⟩

/-- The first request finds four rows, and every later one five. -/
def growing : Nat → Jobs
  | 0 => fourRows
  | _ + 1 => fifthRow

theorem growing_keeps (n : Nat) : Keeps (growing n) (growing (n + 1)) := by
  cases n with
  | succ n => exact .refl _
  | zero =>
    intro r hr
    simp only [growing, fourRows, List.mem_cons, List.not_mem_nil, or_false] at hr
    rcases hr with rfl | rfl | rfl | rfl
    · exact ⟨{ rowAt 1 10 with status := .completed }, List.mem_cons_self, rfl, rfl, rfl⟩
    all_goals exact ⟨_, by simp [growing, fifthRow], rfl, rfl, rfl⟩

theorem growing_carried (n : Nat) :
    ∀ r ∈ (growing n).rows, defaultApp.driver.Carries r.createdAt := by
  intro r hr
  have hin : r.createdAt ∈ [(10 : Time), 20, 30, 40] := by
    cases n with
    | zero =>
      simp only [growing, fourRows, List.mem_cons, List.not_mem_nil, or_false] at hr
      rcases hr with rfl | rfl | rfl | rfl <;> decide
    | succ n =>
      simp only [growing, fifthRow, List.mem_cons, List.not_mem_nil, or_false] at hr
      rcases hr with rfl | rfl | rfl | rfl | rfl <;> decide
  simp only [List.mem_cons, List.not_mem_nil, or_false] at hin
  rcases hin with h | h | h | h <;> rw [h] <;> exact ⟨rfl, rfl⟩

/-- Pages of two rows of user 7, of any status. -/
theorem listJobs_paginated_growing : 1 ≤ 2 ∧ (∀ n, Keeps (growing n) (growing (n + 1))) ∧
    (∀ n, ∀ r ∈ (growing n).rows, defaultApp.driver.Carries r.createdAt) ∧
    Paginated defaultApp { userId := some 7 } 2 growing :=
  ⟨by decide, growing_keeps, growing_carried,
    listJobs_paginated (by decide) growing_keeps growing_carried⟩

end JobProcessor
