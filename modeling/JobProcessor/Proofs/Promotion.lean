import JobProcessor.Proofs.Budget

/-! One call of `promote_due` against a worker that parks the same job again while
the call is between its `XADD` and its bulk update. -/

namespace JobProcessor

open Interleave Prog Store

/-- Events of the given kinds, newest first, in this order. -/
def inOrder : List (Ev → Bool) → List Ev → Bool
  | [], _ => true
  | _ :: _, [] => false
  | p :: ps, ev :: l => if p ev = true then inOrder ps l else inOrder (p :: ps) l

def parks (q : Nat) (j : Uuid) (s : Time) : Ev → Bool
  | .act p (.retryToScheduled i t) r => decide (p = q) && decide (i = j) && decide (t = s) && r
  | _ => false

def claimsBy (q : Nat) (j : Uuid) : Ev → Bool
  | .act p (.claimJob i) r => decide (p = q) && decide (i = j) && r
  | _ => false

def puts (q : Nat) (j : Uuid) : Ev → Bool
  | .act p (.xadd _ i) _ => decide (p = q) && decide (i = j)
  | _ => false

def clockBefore (q : Nat) (s : Time) : Ev → Bool
  | .act p .now t => decide (p = q) && decide (t < s)
  | _ => false

/-- The score with which another process has parked `j` after `pass` put it into its
stream: the job was claimed, its attempt failed, and it went back to the delayed set
with a score later than the clock of `pass`. `none` once a process other than
`pass` has moved `j` in the delayed set again. -/
def parkedAt (pass : Nat) (j : Uuid) : List Ev → Option Time
  | [] => none
  | .act q (.zadd i s) _ :: l =>
    if i = j then
      if q ≠ pass ∧
          inOrder [parks q j s, claimsBy q j, puts pass j, clockBefore pass s] l = true then some s
      else none
    else parkedAt pass j l
  | .act q (.zrem ids) _ :: l => if q ≠ pass ∧ j ∈ ids then none else parkedAt pass j l
  | _ :: l => parkedAt pass j l

def Op.parksJob : Op → Option Uuid
  | .retryToScheduled id _ => some id
  | _ => none

/-- `j` was parked by `retry_to_scheduled` after `pass` put it into its stream. -/
def reparked (pass : Nat) (j : Uuid) (l : List Ev) : Bool :=
  inOrder [wins Op.parksJob j, puts pass j] l

/-- A call of `promote_due` with the replies `h` has put `j` into its stream and not
yet run its bulk update. -/
def promoting (j : Uuid) (h : Hist) : Bool :=
  (h.any fun x => match x.1 with
    | .xadd _ i => decide (i = j)
    | _ => false) &&
  !h.any fun x => match x.1 with
    | .promoteScheduledToPending _ => true
    | _ => false

/-- No job is parked while a call of `promote_due` is promoting it. -/
def parksOutside (l : List Ev) (ev : Ev) : Bool :=
  match ev with
  | .act _ (.retryToScheduled j _) r => !r || (started l).all fun p =>
    match p.2 with
    | .promoteDue => !promoting j (own p.1 l)
    | _ => true
  | _ => true

/-- Promotion does not undo a newer parking: neither its score, when the call
returns, nor the status, by any step of the call. -/
structure ParkingKept (app : App) (c : Cfg) : Prop where
  score : ∀ pass a l j s, c.shared.log = .ret pass a :: l → proc? pass l = some .promoteDue →
    parkedAt pass j l = some s → c.shared.world.delayed.score? j = some s
  status : ∀ ch pass o r c' j row, step (system app) c ch = some (.act pass o r, c') →
    proc? pass c.shared.log = some .promoteDue → reparked pass j c.shared.log = true →
    c.shared.world.jobs.find? j = some row → row.status = .scheduled →
      ∃ row', c'.shared.world.jobs.find? j = some row' ∧ row'.status = .scheduled

/-! ### Logs -/

theorem inOrder_weaken (l : List Ev) :
    (∀ ps ev, inOrder ps l = true → inOrder ps (ev :: l) = true) ∧
      ∀ p ps, inOrder (p :: ps) l = true → inOrder ps l = true := by
  induction l with
  | nil =>
    refine ⟨fun ps ev h => ?_, fun p ps h => by cases h⟩
    cases ps with
    | nil => rfl
    | cons p ps => cases h
  | cons ev' l ih =>
    have hdrop : ∀ p ps, inOrder (p :: ps) (ev' :: l) = true → inOrder ps (ev' :: l) = true := by
      intro p ps h
      rw [inOrder] at h
      split at h
      · exact ih.1 ps ev' h
      · exact ih.1 ps ev' (ih.2 p ps h)
    refine ⟨fun ps ev h => ?_, hdrop⟩
    cases ps with
    | nil => rfl
    | cons p ps =>
      rw [inOrder]
      split
      · exact hdrop p ps h
      · exact h

theorem inOrder_cons {ps : List (Ev → Bool)} {l : List Ev} (ev : Ev) (h : inOrder ps l = true) :
    inOrder ps (ev :: l) = true := (inOrder_weaken l).1 ps ev h

theorem inOrder_drop {p : Ev → Bool} {ps : List (Ev → Bool)} {l : List Ev}
    (h : inOrder (p :: ps) l = true) : inOrder ps l = true := (inOrder_weaken l).2 p ps h

theorem inOrder_head {p q : Ev → Bool} {ps qs : List (Ev → Bool)}
    (hpq : ∀ ev, p ev = true → q ev = true)
    (hps : ∀ l, inOrder ps l = true → inOrder qs l = true) {l : List Ev}
    (h : inOrder (p :: ps) l = true) : inOrder (q :: qs) l = true := by
  induction l with
  | nil => cases h
  | cons ev l ih =>
    rw [inOrder] at h
    split at h
    · rename_i hp
      rw [inOrder, if_pos (hpq ev hp)]
      exact hps l h
    · exact inOrder_cons ev (ih h)

theorem inOrder_mem {p : Ev → Bool} {ps : List (Ev → Bool)} {l : List Ev}
    (h : inOrder (p :: ps) l = true) : ∃ ev ∈ l, p ev = true := by
  induction l with
  | nil => cases h
  | cons ev l ih =>
    rw [inOrder] at h
    split at h
    · rename_i hp
      exact ⟨ev, List.mem_cons_self, hp⟩
    · obtain ⟨ev', hev, hp⟩ := ih h
      exact ⟨ev', List.mem_cons_of_mem _ hev, hp⟩

theorem puts_iff {q : Nat} {j : Uuid} {ev : Ev} :
    puts q j ev = true ↔ ∃ s u, ev = .act q (.xadd s j) u := by
  unfold puts
  split
  · rename_i p s i u
    simp only [Bool.and_eq_true, decide_eq_true_eq]
    constructor
    · rintro ⟨rfl, rfl⟩
      exact ⟨s, u, rfl⟩
    · rintro ⟨s', u', he⟩
      cases he
      exact ⟨rfl, rfl⟩
  · rename_i h
    simp only [Bool.false_eq_true, false_iff]
    rintro ⟨s, u, rfl⟩
    exact h q s j u rfl

theorem reparked_of_parkedAt {pass : Nat} {j : Uuid} {s : Time} {l : List Ev}
    (h : parkedAt pass j l = some s) : reparked pass j l = true := by
  induction l with
  | nil => cases h
  | cons ev l ih =>
    refine inOrder_cons ev ?_
    unfold parkedAt at h
    split at h
    · cases ‹_›
    · rename_i q i t u l' he
      cases he
      split at h
      · split at h
        · rename_i hq
          refine inOrder_head (fun ev hev => ?_) (fun l hl => ?_) hq.2
          · unfold parks at hev
            split at hev
            · simp only [Bool.and_eq_true, decide_eq_true_eq] at hev
              obtain ⟨⟨⟨-, rfl⟩, -⟩, hr⟩ := hev
              simp [wins, Op.parksJob, won, hr]
            · cases hev
          · exact inOrder_head (fun _ h => h) (fun l _ => by cases l <;> rfl) (inOrder_drop hl)
        · cases h
      · exact ih h
    · rename_i q ids u l' he
      cases he
      split at h
      · cases h
      · exact ih h
    · rename_i he
      cases he
      exact ih h

/-! ### Runs -/

section Runs

variable {app : App} {σ σ' : State} {ev : Ev}

/-- A parking that follows the `XADD` of a pass also follows its bulk update. -/
structure Parked (σ : State) : Prop where
  acted : ∀ pid o r, .act pid o r ∈ σ.log → proc? pid σ.log ≠ none
  updated : ∀ pass j, proc? pass σ.log = some .promoteDue → reparked pass j σ.log = true →
    ¬ NoUpdate (own pass σ.log)
  scored : ∀ pass j s, proc? pass σ.log = some .promoteDue → parkedAt pass j σ.log = some s →
    σ.world.delayed.score? j = some s

theorem Parked.proc_old {pass : Nat} {j : Uuid} {p : Proc} (h : Parked σ)
    (hp : proc? pass (ev :: σ.log) = some p) (ht : Told app σ ev)
    (hr : reparked pass j σ.log = true) : proc? pass σ.log = some p := by
  obtain ⟨ev', hev, hput⟩ := inOrder_mem (inOrder_drop hr)
  obtain ⟨s, u, rfl⟩ := puts_iff.1 hput
  obtain ⟨p', hp'⟩ := Option.ne_none_iff_exists'.1 (h.acted _ _ _ hev)
  have := proc?_stays ht hp'
  rw [hp, Option.some.injEq] at this
  rw [hp', this]

theorem not_noUpdate_of_outside {pass : Nat} {j : Uuid} {l : List Ev} {q : Nat} {t : Time}
    (hok : parksOutside l (.act q (.retryToScheduled j t) true) = true)
    (hp : proc? pass l = some .promoteDue) (hput : inOrder [puts pass j] l = true) :
    ¬ NoUpdate (own pass l) := by
  intro hno
  obtain ⟨ev', hev, hput⟩ := inOrder_mem hput
  obtain ⟨s, u, rfl⟩ := puts_iff.1 hput
  simp only [parksOutside, Bool.not_true, Bool.false_or, List.all_eq_true] at hok
  have hpr := hok _ (mem_started hp)
  simp only [promoting, Bool.not_and, Bool.not_not, Bool.or_eq_true, Bool.not_eq_true',
    List.any_eq_false, List.any_eq_true] at hpr
  rcases hpr with hnone | ⟨x, hx, hupd⟩
  · exact absurd (hnone _ (mem_own.2 hev)) (by simp)
  · split at hupd
    · rename_i ids hids
      exact hno x hx ids hids
    · cases hupd

theorem Parked.move_acted (h : Parked σ) (ht : Told app σ ev) {pid : Nat} {o : Op} {r : o.Res}
    (hev : .act pid o r ∈ ev :: σ.log) : proc? pid (ev :: σ.log) ≠ none := by
  have hp : ∃ p, proc? pid σ.log = some p := by
    rcases List.mem_cons.1 hev with rfl | hev
    · obtain ⟨-, p, hp, -⟩ := ht
      exact ⟨p, hp⟩
    · exact Option.ne_none_iff_exists'.1 (h.acted pid o r hev)
  obtain ⟨p, hp⟩ := hp
  rw [proc?_stays ht hp]
  simp

theorem Parked.move_updated (h : Parked σ)
    (hok : ev.isStart = false → parksOutside σ.log ev = true) (ht : Told app σ ev) {pass : Nat}
    {j : Uuid} (hp : proc? pass (ev :: σ.log) = some .promoteDue)
    (hr : reparked pass j (ev :: σ.log) = true) : ¬ NoUpdate (own pass (ev :: σ.log)) := by
  intro hno
  have hno' : NoUpdate (own pass σ.log) := by
    intro x hx
    refine hno x ?_
    exact mem_own.2 (List.mem_cons_of_mem _ (mem_own.1 hx))
  unfold reparked at hr
  rw [inOrder] at hr
  split at hr
  · rename_i hw
    obtain ⟨q, o, r, rfl, ho, hr'⟩ := wins_iff.1 hw
    cases o <;> simp only [Op.parksJob, Option.some.injEq, reduceCtorEq] at ho
    subst ho
    change r = true at hr'
    subst hr'
    exact not_noUpdate_of_outside (hok rfl) hp hr hno'
  · exact h.updated pass j (h.proc_old hp ht hr) hr hno'

theorem Parked.move_scored (h : Parked σ) (hm : Move (system app) σ ev σ') (ht : Told app σ ev)
    {pass : Nat} {j : Uuid} {s : Time} (hp : proc? pass (ev :: σ.log) = some .promoteDue)
    (hs : parkedAt pass j (ev :: σ.log) = some s) : σ'.world.delayed.score? j = some s := by
  have hkeep : parkedAt pass j σ.log = some s →
      σ'.world.delayed.score? j = σ.world.delayed.score? j →
        σ'.world.delayed.score? j = some s := by
    intro hs' heq
    rw [heq]
    exact h.scored pass j s (h.proc_old hp ht (reparked_of_parkedAt hs')) hs'
  cases ev with
  | act q o r =>
    obtain ⟨e, he⟩ := move_exec hm
    have hscore := exec_score he j
    cases o with
    | zadd i t =>
      simp only [parkedAt] at hs
      simp only at hscore
      by_cases hij : i = j
      · subst hij
        simp only [if_true] at hs hscore
        split at hs
        · rw [Option.some.injEq] at hs
          rw [hscore, hs]
        · cases hs
      · rw [if_neg hij] at hs
        rw [if_neg (fun h => hij h.symm)] at hscore
        exact hkeep hs hscore
    | zrem ids =>
      simp only [parkedAt] at hs
      simp only at hscore
      split at hs
      · cases hs
      · rename_i hq
        by_cases hj : j ∈ ids
        · -- the pass itself would have to run `ZREM` after its bulk update
          obtain rfl : q = pass := by
            by_contra hne
            exact hq ⟨hne, hj⟩
          obtain ⟨-, p, hp', hi⟩ := ht
          have hold : proc? q σ.log = some .promoteDue := hp
          rw [hold, Option.some.injEq] at hp'
          subst hp'
          obtain ⟨-, k, hk, hno⟩ := hi
          rw [List.append_nil] at hk
          exact absurd (hk ▸ hno) (h.updated q j hold (reparked_of_parkedAt hs))
        · rw [if_neg hj] at hscore
          exact hkeep hs hscore
    | _ => exact hkeep hs hscore
  | _ =>
    cases hm
    exact hkeep hs rfl

theorem Parked.move (h : Parked σ) (hm : Move (system app) σ ev σ')
    (hok : ev.isStart = false → parksOutside σ.log ev = true) (ht : Told app σ ev) :
    Parked σ' := by
  have hlog := move_log hm
  refine ⟨?_, ?_, ?_⟩
  · intro pid o r hev
    rw [hlog] at hev ⊢
    exact h.move_acted ht hev
  · intro pass j hp hr
    rw [hlog] at hp hr ⊢
    exact h.move_updated hok ht hp hr
  · intro pass j s hp hs
    rw [hlog] at hp hs
    exact h.move_scored hm ht hp hs

theorem parked {c : Cfg}
    (hr : Run (system app) (fun σ ev => parksOutside σ.log ev = true) c) : Parked c.shared := by
  refine run_inv ?_ ?_ hr
  · refine ⟨?_, ?_, ?_⟩
    · exact fun _ _ _ h => (by cases h)
    · exact fun _ _ h => (by cases h)
    · exact fun _ _ _ h => (by cases h)
  · intro σ ev σ' hI hm hok ht
    exact hI.move hm hok ht

end Runs

theorem parkingKept_of_parksOutside (app : App) (c : Cfg)
    (hr : Run (system app) (fun σ ev => parksOutside σ.log ev = true) c) : ParkingKept app c where
  score pass a l j s hl hp hs := by
    have hlog : parkedAt pass j c.shared.log = some s := by rw [hl]; exact hs
    have hproc : proc? pass c.shared.log = some .promoteDue := by rw [hl]; exact hp
    exact (parked hr).scored pass j s hproc hlog
  status ch pass o r c' j row hs hp hre hj hst := by
    obtain ⟨σ, hm, ht, hw, -⟩ :=
      hr.step_issued (fun _ _ _ _ _ he => exec_valid he) (body_emits app) hs
    -- the bulk update is the last action of the call, and it has been run
    obtain ⟨-, p, hp', hi⟩ := ht
    rw [hp, Option.some.injEq] at hp'
    subst hp'
    obtain ⟨-, k, hk, hno⟩ := hi
    rw [List.append_nil] at hk
    exact absurd (hk ▸ hno) ((parked hr).updated pass j hp hre)

/-- Between the `XADD` and the `ZREM` of a call of `promote_due`, a worker executes
job 1 twice: the first attempt is retried at once, the second is parked for half a
minute. -/
def promoteRace : List (Choice Env Proc) := List.flatten
  [[.start (.submitJob 7 1 { type := .email, payload := .null, scheduledAt := some 1000000 })],
    runs 0 6, [.start .promoteDue, .run 1 { elapsed := 2000000 }], runs 1 3,
    [.start (.workerLoop "w" 3)], runs 2 5, runs 3 5,
    [.run 3 { finish := .error ("RuntimeError", "boom") }], runs 3 6, runs 2 5, runs 4 5,
    [.run 4 { finish := .error ("RuntimeError", "boom") }], runs 4 6, runs 1 3]

/-- Process `pass`, a call of `promote_due`, has just returned and a job parked since
its `XADD` is not in the delayed set. -/
def parkingLost (pass : Nat) (j : Uuid) (c : Cfg) : Bool :=
  match c.shared.log with
  | .ret q _ :: l => q == pass && (match proc? pass l with
      | some .promoteDue => true
      | _ => false) &&
    (parkedAt pass j l).isSome && (c.shared.world.delayed.score? j).isNone
  | _ => false

theorem promotion_undoes_parking :
    ¬ ∀ c, Run (system defaultApp) (fun _ ev => ev.isCrash = false) c →
      ParkingKept defaultApp c := by
  intro h
  obtain ⟨c, hc, hl⟩ := run_of_replay defaultApp (fun _ ev => ev.isCrash = false)
    (fun _ ev => !ev.isCrash) (fun _ _ h => by simpa using h) promoteRace (parkingLost 1 1)
    (by decide +kernel)
  have hk := h c hc
  unfold parkingLost at hl
  split at hl
  · rename_i q a l hlog
    simp only [Bool.and_eq_true, beq_iff_eq] at hl
    obtain ⟨⟨⟨rfl, hproc⟩, hsome⟩, hnone⟩ := hl
    obtain ⟨s, hs⟩ := Option.isSome_iff_exists.1 hsome
    split at hproc
    · rename_i hp
      rw [hk.score 1 a l 1 s hlog hp hs] at hnone
      cases hnone
    · cases hproc
  · cases hl

def promoteThenPark : List (Choice Env Proc) := List.flatten
  [[.start (.submitJob 7 1 { type := .email, payload := .null, scheduledAt := some 1000000 })],
    runs 0 6, [.start .promoteDue, .run 1 { elapsed := 2000000 }], runs 1 5,
    [.start (.workerLoop "w" 3)], runs 2 5, runs 3 5,
    [.run 3 { finish := .error ("RuntimeError", "boom") }], runs 3 6, runs 2 5, runs 4 5,
    [.run 4 { finish := .error ("RuntimeError", "boom") }], runs 4 3, runs 1 1]

theorem parkingKept_promoteThenPark :
    ∃ c, Run (system defaultApp) (fun σ ev => parksOutside σ.log ev = true) c ∧
      (parkedAt 1 1 c.shared.log).isSome = true ∧ ParkingKept defaultApp c := by
  obtain ⟨c, hc, hl⟩ := run_of_replay defaultApp (fun σ ev => parksOutside σ.log ev = true)
    (fun σ ev => parksOutside σ.log ev) (fun _ _ h => h) promoteThenPark
    (fun c => (parkedAt 1 1 c.shared.log).isSome) (by decide +kernel)
  exact ⟨c, hc, hl, parkingKept_of_parksOutside defaultApp c hc⟩

end JobProcessor
