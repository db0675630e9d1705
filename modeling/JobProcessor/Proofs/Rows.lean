import JobProcessor.Proofs.Actors

/-! What a process was once told about a row stays true of the columns that are
never written: owner, type, limit, key, hash, payload and priority. -/

namespace JobProcessor

open Interleave Store

variable {app : App} {σ σ' : State} {ev : Ev}

/-- There is a row `id`, with the fixed columns of `row`. -/
def Stored (w : World) (id : Uuid) (row : Job) : Prop :=
  ∃ row', w.jobs.find? id = some row' ∧ row'.fixed = row.fixed

theorem Stored.move {id : Uuid} {row : Job} (hs : Stored σ.world id row)
    (hm : Move (system app) σ ev σ') : Stored σ'.world id row := by
  obtain ⟨row', hf, hx⟩ := hs
  refine ⟨_, move_row_some hm hf, ?_⟩
  cases ev with
  | act pid o r => exact (onRow_fixed _ _ _).trans hx
  | _ => exact hx

def shows : (o : Op) → o.Res → List Job
  | .createJob n, true => [n.row 0]
  | .getJob _ _, some job => [job]
  | .getByIdempotencyKey _ _, some job => [job]
  | .listUnsynced _ _, rows => rows
  | _, _ => []

theorem exec_shows {n : Nat} {o : Op} {e : Env} {w w' : World} {r : o.Res}
    (h : exec n o e w = some (w', r)) : ∀ row ∈ shows o r, Stored w' row.id row := by
  intro row hrow
  cases o with
  | createJob m =>
    cases r with
    | false => cases hrow
    | true =>
      rw [shows, List.mem_singleton] at hrow
      subst hrow
      have hcr := exec_create h
      rw [if_pos rfl] at hcr
      exact ⟨m.row w'.clock, by rw [hcr.2.1]; exact if_pos rfl, rfl⟩
  | getJob id u =>
    cases r with
    | none => cases hrow
    | some job =>
      rw [shows, List.mem_singleton] at hrow
      subst hrow
      simp only [exec, Option.some.injEq, Prod.mk.injEq] at h
      obtain ⟨rfl, hg⟩ := h
      have hf := (Repository.getJob_some hg).1
      exact ⟨row, by rw [Table.find?_key hf]; exact hf, rfl⟩
  | getByIdempotencyKey k u =>
    cases r with
    | none => cases hrow
    | some job =>
      rw [shows, List.mem_singleton] at hrow
      subst hrow
      simp only [exec, Option.some.injEq, Prod.mk.injEq] at h
      obtain ⟨rfl, hg⟩ := h
      exact ⟨row, (Repository.getByIdempotencyKey_some hg).1, rfl⟩
  | listUnsynced t m =>
    simp only [exec, Option.some.injEq, Prod.mk.injEq] at h
    obtain ⟨rfl, rfl⟩ := h
    have hm := List.mem_of_mem_take hrow
    rw [List.mem_insertionSort, List.mem_filter] at hm
    exact ⟨row, Table.find?_of_mem hm.1, rfl⟩
  | _ => cases hrow

/-- Every row ever shown is still there, with the same fixed columns. -/
def Remembered (σ : State) : Prop :=
  ∀ pid o r, .act pid o r ∈ σ.log → ∀ row ∈ shows o r, Stored σ.world row.id row

theorem Remembered.move (h : Remembered σ) (hm : Move (system app) σ ev σ') : Remembered σ' := by
  intro pid o r hev row hrow
  rw [move_log hm] at hev
  rcases List.mem_cons.1 hev with rfl | hev
  · cases hm with
    | act _ _ e he => exact exec_shows he row hrow
  · exact (h pid o r hev row hrow).move hm

theorem Remembered.created {pid : Nat} {n : Repository.NewJob} (h : Remembered σ)
    (hev : .act pid (.createJob n) true ∈ σ.log) : Stored σ.world n.id (n.row 0) :=
  h pid (.createJob n) true hev (n.row 0) List.mem_cons_self

theorem remembered {ok : State → Ev → Prop} {c : Cfg} (hr : Run (system app) ok c) :
    Remembered c.shared :=
  run_inv (fun _ _ _ h => by cases h) (fun _ _ _ hI hm _ _ => hI.move hm) hr

theorem valid_move {σ σ' : State} {ev : Ev} (h : ∀ pid o r, .act pid o r ∈ σ.log → Valid o r)
    (hm : Move (system app) σ ev σ') : ∀ pid o r, .act pid o r ∈ σ'.log → Valid o r := by
  intro pid o r hev
  rw [move_log hm] at hev
  rcases List.mem_cons.1 hev with rfl | hev
  · obtain ⟨e, he⟩ := move_exec hm
    exact exec_valid he
  · exact h pid o r hev

theorem recorded_valid {ok : State → Ev → Prop} {c : Cfg} (hr : Run (system app) ok c) :
    ∀ pid o r, .act pid o r ∈ c.shared.log → Valid o r := by
  exact run_inv (I := fun σ : State => ∀ pid o r, .act pid o r ∈ σ.log → Valid o r)
    (fun _ _ _ h => by cases h) (fun _ _ _ hI hm _ _ => valid_move hI hm) hr

theorem issues_createJob {p : Proc} {h : Hist} {n : Repository.NewJob}
    (hi : issues app p h (.createJob n)) :
    ∃ user newId sub, p = .submitJob user newId sub ∧ IsNew app user newId sub n ∧ Quiet h := by
  cases p with
  | submitJob user newId sub => exact ⟨user, newId, sub, rfl, hi⟩
  | _ => exact absurd hi (by simp [issues, readIssues, retryJobIssues, cancelIssues, listIssues,
      loopIssues, taskIssues, promoteIssues, tickerIssues])

/-- A retry is decided on a row that still has an attempt left. -/
theorem issues_retry {p : Proc} {h : Hist} {j : Uuid} {o : Op}
    (ho : o = .retryToPending j ∨ ∃ t, o = .retryToScheduled j t) (hi : issues app p h o) :
    Retryable h j := by
  rcases ho with rfl | ⟨t, rfl⟩
  all_goals
    cases p with
    | runOne consumer m => exact hi.2
    | ticker fuel => exact hi.2
    | promoteDue => exact hi.1.2
    | _ => exact absurd hi (by simp [issues, submitIssues, readIssues, retryJobIssues,
        cancelIssues, listIssues, loopIssues])

theorem issues_startHandler {app : App} {p : Proc} {h : Hist} {j : Uuid} {type : JobType}
    (hi : issues app p h (.startHandler j type)) :
    ∃ consumer m, p = .runOne consumer m ∧ taskIssues consumer m h (.startHandler j type) := by
  cases p with
  | runOne consumer m => exact ⟨consumer, m, rfl, hi⟩
  | _ => exact absurd hi (by simp [issues, submitIssues, readIssues, retryJobIssues, cancelIssues,
      listIssues, loopIssues, promoteIssues, tickerIssues])

theorem issues_claim {app : App} {p : Proc} {h : Hist} {j : Uuid}
    (hi : issues app p h (.claimJob j)) :
    (∃ consumer m, p = .runOne consumer m ∧ m.jobId = some j) ∧ h = [] := by
  cases p with
  | runOne consumer m => exact ⟨⟨consumer, m, rfl, hi.1⟩, hi.2⟩
  | _ => exact absurd hi (by simp [issues, submitIssues, readIssues, retryJobIssues, cancelIssues,
      listIssues, loopIssues, promoteIssues, tickerIssues])

theorem started_claimed {app : App} {c : Cfg} (hr : Reachable (system app) c) :
    ∀ q j type u, .act q (.startHandler j type) u ∈ c.shared.log →
      .act q (.claimJob j) true ∈ c.shared.log := by
  refine run_inv (I := fun σ : State => ∀ q j type u, .act q (.startHandler j type) u ∈ σ.log →
    .act q (.claimJob j) true ∈ σ.log) ?_ ?_ hr
  · intro q j type u h
    simp at h
  · intro σ ev σ' hI hm _ ht q j type u h
    rw [move_log hm] at h ⊢
    rcases List.mem_cons.1 h with rfl | h
    · obtain ⟨-, p, -, hi⟩ := ht
      obtain ⟨consumer, m, rfl, hi⟩ := issues_startHandler hi
      exact List.mem_cons_of_mem _ (mem_own.1 hi.1.2.1)
    · exact List.mem_cons_of_mem _ (hI q j type u h)

end JobProcessor
