import JobProcessor.Proofs.Delivery

/-! The pull loop: whether every message `XREADGROUP` delivers is given to a task
before the loop reads again or stops. -/

namespace JobProcessor

open Interleave Prog Store

def hasReady (σ : State) (s : String) : Bool :=
  σ.world.streams.entries.any fun e => decide (e.stream = s) && decide (e.state = .undelivered)

/-- A read over several streams finds at most one of them with undelivered entries. -/
def oneReady (σ : State) : Ev → Bool
  | .act _ (.xreadgroup _ ss _) _ => (ss.filter (hasReady σ)).length ≤ 1
  | _ => true

def reads : Ev → Bool
  | .act _ (.xreadgroup _ _ _) _ => true
  | _ => false

structure Dispatches (σ : State) : Prop where
  /-- Whenever a loop reads or has stopped, it has created one task for each message
  delivered to it, in order. -/
  drained : ∀ pid consumer fuel, proc? pid σ.log = some (.workerLoop consumer fuel) →
    ∀ ev l, ev :: l <:+ σ.log → ev.pid = pid → (reads ev = true ∨ ev.isRet = true) →
      delivered (own pid l) = dispatched (own pid l)
  /-- No entry is given to two tasks. -/
  once : (taskEntries σ.log).Nodup

section Steps

variable {app : App} {σ σ' : State}

theorem ready_length (b : Streams (Option Uuid)) (s : String) (n : Nat) :
    (b.ready s n).length ≤ n := by
  unfold Streams.ready
  rw [List.length_take]
  exact Nat.min_le_left _ _

theorem ready_eq_nil {s : String} (n : Nat) (h : hasReady σ s = false) :
    σ.world.streams.ready s n = [] := by
  rw [List.eq_nil_iff_forall_not_mem]
  intro e he
  obtain ⟨hin, hs, hst⟩ := Streams.mem_ready he
  have := List.any_eq_false.1 h e hin
  simp [hs, hst] at this

/-- A read with `COUNT 1` brings at most one message for each stream with undelivered
entries. -/
theorem read_length (ss : List String) :
    (ss.flatMap fun s => σ.world.streams.ready s 1).length ≤ (ss.filter (hasReady σ)).length := by
  induction ss with
  | nil => exact Nat.le_refl _
  | cons s ss ih =>
    rw [List.flatMap_cons, List.length_append, List.filter_cons]
    split
    · have := ready_length σ.world.streams s 1
      rw [List.length_cons]
      omega
    · rename_i h
      rw [ready_eq_nil 1 (by simpa using h), List.length_nil]
      omega

/-- Every read so far has brought at most one message. -/
def ReadsOne (σ : State) : Prop :=
  ∀ pid c ss n msgs, .act pid (.xreadgroup c ss n) msgs ∈ σ.log → msgs.length ≤ 1

theorem issues_xreadgroup {p : Proc} {h : Hist} {c : String} {ss : List String} {n : Nat}
    (hi : issues app p h (.xreadgroup c ss n)) : n = 1 := by
  cases p with
  | workerLoop consumer fuel => exact hi.2.1
  | _ => exact absurd hi (by simp [issues, submitIssues, readIssues, retryJobIssues, cancelIssues,
      listIssues, taskIssues, promoteIssues, tickerIssues])

theorem ReadsOne.move {ev : Ev} (h : ReadsOne σ) (hm : Move (system app) σ ev σ')
    (hok : ev.isStart = false → oneReady σ ev = true) (ht : Told app σ ev) : ReadsOne σ' := by
  intro pid c ss n msgs hev
  rw [move_log hm] at hev
  rcases List.mem_cons.1 hev with rfl | hev
  · obtain ⟨-, p, -, hi⟩ := ht
    have hn := issues_xreadgroup hi
    subst hn
    have hone : (ss.filter (hasReady σ)).length ≤ 1 := by
      simpa [oneReady] using hok rfl
    obtain ⟨e, he⟩ := move_exec hm
    simp only [exec, Option.some.injEq, Prod.mk.injEq] at he
    rw [← he.2, List.length_map]
    exact (read_length ss).trans hone
  · exact h pid c ss n msgs hev

end Steps

theorem dispatches_of_oneReady (app : App) (c : Cfg)
    (hr : Run (system app) (fun σ ev => oneReady σ ev = true) c) : Dispatches c.shared where
  drained pid consumer fuel hp ev l hl hpid hev := by
    have hone : ReadsOne c.shared := by
      refine run_inv ?_ ?_ hr
      · exact fun _ _ _ _ _ h => (by cases h)
      · exact fun σ ev σ' hI hm hok ht => hI.move hm hok ht
    have hsingle : Single (own pid l) := by
      intro c' ss n msgs hm
      have hmem : .act pid (.xreadgroup c' ss n) msgs ∈ l := mem_own.1 hm
      exact hone pid c' ss n msgs (hl.subset (List.mem_cons_of_mem _ hmem))
    cases ev with
    | act q o r =>
      obtain rfl : q = pid := hpid
      obtain ⟨p, hp', hi⟩ := (run_recorded hr).1 q o r l hl
      rw [hp, Option.some.injEq] at hp'
      subst hp'
      rcases hev with hread | hret
      · unfold reads at hread
        split at hread
        · rename_i he
          cases he
          exact hi.2.2.2 hsingle
        · cases hread
      · cases hret
    | ret q a =>
      obtain rfl : q = pid := hpid
      obtain ⟨p, hp', hq⟩ := (run_recorded hr).2 q a l hl
      rw [hp, Option.some.injEq] at hp'
      subst hp'
      exact hq hsingle
    | _ => rcases hev with h | h <;> cases h
  once := (oneTask hr).once

/-- Two jobs of different priority are enqueued between the last empty probe of a
worker and its blocking read; the worker then reads again. -/
def twoReady : List (Choice Env Proc) := List.flatten
  [[.start (.workerLoop "w" 3)], runs 0 5,
    [.start (.submitJob 7 1 { type := .email, payload := .null, priority := .high })], runs 1 5,
    [.start (.submitJob 7 2 { type := .email, payload := .null })], runs 2 5,
    runs 0 5]

/-- The newest event is a read of worker `pid` that still owes tasks. -/
def owesTasks (pid : Nat) : List Ev → Bool
  | ev :: l => (match proc? pid (ev :: l) with
      | some (.workerLoop _ _) => true
      | _ => false) &&
    ev.pid == pid && reads ev && (delivered (own pid l)).length != (dispatched (own pid l)).length
  | [] => false

theorem message_undispatched :
    ¬ ∀ c, Reachable (system defaultApp) c → Dispatches c.shared := by
  intro h
  obtain ⟨c, hc, hl⟩ := reachable_of_replay defaultApp twoReady
    (fun c => owesTasks 0 c.shared.log) (by decide +kernel)
  have hd := h c hc
  generalize hlog : c.shared.log = log at hl
  cases log with
  | nil => cases hl
  | cons ev l =>
    simp only [owesTasks, Bool.and_eq_true, beq_iff_eq, bne_iff_ne] at hl
    obtain ⟨⟨⟨hproc, hpid⟩, hread⟩, hne⟩ := hl
    split at hproc
    · rename_i consumer fuel hp
      refine hne (congrArg List.length (hd.drained 0 consumer fuel ?_ ev l ?_ hpid (.inl hread)))
      · rw [hlog]
        exact hp
      · exact hlog ▸ List.suffix_refl _
    · cases hproc

def oneJobRead : List (Choice Env Proc) := List.flatten
  [[.start (.submitJob 7 1 { type := .email, payload := .null })], runs 0 5,
    [.start (.workerLoop "w" 3)], runs 1 8]

theorem dispatches_oneJobRead :
    ∃ c, Run (system defaultApp) (fun σ ev => oneReady σ ev = true) c ∧
      taskEntries c.shared.log = [0] ∧ Dispatches c.shared := by
  obtain ⟨c, hc, hl⟩ := run_of_replay defaultApp (fun σ ev => oneReady σ ev = true) oneReady
    (fun _ _ h => h) oneJobRead (fun c => taskEntries c.shared.log == [0]) (by decide +kernel)
  exact ⟨c, hc, by simpa using hl, dispatches_of_oneReady defaultApp c hc⟩

end JobProcessor
