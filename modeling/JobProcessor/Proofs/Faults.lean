import JobProcessor.Proofs.Idempotency
import JobProcessor.Proofs.References

/-! The error paths no run takes. A row looked up by its id alone is always there, a
delivered message always carries a job id, and so no request ends in an exception, and
a task or a tick only where the retry decision raises one: on a schedule without
delays, or with a delay that leads past the last instant. -/

namespace JobProcessor

open Interleave Prog Store

variable {app : App}

/-! ### What an exception is owed to -/

/-- A row was looked up by its id alone and was not there. -/
def Missed (h : Hist) : Prop := ∃ id, (⟨.getJob id none, none⟩ : Reply Op Op.Res) ∈ h

/-- An insert without an idempotency key was refused. -/
def Clashed (h : Hist) : Prop :=
  ∃ n : Repository.NewJob, n.idempotencyKey = none ∧
    (⟨.createJob n, false⟩ : Reply Op Op.Res) ∈ h

/-- The schedule raises `exc`, for instants up to `now`. -/
def Settings.misplans (settings : Settings) (now : Time) : Exc → Prop
  | .indexError => settings.retryBackoffSchedule = []
  | .overflowError => ∃ delay ∈ settings.retryBackoffSchedule, maxInstant < now + delay * 1000000
  | _ => False

def Misplanned (app : App) (h : Hist) (exc : Exc) : Prop :=
  ∃ now, app.settings.misplans now exc ∧
    (exc = .overflowError → (⟨.now, now⟩ : Reply Op Op.Res) ∈ h)

theorem Misplanned.cons {h : Hist} {exc : Exc} (hm : Misplanned app h exc)
    (x : Reply Op Op.Res) : Misplanned app (x :: h) exc := by
  obtain ⟨now, hx, hread⟩ := hm
  exact ⟨now, hx, fun he => List.mem_cons_of_mem _ (hread he)⟩

section Programs

variable {h : Hist}

theorem Missed.cons (hm : Missed h) (x : Reply Op Op.Res) : Missed (x :: h) :=
  hm.imp fun _ hx => List.mem_cons_of_mem _ hx

def refuses (h : Hist) (r : Except Exc Response) : Prop :=
  ∀ exc, r = .error exc → Missed h ∨ Clashed h

end Programs

/-! ### Along a run -/

section Runs

variable {σ σ' : State} {ev : Ev}

/-- The messages a reply of `XAUTOCLAIM` brings are entries. -/
def Reclaimed (σ : State) : Prop :=
  ∀ pid s idle a n reply, .act pid (.xautoclaim s idle a n) reply ∈ σ.log →
    ∀ m ∈ reply.2, Taken σ m

theorem Reclaimed.move (h : Reclaimed σ) (hm : Move (system app) σ ev σ') : Reclaimed σ' := by
  intro pid s idle a n reply hev m hmem
  rw [move_log hm] at hev
  rcases List.mem_cons.1 hev with rfl | hev
  · obtain ⟨en, now, -, hen, -, hf'⟩ := move_reclaim hm hmem
    exact ⟨_, hf', hen, by simp⟩
  · exact (h pid s idle a n reply hev m hmem).move hm

theorem reclaimed_of_todo {h : Hist} {m : Message} (hm : m ∈ (reap h).todo) :
    ∃ s idle a n reply, (⟨.xautoclaim s idle a n, reply⟩ : Reply Op Op.Res) ∈ h ∧ m ∈ reply.2 := by
  induction h with
  | nil => cases hm
  | cons x h ih =>
    have hold : m ∈ (reap h).todo → ∃ s idle a n reply,
        (⟨.xautoclaim s idle a n, reply⟩ : Reply Op Op.Res) ∈ x :: h ∧ m ∈ reply.2 := by
      intro hm
      obtain ⟨s, idle, a, n, reply, hx, hr⟩ := ih hm
      exact ⟨s, idle, a, n, reply, List.mem_cons_of_mem _ hx, hr⟩
    obtain ⟨o, r⟩ := x
    rw [reap] at hm
    cases o with
    | xautoclaim s idle a n => exact ⟨s, idle, a, n, r, List.mem_cons_self, hm⟩
    | shouldStop => cases hm
    | xack s i => exact hold (List.mem_of_mem_tail hm)
    | _ => exact hold hm

theorem row_of_taken (href : References app σ.world) {m : Message} (h : Taken σ m) :
    ∃ id row, m.jobId = some id ∧ σ.world.jobs.find? id = some row := by
  obtain ⟨en, hf, rfl, -⟩ := h
  obtain ⟨id, hid, row, hrow, -⟩ := href.entries en (Streams.find?_mem hf)
  exact ⟨id, row, hid, hrow⟩

/-- No clock reading lies ahead of the clock. -/
def ReadBefore (σ : State) : Prop :=
  ∀ pid (now : Time), .act pid .now now ∈ σ.log → now ≤ σ.world.clock

theorem ReadBefore.move (h : ReadBefore σ) (hm : Move (system app) σ ev σ') : ReadBefore σ' := by
  intro pid now hev
  rw [move_log hm] at hev
  rcases List.mem_cons.1 hev with rfl | hev
  · obtain ⟨e, he⟩ := move_exec hm
    simp only [exec, Option.some.injEq, Prod.mk.injEq] at he
    obtain ⟨hw, rfl⟩ := he
    rw [← hw]
  · exact (h pid now hev).trans (move_clock hm)

structure Lookups (app : App) (σ : State) : Prop where
  submits : SubmitInv app σ
  tasks : TaskProcs σ
  valid : ∀ pid o r, .act pid o r ∈ σ.log → Valid o r
  reclaims : Reclaimed σ
  found : ∀ pid id, .act pid (.getJob id none) none ∉ σ.log
  clock : ReadBefore σ

/-- A process that looks a row up by its id alone knows that there is one. -/
theorem Lookups.row (h : Lookups app σ) (href : References app σ.world) {pid : Nat} {id : Uuid}
    {r : Option Job} (ht : Told app σ (.act pid (.getJob id none) r)) :
    ∃ row, σ.world.jobs.find? id = some row := by
  have howned : ∀ user, Owned user id (own pid σ.log) →
      ∃ row, σ.world.jobs.find? id = some row := by
    rintro user ⟨job, hj⟩
    have hev := mem_own.1 hj
    have hid : job.id = id := (h.valid _ _ _ hev job rfl).1
    obtain ⟨row, hf, -⟩ := h.submits.seen _ _ _ hev job (by simp [shows])
    exact ⟨row, hid ▸ hf⟩
  have hhand : ∀ {m : Message} {ms}, (reap (own pid σ.log)).todo = m :: ms → m.jobId = some id →
      ∃ row, σ.world.jobs.find? id = some row := by
    intro m ms htodo hm
    obtain ⟨s, idle, a, n, reply, hx, hr⟩ :=
      reclaimed_of_todo (htodo ▸ List.mem_cons_self : m ∈ (reap (own pid σ.log)).todo)
    obtain ⟨id', row, hid, hrow⟩ := row_of_taken href (h.reclaims _ _ _ _ _ _ (mem_own.1 hx) m hr)
    rw [hm, Option.some.injEq] at hid
    exact ⟨row, hid ▸ hrow⟩
  obtain ⟨-, p, hp, hi⟩ := ht
  cases p with
  | submitJob user newId sub =>
    obtain ⟨-, -, n, rfl, hn⟩ := hi
    obtain ⟨row, hf, -⟩ := h.submits.seen.created (mem_own.1 hn)
    exact ⟨row, hf⟩
  | getJob user i => exact absurd hi.2 (by simp)
  | retryJob user i =>
    obtain ⟨rfl, hu | ⟨-, ho⟩⟩ := hi
    · cases hu
    · exact howned user ho
  | cancelJobRoute user i =>
    obtain ⟨rfl, hu | ⟨-, ho⟩⟩ := hi
    · cases hu
    · exact howned user ho
  | listJobs user status type priority limit cursor => exact hi.elim
  | workerLoop consumer fuel => exact hi.elim
  | runOne consumer m =>
    obtain ⟨id', row, hid, hrow⟩ := row_of_taken href (h.tasks.begun pid consumer m hp).2
    obtain ⟨-, hm, -⟩ := hi
    rw [hm, Option.some.injEq] at hid
    exact ⟨row, hid ▸ hrow⟩
  | ticker fuel =>
    obtain ⟨-, m, ms, htodo, hm⟩ := hi
    exact hhand htodo hm
  | promoteDue =>
    obtain ⟨-, m, ms, htodo, hm⟩ := hi.1
    exact hhand htodo hm

theorem Lookups.move (h : Lookups app σ) (href : References app σ.world)
    (hm : Move (system app) σ ev σ') (ht : Told app σ ev) : Lookups app σ' := by
  refine ⟨h.submits.move hm ht, h.tasks.move hm ht, valid_move h.valid hm, h.reclaims.move hm, ?_,
    h.clock.move hm⟩
  intro pid id hev
  rw [move_log hm] at hev
  rcases List.mem_cons.1 hev with rfl | hev
  · obtain ⟨row, hrow⟩ := h.row href ht
    obtain ⟨e, he⟩ := move_exec hm
    simp only [exec, Repository.getJob, Option.some.injEq, Prod.mk.injEq] at he
    rw [hrow] at he
    cases he.2
  · exact h.found pid id hev

end Runs

end JobProcessor
