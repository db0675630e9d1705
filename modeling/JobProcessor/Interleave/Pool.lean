import JobProcessor.Interleave.Prog
import Mathlib.Data.List.Basic
import Mathlib.Data.List.Perm.Subperm

/-! A pool of programs over one shared world. A scheduler starts processes, lets
one of them perform its next action, or stops one for good between two actions;
every such move is recorded in a log, newest first. The log is the history
variable of all later proofs: what a process knows is what it has been told. -/

namespace Interleave

section Defs

variable (World Op : Type) (Res : Op → Type) (Env Proc Out : Type)

/-- What the scheduler let happen. -/
inductive Event where
  | start (pid : Nat) (p : Proc)
  | act (pid : Nat) (o : Op) (r : Res o)
  | ret (pid : Nat) (a : Out)
  | crash (pid : Nat)

structure Shared where
  world : World
  log : List (Event Op Res Proc Out)

/-- `threads[pid]` is what is left of the program of process `pid`; `none` once it
has returned or crashed. -/
structure Config where
  shared : Shared World Op Res Proc Out
  threads : List (Option (Prog Op Res Out))

inductive Choice where
  | start (p : Proc)
  | run (pid : Nat) (e : Env)
  | crash (pid : Nat)

/-- The parts of a concurrent system. `exec` performs an action atomically under
the choices `Env` of the outside world and is `none` while the action blocks;
`forks` names the process an action creates; `allows` says which processes may be
started from outside. -/
structure Sys where
  init : World
  exec : (o : Op) → Env → World → Option (World × Res o)
  body : Proc → Prog Op Res Out
  forks : Op → Option Proc
  allows : Shared World Op Res Proc Out → Proc → Bool

end Defs

variable {World Op : Type} {Res : Op → Type} {Env Proc Out : Type}

namespace Event

def pid : Event Op Res Proc Out → Nat
  | .start q _ => q
  | .act q _ _ => q
  | .ret q _ => q
  | .crash q => q

def isStart : Event Op Res Proc Out → Bool
  | .start _ _ => true
  | _ => false

def isRet : Event Op Res Proc Out → Bool
  | .ret _ _ => true
  | _ => false

def isCrash : Event Op Res Proc Out → Bool
  | .crash _ => true
  | _ => false

@[simp] theorem pid_start (q : Nat) (p : Proc) :
    (Event.start q p : Event Op Res Proc Out).pid = q := rfl
@[simp] theorem pid_act (q : Nat) (o : Op) (r : Res o) :
    (Event.act q o r : Event Op Res Proc Out).pid = q := rfl
@[simp] theorem pid_ret (q : Nat) (a : Out) :
    (Event.ret q a : Event Op Res Proc Out).pid = q := rfl
@[simp] theorem pid_crash (q : Nat) :
    (Event.crash q : Event Op Res Proc Out).pid = q := rfl

end Event

/-! ### Reading the log -/

/-- What process `pid` was started as. -/
def proc? (pid : Nat) : List (Event Op Res Proc Out) → Option Proc
  | [] => none
  | .start q p :: l => if q = pid then some p else proc? pid l
  | .act _ _ _ :: l => proc? pid l
  | .ret _ _ :: l => proc? pid l
  | .crash _ :: l => proc? pid l

/-- The replies process `pid` has had, newest first. -/
def own (pid : Nat) : List (Event Op Res Proc Out) → List (Prog.Reply Op Res)
  | [] => []
  | .start _ _ :: l => own pid l
  | .act q o r :: l => if q = pid then ⟨o, r⟩ :: own pid l else own pid l
  | .ret _ _ :: l => own pid l
  | .crash _ :: l => own pid l

/-- `pid` was started and has neither returned nor crashed. -/
def live (pid : Nat) : List (Event Op Res Proc Out) → Bool
  | [] => false
  | .start q _ :: l => q = pid || live pid l
  | .act _ _ _ :: l => live pid l
  | .ret q _ :: l => q ≠ pid && live pid l
  | .crash q :: l => q ≠ pid && live pid l

section LogLemmas

variable (pid q : Nat) (p : Proc) (o : Op) (r : Res o) (a : Out)
  (l : List (Event Op Res Proc Out))

@[simp] theorem proc?_nil : proc? pid ([] : List (Event Op Res Proc Out)) = none := rfl
@[simp] theorem proc?_start :
    proc? pid (.start q p :: l) = if q = pid then some p else proc? pid l := rfl
@[simp] theorem proc?_act : proc? pid (.act q o r :: l) = proc? pid l := rfl
@[simp] theorem proc?_ret : proc? pid (.ret q a :: l) = proc? pid l := rfl
@[simp] theorem proc?_crash : proc? pid (.crash q :: l) = proc? pid l := rfl

@[simp] theorem own_nil : own pid ([] : List (Event Op Res Proc Out)) = [] := rfl
@[simp] theorem own_start : own pid (.start q p :: l) = own pid l := rfl
@[simp] theorem own_act :
    own pid (.act q o r :: l) = if q = pid then ⟨o, r⟩ :: own pid l else own pid l := rfl
@[simp] theorem own_ret : own pid (.ret q a :: l) = own pid l := rfl
@[simp] theorem own_crash : own pid (.crash q :: l) = own pid l := rfl

@[simp] theorem live_nil : live pid ([] : List (Event Op Res Proc Out)) = false := rfl
@[simp] theorem live_start :
    live pid (.start q p :: l) = (decide (q = pid) || live pid l) := rfl
@[simp] theorem live_act : live pid (.act q o r :: l) = live pid l := rfl
@[simp] theorem live_ret :
    live pid (.ret q a :: l) = (decide (q ≠ pid) && live pid l) := rfl
@[simp] theorem live_crash :
    live pid (.crash q :: l) = (decide (q ≠ pid) && live pid l) := rfl

end LogLemmas

theorem own_of_pid_ne {pid : Nat} {ev : Event Op Res Proc Out}
    {l : List (Event Op Res Proc Out)} (h : ev.pid ≠ pid) : own pid (ev :: l) = own pid l := by
  cases ev <;> simp_all

theorem mem_own {pid : Nat} {o : Op} {r : Res o} {l : List (Event Op Res Proc Out)} :
    (⟨o, r⟩ : Prog.Reply Op Res) ∈ own pid l ↔ .act pid o r ∈ l := by
  induction l with
  | nil => simp
  | cons ev l ih =>
    cases ev with
    | act q o' r' =>
      rw [own_act, List.mem_cons]
      by_cases hq : q = pid
      · subst hq
        rw [if_pos rfl, List.mem_cons, ih, Event.act.injEq, Sigma.mk.injEq]
        simp
      · rw [if_neg hq, ih, Event.act.injEq]
        simp [Ne.symm hq]
    | _ => simp [ih]

theorem mem_of_proc? {pid : Nat} {p : Proc} {l : List (Event Op Res Proc Out)}
    (h : proc? pid l = some p) : .start pid p ∈ l := by
  induction l with
  | nil => cases h
  | cons ev l ih =>
    cases ev with
    | start q p' =>
      rw [proc?_start] at h
      split at h
      · rename_i hq
        cases h
        rw [hq]
        exact List.mem_cons_self
      · exact List.mem_cons_of_mem _ (ih h)
    | _ => exact List.mem_cons_of_mem _ (ih h)

theorem suffix_of_own {pid : Nat} {o : Op} {r : Res o} {g : List (Prog.Reply Op Res)}
    {l : List (Event Op Res Proc Out)} (h : ⟨o, r⟩ :: g <:+ own pid l) :
    ∃ l', .act pid o r :: l' <:+ l ∧ own pid l' = g := by
  induction l with
  | nil => simp at h
  | cons ev l ih =>
    have hold : ⟨o, r⟩ :: g <:+ own pid l → ∃ l', .act pid o r :: l' <:+ ev :: l ∧ own pid l' = g := by
      intro h
      obtain ⟨l', hl, hg⟩ := ih h
      exact ⟨l', hl.trans (List.suffix_cons _ _), hg⟩
    cases ev with
    | act q o' r' =>
      rw [own_act] at h
      split at h
      · rename_i hq
        rcases List.suffix_cons_iff.1 h with heq | h
        · rw [List.cons.injEq, Sigma.mk.injEq] at heq
          obtain ⟨⟨rfl, hr⟩, rfl⟩ := heq
          rw [heq_eq_eq] at hr
          subst hq hr
          exact ⟨l, List.suffix_refl _, rfl⟩
        · exact hold h
      · exact hold h
    | _ => exact hold h

/-- No process does `p` twice if no event of kind `p` follows another of its process. -/
theorem nodup_pids {p : Event Op Res Proc Out → Bool} (l : List (Event Op Res Proc Out))
    (h : ∀ ev l', ev :: l' <:+ l → p ev = true → ∀ ev' ∈ l', p ev' = true → ev'.pid ≠ ev.pid) :
    ((l.filter p).map Event.pid).Nodup := by
  induction l with
  | nil => exact List.nodup_nil
  | cons ev l ih =>
    have hl := ih fun ev' l' hs => h ev' l' (hs.trans (List.suffix_cons ev l))
    rw [List.filter_cons]
    split
    · rename_i hp
      rw [List.map_cons, List.nodup_cons]
      refine ⟨fun hmem => ?_, hl⟩
      obtain ⟨ev', hev, hpid⟩ := List.mem_map.1 hmem
      obtain ⟨hm, hp'⟩ := List.mem_filter.1 hev
      exact h ev l (List.suffix_refl _) hp ev' hm hp' hpid
    · exact hl

/-- If no process does `p` twice, and each that does `p` also does `q`, then `q`
happens at least as often as `p`. -/
theorem countP_le_of_pids {p q : Event Op Res Proc Out → Bool}
    {l : List (Event Op Res Proc Out)} (hn : ((l.filter p).map Event.pid).Nodup)
    (hq : ∀ ev ∈ l, p ev = true → ∃ ev' ∈ l, q ev' = true ∧ ev'.pid = ev.pid) :
    l.countP p ≤ l.countP q := by
  have hsub : (l.filter p).map Event.pid ⊆ (l.filter q).map Event.pid := by
    intro i hi
    obtain ⟨ev, hev, rfl⟩ := List.mem_map.1 hi
    obtain ⟨hm, hp⟩ := List.mem_filter.1 hev
    obtain ⟨ev', hm', hq', hpid⟩ := hq ev hm hp
    exact List.mem_map.2 ⟨ev', List.mem_filter.2 ⟨hm', hq'⟩, hpid⟩
  have hle := (List.Nodup.subperm hn hsub).length_le
  rw [List.length_map, List.length_map] at hle
  rw [List.countP_eq_length_filter, List.countP_eq_length_filter]
  exact hle

/-! ### Moves of the scheduler -/

section Moves

variable (S : Sys World Op Res Env Proc Out)

def Config.init : Config World Op Res Proc Out := ⟨⟨S.init, []⟩, []⟩

def Config.spawn (c : Config World Op Res Proc Out) (p : Proc) : Config World Op Res Proc Out :=
  ⟨⟨c.shared.world, .start c.threads.length p :: c.shared.log⟩, c.threads ++ [some (S.body p)]⟩

/-- Process `pid` has moved: the world is now `w`, `ev` is recorded, and `rest` is
left of its program. -/
def Config.moved (c : Config World Op Res Proc Out) (pid : Nat) (w : World)
    (ev : Event Op Res Proc Out) (rest : Option (Prog Op Res Out)) :
    Config World Op Res Proc Out :=
  ⟨⟨w, ev :: c.shared.log⟩, c.threads.set pid rest⟩

/-- One move. The event it reports is the action, not the start of a process the
action has created. -/
def step (c : Config World Op Res Proc Out) :
    Choice Env Proc → Option (Event Op Res Proc Out × Config World Op Res Proc Out)
  | .start p =>
    if S.allows c.shared p then some (.start c.threads.length p, c.spawn S p) else none
  | .run pid e =>
    match c.threads[pid]? with
    | some (some (.pure a)) => some (.ret pid a, c.moved pid c.shared.world (.ret pid a) none)
    | some (some (.act o k)) =>
      match S.exec o e c.shared.world with
      | none => none
      | some (w, r) =>
        let c' := c.moved pid w (.act pid o r) (some (k r))
        match S.forks o with
        | none => some (.act pid o r, c')
        | some p => some (.act pid o r, c'.spawn S p)
    | _ => none
  | .crash pid =>
    match c.threads[pid]? with
    | some (some _) => some (.crash pid, c.moved pid c.shared.world (.crash pid) none)
    | _ => none

/-- The configurations reached by moves whose events all satisfy `ok` in the state
they happen in. -/
inductive Run (ok : Shared World Op Res Proc Out → Event Op Res Proc Out → Prop) :
    Config World Op Res Proc Out → Prop where
  | init : Run ok (Config.init S)
  | step {c c' ch ev} : Run ok c → step S c ch = some (ev, c') → ok c.shared ev → Run ok c'

abbrev Reachable : Config World Op Res Proc Out → Prop := Run S fun _ _ => True

inductive Leads (c : Config World Op Res Proc Out) : Config World Op Res Proc Out → Prop where
  | refl : Leads c c
  | step {c₁ c₂ ch ev} : Leads c c₁ → step S c₁ ch = some (ev, c₂) → Leads c c₂

/-- Follow a schedule, as long as every event satisfies `ok`. -/
def exec? (ok : Shared World Op Res Proc Out → Event Op Res Proc Out → Bool) :
    List (Choice Env Proc) → Config World Op Res Proc Out →
      Option (Config World Op Res Proc Out)
  | [], c => some c
  | ch :: sched, c =>
    match step S c ch with
    | none => none
    | some (ev, c') => if ok c.shared ev then exec? ok sched c' else none

/-- A schedule followed from the start, seen through `p`. -/
def replay (ok : Shared World Op Res Proc Out → Event Op Res Proc Out → Bool)
    (sched : List (Choice Env Proc)) {β : Type} (p : Config World Op Res Proc Out → β) : Option β :=
  (exec? S ok sched (Config.init S)).map p

variable {S} {ok : Shared World Op Res Proc Out → Event Op Res Proc Out → Prop}

theorem Run.mono {ok' : Shared World Op Res Proc Out → Event Op Res Proc Out → Prop}
    {c : Config World Op Res Proc Out} (h : Run S ok c)
    (hok : ∀ σ ev, ok σ ev → ok' σ ev) : Run S ok' c := by
  induction h with
  | init => exact .init
  | step _ hs ho ih => exact ih.step hs (hok _ _ ho)

theorem Run.exec? {okb : Shared World Op Res Proc Out → Event Op Res Proc Out → Bool}
    (hok : ∀ σ ev, okb σ ev = true → ok σ ev) :
    ∀ (sched : List (Choice Env Proc)) {c c' : Config World Op Res Proc Out},
      Run S ok c → Interleave.exec? S okb sched c = some c' → Run S ok c' := by
  intro sched
  induction sched with
  | nil => intro c c' h he; cases he; exact h
  | cons ch sched ih =>
    intro c c' h he
    simp only [Interleave.exec?] at he
    split at he
    · cases he
    · rename_i ev c₁ hs
      split at he
      · rename_i ho
        exact ih (h.step hs (hok _ _ ho)) he
      · cases he

theorem Leads.exec? {okb : Shared World Op Res Proc Out → Event Op Res Proc Out → Bool} :
    ∀ (sched : List (Choice Env Proc)) {c c₁ c₂ : Config World Op Res Proc Out},
      Leads S c c₁ → Interleave.exec? S okb sched c₁ = some c₂ → Leads S c c₂ := by
  intro sched
  induction sched with
  | nil => intro c c₁ c₂ h he; cases he; exact h
  | cons ch sched ih =>
    intro c c₁ c₂ h he
    simp only [Interleave.exec?] at he
    split at he
    · cases he
    · rename_i ev c' hs
      split at he
      · exact ih (h.step hs) he
      · cases he

theorem Run.of_replay {okb : Shared World Op Res Proc Out → Event Op Res Proc Out → Bool}
    (hok : ∀ σ ev, okb σ ev = true → ok σ ev) {sched : List (Choice Env Proc)}
    {p : Config World Op Res Proc Out → Bool} (h : replay S okb sched p = some true) :
    ∃ c, Run S ok c ∧ p c = true := by
  unfold replay at h
  rw [Option.map_eq_some_iff] at h
  obtain ⟨c, hc, hp⟩ := h
  exact ⟨c, Run.exec? hok sched .init hc, hp⟩

end Moves

/-! ### The same moves, seen from the shared state -/

section Shared

variable (S : Sys World Op Res Env Proc Out)

/-- The effect of one event on the shared state. -/
inductive Move : Shared World Op Res Proc Out → Event Op Res Proc Out →
    Shared World Op Res Proc Out → Prop where
  | start {σ} (pid : Nat) (p : Proc) : Move σ (.start pid p) ⟨σ.world, .start pid p :: σ.log⟩
  | act {σ} (pid : Nat) (o : Op) (e : Env) {w : World} {r : Res o} :
      S.exec o e σ.world = some (w, r) → Move σ (.act pid o r) ⟨w, .act pid o r :: σ.log⟩
  | ret {σ} (pid : Nat) (a : Out) : Move σ (.ret pid a) ⟨σ.world, .ret pid a :: σ.log⟩
  | crash {σ} (pid : Nat) : Move σ (.crash pid) ⟨σ.world, .crash pid :: σ.log⟩

/-- What every event owes to the program of its process: `P` relates the actions
of a process to the replies it has had before them, and `Q` what it returns. -/
def Issued (P : Proc → List (Prog.Reply Op Res) → Op → Prop)
    (Q : Proc → List (Prog.Reply Op Res) → Out → Prop) (σ : Shared World Op Res Proc Out) :
    Event Op Res Proc Out → Prop
  | .start pid p => (proc? pid σ.log = none ∧ own pid σ.log = []) ∧
      (S.allows σ p = true ∨ ∃ q o r l, σ.log = .act q o r :: l ∧ S.forks o = some p)
  | .act pid o _ => live pid σ.log = true ∧ ∃ p, proc? pid σ.log = some p ∧ P p (own pid σ.log) o
  | .ret pid a => live pid σ.log = true ∧ ∃ p, proc? pid σ.log = some p ∧ Q p (own pid σ.log) a
  | .crash pid => live pid σ.log = true

variable {S} in
theorem Issued.mono {P P' : Proc → List (Prog.Reply Op Res) → Op → Prop}
    {Q Q' : Proc → List (Prog.Reply Op Res) → Out → Prop} {σ : Shared World Op Res Proc Out}
    {ev : Event Op Res Proc Out} (h : Issued S P Q σ ev) (hP : ∀ p g o, P p g o → P' p g o)
    (hQ : ∀ p g a, Q p g a → Q' p g a) : Issued S P' Q' σ ev := by
  cases ev with
  | start pid p => exact h
  | act pid o r => exact ⟨h.1, h.2.imp fun p hp => ⟨hp.1, hP p _ o hp.2⟩⟩
  | ret pid a => exact ⟨h.1, h.2.imp fun p hp => ⟨hp.1, hQ p _ a hp.2⟩⟩
  | crash pid => exact h

/-- The part of a configuration that the log determines: which processes exist,
which of them still run, and that what is left of a program continues the
replies it has had. -/
structure WF (V : (o : Op) → Res o → Prop) (P : Proc → List (Prog.Reply Op Res) → Op → Prop)
    (Q : Proc → List (Prog.Reply Op Res) → Out → Prop) (c : Config World Op Res Proc Out) :
    Prop where
  unstarted : ∀ pid, c.threads.length ≤ pid →
    proc? pid c.shared.log = none ∧ own pid c.shared.log = [] ∧ live pid c.shared.log = false
  started : ∀ pid, pid < c.threads.length → proc? pid c.shared.log ≠ none
  running : ∀ pid rest, c.threads[pid]? = some (some rest) →
    live pid c.shared.log = true ∧ ∃ p, proc? pid c.shared.log = some p ∧
      Prog.Emits V (P p) (Q p) (own pid c.shared.log) rest
  ended : ∀ pid, c.threads[pid]? = some none → live pid c.shared.log = false

variable {S} {V : (o : Op) → Res o → Prop} {P : Proc → List (Prog.Reply Op Res) → Op → Prop}
  {Q : Proc → List (Prog.Reply Op Res) → Out → Prop} {c c' : Config World Op Res Proc Out}

theorem WF.init : WF V P Q (Config.init S) where
  unstarted _ _ := ⟨rfl, rfl, rfl⟩
  started pid h := absurd h (Nat.not_lt_zero pid)
  running pid rest h := by simp [Config.init] at h
  ended pid h := by simp [Config.init] at h

theorem WF.spawn (h : WF V P Q c) (p : Proc) (hb : Prog.Emits V (P p) (Q p) [] (S.body p)) :
    WF V P Q (c.spawn S p) where
  unstarted pid hpid := by
    simp only [Config.spawn, List.length_append, List.length_singleton] at hpid ⊢
    obtain ⟨h1, h2, h3⟩ := h.unstarted pid (by omega)
    have hne : ¬ c.threads.length = pid := by omega
    simp [h1, h2, h3, hne]
  started pid hpid := by
    simp only [Config.spawn, List.length_append, List.length_singleton, proc?_start] at hpid ⊢
    split
    · simp
    · exact h.started pid (by omega)
  running pid rest hr := by
    simp only [Config.spawn, List.getElem?_append] at hr ⊢
    split at hr
    · rename_i hlt
      obtain ⟨h1, p', h2, h3⟩ := h.running pid rest hr
      have hne : ¬ c.threads.length = pid := by omega
      exact ⟨by simp [h1], p', by simp [h2, hne], h3⟩
    · rename_i hge
      rcases Nat.eq_zero_or_pos (pid - c.threads.length) with h0 | h0
      · have he : c.threads.length = pid := by omega
        simp only [h0, List.getElem?_cons_zero, Option.some.injEq] at hr
        obtain ⟨-, h2, -⟩ := h.unstarted pid (by omega)
        exact ⟨by simp [he], p, by simp [he], by simpa [h2, ← hr] using hb⟩
      · rw [List.getElem?_eq_none (by simp; omega)] at hr
        cases hr
  ended pid hr := by
    simp only [Config.spawn, List.getElem?_append] at hr ⊢
    split at hr
    · rename_i hlt
      have hne : ¬ c.threads.length = pid := by omega
      simp [hne, h.ended pid hr]
    · rcases Nat.eq_zero_or_pos (pid - c.threads.length) with h0 | h0
      · simp [h0] at hr
      · rw [List.getElem?_eq_none (by simp; omega)] at hr
        cases hr

theorem WF.act {pid : Nat} {o : Op} {k : Res o → Prog Op Res Out} (h : WF V P Q c)
    (ht : c.threads[pid]? = some (some (.act o k))) (w : World) {r : Res o} (hV : V o r) :
    WF V P Q (c.moved pid w (.act pid o r) (some (k r))) where
  unstarted q hq := by
    simp only [Config.moved, List.length_set] at hq ⊢
    have hne : ¬ pid = q := by
      rintro rfl
      rw [List.getElem?_eq_none hq] at ht
      cases ht
    simpa [hne] using h.unstarted q hq
  started q hq := by
    simp only [Config.moved, List.length_set] at hq ⊢
    simpa using h.started q hq
  running q rest hr := by
    simp only [Config.moved, List.getElem?_set] at hr ⊢
    split at hr
    · rename_i hq
      subst hq
      split at hr
      · cases hr
        obtain ⟨h1, p, h2, h3⟩ := h.running pid _ ht
        exact ⟨by simpa using h1, p, by simpa using h2, by simpa using h3.2 r hV⟩
      · cases hr
    · rename_i hq
      simpa [hq] using h.running q rest hr
  ended q hr := by
    simp only [Config.moved, List.getElem?_set] at hr ⊢
    split at hr
    · split at hr <;> cases hr
    · simpa using h.ended q hr

theorem WF.over {pid : Nat} (h : WF V P Q c) (w : World) (ev : Event Op Res Proc Out)
    (hev : ev = .crash pid ∨ ∃ a, ev = .ret pid a) : WF V P Q (c.moved pid w ev none) where
  unstarted q hq := by
    simp only [Config.moved, List.length_set] at hq ⊢
    obtain ⟨h1, h2, h3⟩ := h.unstarted q hq
    rcases hev with rfl | ⟨a, rfl⟩ <;> simp [h1, h2, h3]
  started q hq := by
    simp only [Config.moved, List.length_set] at hq ⊢
    rcases hev with rfl | ⟨a, rfl⟩ <;> simpa using h.started q hq
  running q rest' hr := by
    simp only [Config.moved, List.getElem?_set] at hr ⊢
    split at hr
    · split at hr <;> cases hr
    · rename_i hq
      rcases hev with rfl | ⟨a, rfl⟩ <;> simpa [hq] using h.running q rest' hr
  ended q hr := by
    simp only [Config.moved, List.getElem?_set] at hr ⊢
    split at hr
    · rename_i hq
      rcases hev with rfl | ⟨a, rfl⟩ <;> simp [hq]
    · have hq := h.ended q hr
      rcases hev with rfl | ⟨a, rfl⟩ <;> simp [hq]

/-- Everything one move can be. -/
theorem step_cases {ch : Choice Env Proc} {ev : Event Op Res Proc Out}
    (h : step S c ch = some (ev, c')) :
    (∃ p, S.allows c.shared p = true ∧ ev = .start c.threads.length p ∧ c' = c.spawn S p) ∨
    (∃ pid a, c.threads[pid]? = some (some (.pure a)) ∧ ev = .ret pid a ∧
      c' = c.moved pid c.shared.world (.ret pid a) none) ∨
    (∃ pid o k e w r, c.threads[pid]? = some (some (.act o k)) ∧
      S.exec o e c.shared.world = some (w, r) ∧ ev = .act pid o r ∧
      (S.forks o = none ∧ c' = c.moved pid w (.act pid o r) (some (k r)) ∨
        ∃ p, S.forks o = some p ∧ c' = (c.moved pid w (.act pid o r) (some (k r))).spawn S p)) ∨
    (∃ pid rest, c.threads[pid]? = some (some rest) ∧ ev = .crash pid ∧
      c' = c.moved pid c.shared.world (.crash pid) none) := by
  cases ch with
  | start p =>
    simp only [step] at h
    split at h
    · cases h; exact .inl ⟨p, ‹_›, rfl, rfl⟩
    · cases h
  | run pid e =>
    simp only [step] at h
    split at h
    · cases h; exact .inr (.inl ⟨pid, _, ‹_›, rfl, rfl⟩)
    · rename_i o k ht
      split at h
      · cases h
      · rename_i w r he
        refine .inr (.inr (.inl ⟨pid, o, k, e, w, r, ht, he, ?_⟩))
        split at h
        · cases h; exact ⟨rfl, .inl ⟨‹_›, rfl⟩⟩
        · cases h; exact ⟨rfl, .inr ⟨_, ‹_›, rfl⟩⟩
    · cases h
  | crash pid =>
    simp only [step] at h
    split at h
    · cases h; exact .inr (.inr (.inr ⟨pid, _, ‹_›, rfl, rfl⟩))
    · cases h

variable {ok : Shared World Op Res Proc Out → Event Op Res Proc Out → Prop}

theorem Run.wf (hV : ∀ o e w w' r, S.exec o e w = some (w', r) → V o r)
    (hb : ∀ p, Prog.Emits V (P p) (Q p) [] (S.body p)) (h : Run S ok c) : WF V P Q c := by
  induction h with
  | init => exact .init
  | @step c c' ch ev _ hs _ ih =>
    obtain ⟨p, -, -, rfl⟩ | ⟨pid, a, ht, -, rfl⟩ | ⟨pid, o, k, e, w, r, ht, he, -, hc⟩ |
      ⟨pid, rest, ht, -, rfl⟩ := step_cases hs
    · exact ih.spawn p (hb p)
    · exact ih.over _ _ (.inr ⟨a, rfl⟩)
    · rcases hc with ⟨-, rfl⟩ | ⟨p, -, rfl⟩
      · exact ih.act ht w (hV _ _ _ _ _ he)
      · exact (ih.act ht w (hV _ _ _ _ _ he)).spawn p (hb p)
    · exact ih.over _ _ (.inl rfl)

/-- One step of a reachable configuration as a move with all that its program says
about it; the start of a created process may follow. -/
theorem Run.step_issued {ch : Choice Env Proc} {ev : Event Op Res Proc Out}
    (hV : ∀ o e w w' r, S.exec o e w = some (w', r) → V o r)
    (hb : ∀ p, Prog.Emits V (P p) (Q p) [] (S.body p)) (hr : Run S ok c)
    (hs : Interleave.step S c ch = some (ev, c')) :
    ∃ σ, Move S c.shared ev σ ∧ Issued S P Q c.shared ev ∧ c'.shared.world = σ.world ∧
      (c'.shared.log = σ.log ∨ ∃ pid p, c'.shared.log = .start pid p :: σ.log) := by
  have hwf := hr.wf hV hb
  obtain ⟨p, ha, rfl, rfl⟩ | ⟨pid, a, ht, rfl, rfl⟩ | ⟨pid, o, k, e, w, r, ht, he, rfl, hc⟩ |
    ⟨pid, rest, ht, rfl, rfl⟩ := step_cases hs
  · obtain ⟨hp, ho, -⟩ := hwf.unstarted _ (Nat.le_refl _)
    exact ⟨_, .start _ p, ⟨⟨hp, ho⟩, .inl ha⟩, rfl, .inl rfl⟩
  · exact ⟨_, .ret pid a, hwf.running pid _ ht |>.imp_right fun ⟨p, hp, hq⟩ => ⟨p, hp, hq⟩, rfl,
      .inl rfl⟩
  · obtain ⟨hl, p, hp, hq⟩ := hwf.running pid _ ht
    refine ⟨_, .act pid o e he, ⟨hl, p, hp, hq.1⟩, ?_⟩
    rcases hc with ⟨-, rfl⟩ | ⟨p', -, rfl⟩
    · exact ⟨rfl, .inl rfl⟩
    · exact ⟨rfl, .inr ⟨_, p', rfl⟩⟩
  · exact ⟨_, .crash pid, (hwf.running pid _ ht).1, rfl, .inl rfl⟩

/-- Invariants of the shared state. Each event is offered with all that the
programs of the pool say about it; `ok` is known of every event but the start of
a process created by another. -/
theorem Run.inv {I : Shared World Op Res Proc Out → Prop}
    (hV : ∀ o e w w' r, S.exec o e w = some (w', r) → V o r)
    (hb : ∀ p, Prog.Emits V (P p) (Q p) [] (S.body p)) (h0 : I ⟨S.init, []⟩)
    (hstep : ∀ σ ev σ', I σ → Move S σ ev σ' → (ev.isStart = false → ok σ ev) →
      Issued S P Q σ ev → I σ')
    (h : Run S ok c) : I c.shared := by
  induction h with
  | init => exact h0
  | @step c c' ch ev hr hs ho ih =>
    have hwf := hr.wf hV hb
    obtain ⟨p, ha, rfl, rfl⟩ | ⟨pid, a, ht, rfl, rfl⟩ | ⟨pid, o, k, e, w, r, ht, he, rfl, hc⟩ |
      ⟨pid, rest, ht, rfl, rfl⟩ := step_cases hs
    · obtain ⟨hp, hown, -⟩ := hwf.unstarted _ (Nat.le_refl _)
      exact hstep _ _ _ ih (.start _ p) (fun _ => ho) ⟨⟨hp, hown⟩, .inl ha⟩
    · obtain ⟨hl, p, hp, hq⟩ := hwf.running pid _ ht
      exact hstep _ _ _ ih (.ret pid a) (fun _ => ho) ⟨hl, p, hp, hq⟩
    · obtain ⟨hl, p, hp, hq⟩ := hwf.running pid _ ht
      have h1 : I ⟨w, .act pid o r :: c.shared.log⟩ :=
        hstep _ _ _ ih (.act pid o e he) (fun _ => ho) ⟨hl, p, hp, hq.1⟩
      rcases hc with ⟨-, rfl⟩ | ⟨p', hf, rfl⟩
      · exact h1
      · obtain ⟨hp', hown, -⟩ := (hwf.act ht w (hV _ _ _ _ _ he)).unstarted _ (Nat.le_refl _)
        exact hstep _ _ _ h1 (.start _ p') (fun h => by simp [Event.isStart] at h)
          ⟨⟨hp', hown⟩, .inr ⟨pid, o, r, _, rfl, hf⟩⟩
    · exact hstep _ _ _ ih (.crash pid) (fun _ => ho) (hwf.running pid _ ht).1

/-- Every recorded action and answer is one its program issues after the replies it
had before it. -/
theorem Run.recorded (hV : ∀ o e w w' r, S.exec o e w = some (w', r) → V o r)
    (hb : ∀ p, Prog.Emits V (P p) (Q p) [] (S.body p)) (h : Run S ok c) :
    (∀ pid o r l, .act pid o r :: l <:+ c.shared.log →
      ∃ p, proc? pid c.shared.log = some p ∧ P p (own pid l) o) ∧
    ∀ pid a l, .ret pid a :: l <:+ c.shared.log →
      ∃ p, proc? pid c.shared.log = some p ∧ Q p (own pid l) a := by
  refine Run.inv (I := fun σ : Shared World Op Res Proc Out =>
    (∀ pid o r l, .act pid o r :: l <:+ σ.log →
      ∃ p, proc? pid σ.log = some p ∧ P p (own pid l) o) ∧
    ∀ pid a l, .ret pid a :: l <:+ σ.log →
      ∃ p, proc? pid σ.log = some p ∧ Q p (own pid l) a) hV hb ?_ ?_ h
  · constructor
    · intro pid o r l hl
      simp at hl
    · intro pid a l hl
      simp at hl
  · rintro σ ev σ' ⟨hact, hret⟩ hm - hi
    have hlog : σ'.log = ev :: σ.log := by cases hm <;> rfl
    have hstay : ∀ {pid p}, proc? pid σ.log = some p → proc? pid (ev :: σ.log) = some p := by
      intro pid p hp
      cases ev with
      | start q p' =>
        have hne : ¬ q = pid := by
          rintro rfl
          rw [hi.1.1] at hp
          cases hp
        rw [proc?_start, if_neg hne, hp]
      | _ => exact hp
    rw [hlog]
    constructor
    · intro pid o r l hl
      rcases List.suffix_cons_iff.1 hl with heq | hl
      · rw [List.cons.injEq] at heq
        obtain ⟨rfl, rfl⟩ := heq
        obtain ⟨-, p, hp, hP⟩ := hi
        exact ⟨p, hp, hP⟩
      · obtain ⟨p, hp, hP⟩ := hact pid o r l hl
        exact ⟨p, hstay hp, hP⟩
    · intro pid a l hl
      rcases List.suffix_cons_iff.1 hl with heq | hl
      · rw [List.cons.injEq] at heq
        obtain ⟨rfl, rfl⟩ := heq
        obtain ⟨-, p, hp, hQ⟩ := hi
        exact ⟨p, hp, hQ⟩
      · obtain ⟨p, hp, hQ⟩ := hret pid a l hl
        exact ⟨p, hstay hp, hQ⟩

theorem Run.met {φ : List (Event Op Res Proc Out) → Event Op Res Proc Out → Prop}
    (hφ : ∀ σ ev, ok σ ev → φ σ.log ev) (h : Run S ok c) :
    ∀ ev l, ev.isStart = false → ev :: l <:+ c.shared.log → φ l ev := by
  refine Run.inv (I := fun σ : Shared World Op Res Proc Out =>
    ∀ ev l, ev.isStart = false → ev :: l <:+ σ.log → φ l ev)
    (fun _ _ _ _ _ _ => trivial) (fun p => Prog.emits_trivial (S.body p) []) ?_ ?_ h
  · intro ev l _ hl
    simp at hl
  · intro σ ev σ' hI hm hok _ ev' l hs hl
    have hlog : σ'.log = ev :: σ.log := by cases hm <;> rfl
    rw [hlog] at hl
    rcases List.suffix_cons_iff.1 hl with heq | hl
    · rw [List.cons.injEq] at heq
      obtain ⟨rfl, rfl⟩ := heq
      exact hφ σ _ (hok hs)
    · exact hI ev' l hs hl

theorem Run.returned (h : Run S ok c) :
    ((c.shared.log.filter Event.isRet).map Event.pid).Nodup ∧
      ∀ pid ∈ (c.shared.log.filter Event.isRet).map Event.pid,
        live pid c.shared.log = false ∧ proc? pid c.shared.log ≠ none := by
  refine Run.inv (I := fun σ : Shared World Op Res Proc Out =>
    ((σ.log.filter Event.isRet).map Event.pid).Nodup ∧
    ∀ pid ∈ (σ.log.filter Event.isRet).map Event.pid,
      live pid σ.log = false ∧ proc? pid σ.log ≠ none)
    (fun _ _ _ _ _ _ => trivial) (fun p => Prog.emits_trivial (S.body p) []) ?_ ?_ h
  · exact ⟨List.nodup_nil, by simp⟩
  · rintro σ ev σ' ⟨hn, hl⟩ hm - hi
    cases hm with
    | start pid p =>
      refine ⟨hn, fun q hq => ?_⟩
      obtain ⟨h1, h2⟩ := hl q hq
      have hne : ¬ pid = q := by
        rintro rfl
        exact h2 hi.1.1
      simp [h1, h2, hne]
    | act pid o e he => exact ⟨hn, hl⟩
    | ret pid a =>
      obtain ⟨hlive, p, hp, -⟩ := hi
      simp only [List.filter_cons, Event.isRet, if_true, List.map_cons, List.nodup_cons,
        Event.pid_ret, List.mem_cons, live_ret, proc?_ret]
      refine ⟨⟨fun hmem => ?_, hn⟩, ?_⟩
      · rw [(hl pid hmem).1] at hlive
        cases hlive
      · rintro q (rfl | hq)
        · simp [hp]
        · simp [hl q hq]
    | crash pid =>
      refine ⟨hn, fun q hq => ?_⟩
      simp [hl q hq]

theorem Run.ret_nodup (h : Run S ok c) :
    ((c.shared.log.filter Event.isRet).map Event.pid).Nodup :=
  h.returned.1

/-- A process that is over has crashed, or has returned what its program returns after
all the replies it had. -/
theorem Run.over (hV : ∀ o e w w' r, S.exec o e w = some (w', r) → V o r)
    (hb : ∀ p, Prog.Emits V (P p) (Q p) [] (S.body p)) (h : Run S ok c) :
    ∀ pid p, proc? pid c.shared.log = some p → live pid c.shared.log = false →
      .crash pid ∈ c.shared.log ∨ ∃ a, Q p (own pid c.shared.log) a := by
  refine Run.inv (I := fun σ : Shared World Op Res Proc Out => ∀ pid p, proc? pid σ.log = some p →
    live pid σ.log = false → .crash pid ∈ σ.log ∨ ∃ a, Q p (own pid σ.log) a) hV hb ?_ ?_ h
  · intro pid p hp
    cases hp
  · intro σ ev σ' hI hm _ hi pid p hp hl
    cases hm with
    | start q p' =>
      rw [live_start, Bool.or_eq_false_iff, decide_eq_false_iff_not] at hl
      rw [proc?_start, if_neg hl.1] at hp
      exact (hI pid p hp hl.2).imp_left fun hc => List.mem_cons_of_mem _ hc
    | act q o e he =>
      have hne : ¬ q = pid := by
        rintro rfl
        rw [live_act, hi.1] at hl
        cases hl
      rw [own_act, if_neg hne]
      exact (hI pid p hp hl).imp_left fun hc => List.mem_cons_of_mem _ hc
    | ret q a =>
      by_cases hq : q = pid
      · subst hq
        obtain ⟨-, p', hp', hQ⟩ := hi
        rw [proc?_ret, hp', Option.some.injEq] at hp
        exact .inr ⟨a, hp ▸ hQ⟩
      · rw [live_ret, decide_eq_true hq, Bool.true_and] at hl
        exact (hI pid p hp hl).imp_left fun hc => List.mem_cons_of_mem _ hc
    | crash q =>
      by_cases hq : q = pid
      · subst hq
        exact .inl List.mem_cons_self
      · rw [live_crash, decide_eq_true hq, Bool.true_and] at hl
        exact (hI pid p hp hl).imp_left fun hc => List.mem_cons_of_mem _ hc

theorem Run.answered (hV : ∀ o e w w' r, S.exec o e w = some (w', r) → V o r)
    (hb : ∀ p, Prog.Emits V (P p) (Q p) [] (S.body p)) (h : Run S ok c) :
    ∀ pid a, .ret pid a ∈ c.shared.log →
      ∃ p, proc? pid c.shared.log = some p ∧ Q p (own pid c.shared.log) a := by
  have hinv := Run.inv (I := fun σ : Shared World Op Res Proc Out => ∀ pid a, .ret pid a ∈ σ.log →
    live pid σ.log = false ∧ ∃ p, proc? pid σ.log = some p ∧ Q p (own pid σ.log) a) hV hb ?_ ?_ h
  · exact fun pid a hret => (hinv pid a hret).2
  · intro pid a hret
    cases hret
  · intro σ ev σ' hI hm _ hi pid a hret
    cases hm with
    | start q p' =>
      obtain ⟨hl, p, hp, hQ⟩ := hI pid a ((List.mem_cons.1 hret).resolve_left (by simp))
      have hne : ¬ q = pid := by
        rintro rfl
        rw [hi.1.1] at hp
        cases hp
      exact ⟨by simp [hl, hne], p, by rw [proc?_start, if_neg hne, hp], hQ⟩
    | act q o e he =>
      obtain ⟨hl, p, hp, hQ⟩ := hI pid a ((List.mem_cons.1 hret).resolve_left (by simp))
      have hne : ¬ q = pid := by
        rintro rfl
        rw [hi.1] at hl
        cases hl
      exact ⟨hl, p, hp, by rwa [own_act, if_neg hne]⟩
    | ret q a' =>
      rcases List.mem_cons.1 hret with heq | hret
      · cases heq
        obtain ⟨-, p, hp, hQ⟩ := hi
        exact ⟨by simp, p, hp, hQ⟩
      · obtain ⟨hl, p, hp, hQ⟩ := hI pid a hret
        exact ⟨by simp [hl], p, hp, hQ⟩
    | crash q =>
      obtain ⟨hl, p, hp, hQ⟩ := hI pid a ((List.mem_cons.1 hret).resolve_left (by simp))
      exact ⟨by simp [hl], p, hp, hQ⟩

theorem Run.forked (h : Run S ok c) : ∀ q o r p, .act q o r ∈ c.shared.log → S.forks o = some p →
    ∃ pid, proc? pid c.shared.log = some p := by
  induction h with
  | init =>
    intro q o r p hev
    cases hev
  | @step c c' ch ev hr hs _ ih =>
    have hwf := hr.wf (V := fun _ _ => True) (P := fun _ _ _ => True) (Q := fun _ _ _ => True)
      (fun _ _ _ _ _ _ => trivial) fun p => Prog.emits_trivial (S.body p) []
    -- a process keeps its program while others start
    have hspawn : ∀ {l : List (Event Op Res Proc Out)} {pid p p'},
        proc? c.threads.length l = none → proc? pid l = some p →
        proc? pid (.start c.threads.length p' :: l) = some p := by
      intro l pid p p' hnone hp
      have hne : ¬ c.threads.length = pid := by
        rintro rfl
        rw [hnone] at hp
        cases hp
      rw [proc?_start, if_neg hne, hp]
    have hnone := (hwf.unstarted _ (Nat.le_refl _)).1
    intro q o r p hev hf
    obtain ⟨p', -, -, rfl⟩ | ⟨pid, a, -, -, rfl⟩ | ⟨pid, o', k, e, w, r', -, -, -, hc⟩ |
      ⟨pid, rest, -, -, rfl⟩ := step_cases hs
    · rcases List.mem_cons.1 hev with heq | hev
      · cases heq
      · obtain ⟨pid, hp⟩ := ih q o r p hev hf
        exact ⟨pid, hspawn hnone hp⟩
    · rcases List.mem_cons.1 hev with heq | hev
      · cases heq
      · exact ih q o r p hev hf
    · have hlen : (c.moved pid w (.act pid o' r') (some (k r'))).threads.length =
          c.threads.length := List.length_set
      rcases hc with ⟨hnf, rfl⟩ | ⟨p', hf', rfl⟩
      · rcases List.mem_cons.1 hev with heq | hev
        · cases heq
          rw [hnf] at hf
          cases hf
        · exact ih q o r p hev hf
      · rcases List.mem_cons.1 hev with heq | hev
        · cases heq
        · rcases List.mem_cons.1 hev with heq | hev
          · cases heq
            rw [hf', Option.some.injEq] at hf
            subst hf
            exact ⟨_, if_pos rfl⟩
          · obtain ⟨pid', hp⟩ := ih q o r p hev hf
            refine ⟨pid', ?_⟩
            simp only [Config.spawn, hlen]
            exact hspawn hnone hp
    · rcases List.mem_cons.1 hev with heq | hev
      · cases heq
      · exact ih q o r p hev hf

theorem step_log {ch : Choice Env Proc} {ev : Event Op Res Proc Out}
    (h : Interleave.step S c ch = some (ev, c')) :
    c'.shared.log = ev :: c.shared.log ∨
      ∃ pid p, c'.shared.log = .start pid p :: ev :: c.shared.log := by
  obtain ⟨p, -, rfl, rfl⟩ | ⟨pid, a, -, rfl, rfl⟩ | ⟨pid, o, k, e, w, r, -, -, rfl, hc⟩ |
    ⟨pid, rest, -, rfl, rfl⟩ := step_cases h
  · exact .inl rfl
  · exact .inl rfl
  · rcases hc with ⟨-, rfl⟩ | ⟨p, -, rfl⟩
    · exact .inl rfl
    · exact .inr ⟨_, p, rfl⟩
  · exact .inl rfl

theorem Leads.log_suffix (h : Leads S c c') : c.shared.log <:+ c'.shared.log := by
  induction h with
  | refl => exact List.suffix_refl _
  | step _ hs ih =>
    refine ih.trans ?_
    rcases step_log hs with hl | ⟨pid, p, hl⟩
    · rw [hl]
      exact List.suffix_cons _ _
    · rw [hl]
      exact (List.suffix_cons _ _).trans (List.suffix_cons _ _)

/-- A move of the run: from `c₀` by `ev` to `c₁`, on the way to `c`. -/
structure Passed (S : Sys World Op Res Env Proc Out)
    (ok : Shared World Op Res Proc Out → Event Op Res Proc Out → Prop)
    (c₀ : Config World Op Res Proc Out) (ev : Event Op Res Proc Out)
    (c₁ c : Config World Op Res Proc Out) : Prop where
  run : Run S ok c₀
  met : ok c₀.shared ev
  moves : ∃ ch, Interleave.step S c₀ ch = some (ev, c₁)
  leads : Leads S c₁ c

theorem Passed.suffix {c₀ c₁ : Config World Op Res Proc Out} {ev : Event Op Res Proc Out}
    (h : Passed S ok c₀ ev c₁ c) : ev :: c₀.shared.log <:+ c.shared.log := by
  obtain ⟨ch, hs⟩ := h.moves
  refine List.IsSuffix.trans ?_ h.leads.log_suffix
  rcases step_log hs with hl | ⟨pid, p, hl⟩
  · exact hl ▸ List.suffix_refl _
  · rw [hl]
    exact List.suffix_cons _ _

theorem Run.passed (h : Run S ok c) : ∀ ev l, ev.isStart = false → ev :: l <:+ c.shared.log →
    ∃ c₀ c₁, Passed S ok c₀ ev c₁ c ∧ c₀.shared.log = l := by
  induction h with
  | init =>
    intro ev l _ hl
    simp [Config.init] at hl
  | @step c c' ch ev' hr hs ho ih =>
    intro ev l hev hl
    have hold : ev :: l <:+ c.shared.log →
        ∃ c₀ c₁, Passed S ok c₀ ev c₁ c' ∧ c₀.shared.log = l := by
      intro hl
      obtain ⟨c₀, c₁, hp, hlog⟩ := ih ev l hev hl
      exact ⟨c₀, c₁, ⟨hp.run, hp.met, hp.moves, hp.leads.step hs⟩, hlog⟩
    have hnew : ev :: l <:+ ev' :: c.shared.log →
        ∃ c₀ c₁, Passed S ok c₀ ev c₁ c' ∧ c₀.shared.log = l := by
      intro hl
      rcases List.suffix_cons_iff.1 hl with heq | hl
      · rw [List.cons.injEq] at heq
        obtain ⟨rfl, rfl⟩ := heq
        exact ⟨c, c', ⟨hr, ho, ⟨ch, hs⟩, .refl⟩, rfl⟩
      · exact hold hl
    rcases step_log hs with hlog | ⟨pid, p, hlog⟩
    · rw [hlog] at hl
      exact hnew hl
    · rw [hlog] at hl
      rcases List.suffix_cons_iff.1 hl with heq | hl
      · rw [List.cons.injEq] at heq
        rw [heq.1] at hev
        cases hev
      · exact hnew hl

end Shared

end Interleave
