import JobProcessor.Interleave.Simulation
import JobProcessor.Model.Startup
import JobProcessor.Proofs.Actors
import JobProcessor.Proofs.Parts
import JobProcessor.Store.GroupStates

/-! Coming up on an empty Redis. Whichever order the processes start in, no command
meets a stream without its group and no group is created behind an entry: the system
with groups is at every moment in a state of the system without them. -/

namespace JobProcessor

open Interleave Prog Store

variable {app : App}

/-! ### The streams a process reads -/

/-- Reads are on the ordered streams, each once. -/
def polls (app : App) : Op → Prop
  | .xreadgroup _ ss _ => ss.Nodup ∧ ∀ s ∈ ss, s ∈ app.settings.orderedStreams
  | .xautoclaim s _ _ _ => s ∈ app.settings.orderedStreams
  | _ => True

theorem polls_plain (_ : Hist) (o : Op) (ho : o.routine = true) : polls app o := by
  cases o <;> trivial

theorem probe_polls (consumer : String) (count : Nat) {ss : List String}
    (hss : ∀ s ∈ ss, s ∈ app.settings.orderedStreams) :
    Uses Valid (polls app) (probe consumer count ss) := by
  induction ss with
  | nil => trivial
  | cons s ss ih =>
    refine Uses.act ⟨by simp, by simpa using hss s List.mem_cons_self⟩ fun msgs _ => ?_
    change Uses _ _ (if _ then _ else _)
    split
    · exact ih fun t ht => hss t (List.mem_cons_of_mem _ ht)
    · trivial

theorem readPriority_polls (consumer : String) (count : Nat) :
    Uses Valid (polls app) (readPriority consumer app.settings.orderedStreams count) := by
  refine Uses.bind (probe_polls consumer count fun _ hs => hs) fun msgs => ?_
  split
  · exact ⟨⟨nodup_eraseDups _, fun s hs => List.mem_eraseDups.1 hs⟩, fun _ _ => trivial⟩
  · trivial

theorem workerLoop_polls (consumer : String) (fuel : Nat) :
    Uses Valid (polls app) (workerLoop app consumer fuel) := by
  induction fuel with
  | zero => trivial
  | succ fuel ih =>
    simp only [workerLoop, op_bind, mpure_eq]
    refine Uses.act trivial fun stop _ => ?_
    split
    · trivial
    · refine Uses.act trivial fun _ _ => Uses.bind (readPriority_polls consumer 1) fun msgs => ?_
      cases msgs with
      | nil => exact Uses.act trivial fun _ _ => ih
      | cons m ms => exact Uses.act trivial fun _ _ => ih

theorem retry_polls (job : Job) (error : Json) (h : Hist) :
    Emits Valid (fun _ o => polls app o) (fun _ _ => True) h (scheduleRetryOrFail app job error) := by
  refine (scheduleRetryOrFail_emits job error h).mono (fun g o ho => ?_) fun _ _ _ => trivial
  cases o <;> trivial

theorem promoteDue_polls : Uses Valid (polls app) (promoteDue app) :=
  promoteDue_uses.mono (fun _ o ho => by cases o <;> simp_all [Op.inPromotion, polls])
    fun _ _ _ => trivial

theorem body_polls (app : App) (p : Proc) : Uses Valid (polls app) (body app p) := by
  cases p with
  | workerLoop consumer fuel => exact Uses.bind (workerLoop_polls consumer fuel) fun _ => trivial
  | ticker fuel =>
    refine Emits.bind (Q := fun _ _ => True) ?_ fun _ _ _ => trivial
    exact tickerLoop_of_parts polls_plain (fun h => (uses_iff h).2 promoteDue_polls)
      (reconcileOrphans_of_listed polls_plain (fun _ _ _ => trivial) (fun _ _ _ _ _ => trivial)
        fun _ _ => trivial)
      (reapStale_of_one polls_plain (fun s hs _ _ _ _ => hs)
        (reapOne_of_retry polls_plain (fun job error h _ => retry_polls job error h)
          (fun _ _ _ => trivial) (fun _ _ _ _ _ => trivial) fun _ _ => trivial))
      (fun _ _ _ => trivial) fuel 0 0 []
  | promoteDue => exact Uses.bind promoteDue_polls fun _ => trivial
  | _ =>
    refine (body_emits app _).mono (fun h o ho => ?_) fun _ _ _ => trivial
    cases o <;> trivial

/-! ### A process on its way -/

/-- What of `streams` is not yet to come has a group. -/
def Ensured (app : App) (l : Log (Option Uuid)) (ss : List String) : Prop :=
  ∀ s ∈ app.settings.orderedStreams, s ∈ ss ∨ (l.groups s).isSome = true

/-- The groups a program asks for before its first action. -/
def ensuredFirst {α : Type} : Prg α → List String
  | .pure _ => []
  | .act o _ => ensuredBefore o

/-- The rest of it. -/
def liftIssue {α : Type} : Prg α → BootPrg α
  | .pure a => .pure a
  | .act o k => .act (.op o) fun r => lift (k r)

theorem lift_eq {α : Type} (p : Prg α) : lift p = ensureAll (ensuredFirst p) (liftIssue p) := by
  cases p <;> rfl

theorem ensureAll_append {α : Type} (ss ts : List String) (p : BootPrg α) :
    ensureAll (ss ++ ts) p = ensureAll ss (ensureAll ts p) := by
  induction ss with
  | nil => rfl
  | cons s ss ih => exact congrArg _ (funext fun _ => ih)

theorem ensuredFirst_ordered {p : Prg Out} (hp : Uses Valid (polls app) p) :
    ∀ s ∈ ensuredFirst p, s ∈ app.settings.orderedStreams := by
  cases p with
  | pure a => simp [ensuredFirst]
  | act o k =>
    intro s hs
    have ho := hp.1
    simp only [ensuredFirst, ensuredBefore] at hs
    split at hs
    · rw [List.mem_singleton.1 hs]
      exact ho
    · cases hs

/-- `P` is about to ensure some more groups and then goes on as `p` does. -/
def Coming (app : App) (l : Log (Option Uuid)) (P : BootPrg Out) (p : Prg Out) : Prop :=
  ∃ ss, P = ensureAll ss (liftIssue p) ∧ (∀ s ∈ ss, s ∈ app.settings.orderedStreams) ∧
    Ensured app l ss ∧ Uses Valid (polls app) p

variable {l l' : Log (Option Uuid)}

def Grown (l l' : Log (Option Uuid)) : Prop :=
  ∀ s, (l.groups s).isSome = true → (l'.groups s).isSome = true

theorem Ensured.grown {ss : List String} (h : Ensured app l ss) (hl : Grown l l') :
    Ensured app l' ss := fun s hs => (h s hs).imp_right (hl s)

theorem Coming.grown {P : BootPrg Out} {p : Prg Out} (h : Coming app l P p) (hl : Grown l l') :
    Coming app l' P p :=
  h.imp fun _ hss => ⟨hss.1, hss.2.1, hss.2.2.1.grown hl, hss.2.2.2⟩

theorem coming_lift {p : Prg Out} (hp : Uses Valid (polls app) p) (hl : Ensured app l []) :
    Coming app l (lift p) p :=
  ⟨ensuredFirst p, lift_eq p, ensuredFirst_ordered hp,
    fun s hs => .inr ((hl s hs).resolve_left (by simp)), hp⟩

theorem coming_body (p : BootProc) (hl : p.isLifespan = false → p.view.runsForever = false →
    Ensured app l []) : Coming app l (bootBody app p) (body app p.view) := by
  cases p with
  | lifespan => exact ⟨_, rfl, fun _ hs => hs, fun s hs => .inl hs, trivial⟩
  | job p =>
    have hp := body_polls app p
    unfold bootBody
    dsimp only
    split
    · refine ⟨app.settings.orderedStreams ++ ensuredFirst (body app p), ?_, fun s hs => ?_,
        fun s hs => .inl (List.mem_append_left _ hs), hp⟩
      · rw [ensureAll_append]
        exact congrArg _ (lift_eq _)
      · exact (List.mem_append.1 hs).elim id (ensuredFirst_ordered hp s)
    · rename_i hr
      exact coming_lift hp (hl rfl (Bool.eq_false_iff.2 hr))

/-! ### One action -/

theorem grown_refl (l : Log (Option Uuid)) : Grown l l := fun _ h => h

/-- Creating a group of an ordered stream is seen by nobody, when all groups are there
or no entry is. -/
theorem ensureGroup_view {s : String} (hs : s ∈ app.settings.orderedStreams)
    (hl : Ensured app l [] ∨ l.records = []) :
    ((l.xgroupCreate s).getD l).view = l.view ∧ ((l.xgroupCreate s).getD l).records = l.records ∧
      Grown l ((l.xgroupCreate s).getD l) ∧
      (((l.xgroupCreate s).getD l).groups s).isSome = true := by
  cases hc : l.xgroupCreate s with
  | none =>
    refine ⟨rfl, rfl, grown_refl l, ?_⟩
    unfold Log.xgroupCreate at hc
    split at hc
    · rename_i g hg
      simp [hg]
    · cases hc
  | some l' =>
    have hnone : l.groups s = none := by
      unfold Log.xgroupCreate at hc
      split at hc
      · cases hc
      · assumption
    have hno : ∀ r ∈ l.records, r.stream ≠ s := by
      rcases hl with hl | hl
      · have := (hl s hs).resolve_left (by simp)
        rw [hnone] at this
        cases this
      · simp [hl]
    have hview := Log.view_xgroupCreate hc hno
    unfold Log.xgroupCreate at hc
    rw [hnone, Option.some.injEq] at hc
    subst hc
    refine ⟨hview, rfl, fun t ht => ?_, by simp [Log.setGroup]⟩
    rw [Option.getD_some]
    exact Log.isSome_update ht

variable {n : Nat} {o : Op} {e : Env} {w w' : BootWorld} {r : o.Res}

theorem putBack_view
    (h : ((exec n o e w.view).map fun r =>
      ({ w with clock := r.1.clock, jobs := r.1.jobs, delayed := r.1.delayed,
                inUse := r.1.inUse }, r.2)) = some (w', r))
    (h1 : ∀ s id, o ≠ .xadd s id) (h2 : ∀ c ss k, o ≠ .xreadgroup c ss k)
    (h3 : ∀ s idle a k, o ≠ .xautoclaim s idle a k) (h4 : ∀ s i, o ≠ .xack s i) :
    exec n o e w.view = some (w'.view, r) ∧ w'.noGroup = w.noGroup ∧ Grown w.log w'.log := by
  rw [Option.map_eq_some_iff] at h
  obtain ⟨⟨v, r'⟩, hv, heq⟩ := h
  rw [Prod.mk.injEq] at heq
  obtain ⟨rfl, rfl⟩ := heq
  refine ⟨?_, rfl, grown_refl _⟩
  have hs : v.streams = w.log.view := exec_streams hv h1 h2 h3 h4
  rw [hv]
  cases v
  cases hs
  rfl

/-- With the groups there, an action is the same with them and without. -/
theorem bootExec_view (h : bootExec n (.op o) e w = some (w', r)) (hp : polls app o)
    (hl : Ensured app w.log []) :
    exec n o e w.view = some (w'.view, r) ∧ w'.noGroup = w.noGroup ∧ Grown w.log w'.log := by
  have hgroup : ∀ s ∈ app.settings.orderedStreams, (w.log.groups s).isSome = true := fun s hs =>
    (hl s hs).resolve_left (by simp)
  cases o with
  | xadd s id =>
    simp only [bootExec, Option.some.injEq, Prod.mk.injEq] at h
    obtain ⟨rfl, -⟩ := h
    refine ⟨?_, rfl, grown_refl _⟩
    simp only [exec, BootWorld.view, Log.view_xadd]
  | xack s i =>
    simp only [bootExec, Option.some.injEq, Prod.mk.injEq] at h
    obtain ⟨rfl, -⟩ := h
    refine ⟨?_, rfl, fun t ht => ?_⟩
    · simp only [exec, BootWorld.view, Log.view_xack]
    · dsimp only
      unfold Log.xack
      split
      · exact ht
      · exact Log.isSome_update ht
  | xreadgroup c ss k =>
    have hall : (ss.all fun s => (w.log.groups s).isSome) = true :=
      List.all_eq_true.2 fun s hs => hgroup s (hp.2 s hs)
    simp only [bootExec, Log.xreadgroup, if_pos hall, Option.some.injEq, Prod.mk.injEq] at h
    obtain ⟨rfl, rfl⟩ := h
    obtain ⟨hview, hrs⟩ := @Log.view_serveAll _ w.log c (millis (w.clock + e.elapsed)) k ss hp.1
      (List.all_eq_true.1 hall)
    refine ⟨?_, rfl, fun t ht => by rwa [Log.grouped_serveAll]⟩
    simp only [exec, BootWorld.view, hview, hrs, List.map_map]
    rfl
  | xautoclaim s idle start k =>
    simp only [bootExec] at h
    split at h
    · rename_i hnone
      unfold Log.xautoclaim at hnone
      split at hnone
      · rename_i hg
        have := hgroup s hp
        rw [hg] at this
        cases this
      · cases hnone
    · rename_i l cursor rs hx
      simp only [Option.some.injEq, Prod.mk.injEq] at h
      obtain ⟨rfl, rfl⟩ := h
      obtain ⟨hview, hcur, hrs⟩ := Log.view_xautoclaim hx
      refine ⟨?_, rfl, fun t ht => ?_⟩
      · simp only [exec, BootWorld.view, hview, hcur, hrs, List.map_map]
        rfl
      · unfold Log.xautoclaim at hx
        split at hx
        · cases hx
        · rw [Option.some.injEq, Prod.mk.injEq] at hx
          rw [← hx.1]
          exact Log.isSome_update ht
  | _ => exact putBack_view h (by simp) (by simp) (by simp) (by simp)

/-! ### The simulation -/

structure Mirrors (app : App) (C : BootCfg) (c : Cfg) : Prop where
  shared : c.shared = BootState.view C.shared
  quiet : C.shared.world.noGroup = false
  size : c.threads.length = C.threads.length
  threads : ∀ (pid : Nat) P, C.threads[pid]? = some P →
    ∃ p, c.threads[pid]? = some p ∧ Option.Rel (Coming app C.shared.world.log) P p
  returned : ∀ EV ∈ C.shared.log, EV.isRet = true → Ensured app C.shared.world.log []
  fresh : Ensured app C.shared.world.log [] ∨ C.shared.world.log.records = []

variable {C : BootCfg} {c : Cfg}

theorem mirrors_init : Mirrors app (.init (bootSystem app)) (.init (system app)) where
  shared := rfl
  quiet := rfl
  size := rfl
  threads pid P h := by simp [Config.init] at h
  returned EV h := by simp [Config.init] at h
  fresh := .inr rfl

theorem Mirrors.spawn (h : Mirrors app C c) (p : BootProc)
    (hl : p.isLifespan = false → p.view.runsForever = false →
      Ensured app C.shared.world.log []) :
    Mirrors app (C.spawn (bootSystem app) p) (c.spawn (system app) p.view) where
  shared := by
    simp only [Config.spawn, h.shared, h.size]
    rfl
  quiet := h.quiet
  size := by simp [Config.spawn, h.size]
  threads pid P hP := by
    simp only [Config.spawn, List.getElem?_append, h.size] at hP ⊢
    split at hP
    · rename_i hlt
      rw [if_pos hlt]
      exact h.threads pid P hP
    · rename_i hge
      rw [if_neg hge]
      rw [List.getElem?_singleton] at hP
      split at hP
      · rename_i h0
        cases hP
        exact ⟨_, List.getElem?_singleton.trans (if_pos h0), .some (coming_body p hl)⟩
      · cases hP
  returned EV hr hret := by
    rcases List.mem_cons.1 hr with rfl | hr
    · cases hret
    · exact h.returned EV hr hret
  fresh := h.fresh

theorem option_rel_grown {P : Option (BootPrg Out)} {p : Option (Prg Out)}
    (h : Option.Rel (Coming app l) P p) (hl : Grown l l') : Option.Rel (Coming app l') P p := by
  cases h with
  | none => exact .none
  | some h => exact .some (h.grown hl)

theorem Mirrors.moved {pid : Nat} {w : BootWorld} {EV : BootEv} {ev : Ev}
    {rest : Option (BootPrg Out)} {rest' : Option (Prg Out)} (h : Mirrors app C c)
    (hev : BootEv.view EV = some ev) (hq : w.noGroup = false)
    (hg : Grown C.shared.world.log w.log) (hr : Option.Rel (Coming app w.log) rest rest')
    (hret : EV.isRet = true → Ensured app w.log [])
    (hf : Ensured app w.log [] ∨ w.log.records = []) :
    Mirrors app (C.moved pid w EV rest) (c.moved pid w.view ev rest') where
  shared := by
    simp only [Config.moved, h.shared, BootState.view, List.filterMap_cons, hev]
  quiet := hq
  size := by simp [Config.moved, h.size]
  threads q P hP := by
    simp only [Config.moved, List.getElem?_set, h.size] at hP ⊢
    split at hP
    · rename_i hpq
      rw [if_pos hpq]
      split at hP
      · rename_i hlt
        cases hP
        exact ⟨rest', by rw [if_pos hlt], hr⟩
      · cases hP
    · rename_i hpq
      rw [if_neg hpq]
      obtain ⟨p, hp, hrel⟩ := h.threads q P hP
      exact ⟨p, hp, option_rel_grown hrel hg⟩
  returned EV' hmem h' := by
    rcases List.mem_cons.1 hmem with rfl | hmem
    · exact hret h'
    · exact (h.returned EV' hmem h').grown hg
  fresh := hf

/-- What is allowed to start may start, and finds its groups unless it ensures them. -/
theorem Mirrors.allowed (h : Mirrors app C c) {p : BootProc}
    (ha : bootAllows C.shared p = true) : allows c.shared p.view = true ∧
      (p.isLifespan = false → p.view.runsForever = false →
        Ensured app C.shared.world.log []) := by
  rw [h.shared]
  cases p with
  | lifespan => exact ⟨rfl, fun hl => by cases hl⟩
  | job p =>
    have hready : (p.runsForever || served C.shared.log) = true ∧
        allows (BootState.view C.shared) p = true := by
      cases p <;> first | exact Bool.and_eq_true_iff.1 ha | cases ha
    refine ⟨hready.2, fun _ hr => ?_⟩
    have hserved := hready.1
    rw [show p.runsForever = false from hr, Bool.false_or] at hserved
    obtain ⟨EV, hEV, hret⟩ := List.any_eq_true.1 hserved
    refine h.returned EV hEV ?_
    split at hret
    · rfl
    · cases hret

theorem Mirrors.thread (h : Mirrors app C c) {pid : Nat} {P : BootPrg Out}
    (ht : C.threads[pid]? = some (some P)) :
    ∃ p, c.threads[pid]? = some (some p) ∧ Coming app C.shared.world.log P p := by
  obtain ⟨p, hp, hrel⟩ := h.threads pid _ ht
  cases hrel with
  | some hc => exact ⟨_, hp, hc⟩

theorem Mirrors.ret (h : Mirrors app C c) {pid : Nat} {a : Out}
    (ht : C.threads[pid]? = some (some (.pure a))) :
    ∃ c', AtMostOne (system app) c c' ∧
      Mirrors app (C.moved pid C.shared.world (.ret pid a) none) c' := by
  obtain ⟨p, hp, ss, heq, -, hl, -⟩ := h.thread ht
  cases ss with
  | cons s ss => cases heq
  | nil =>
    cases p with
    | act o k => cases heq
    | pure a' =>
      cases heq
      refine ⟨c.moved pid c.shared.world (.ret pid a) none, .inr ⟨.run pid {}, .ret pid a, ?_⟩, ?_⟩
      · simp [Interleave.step, hp]
      · rw [show c.shared.world = C.shared.world.view by rw [h.shared]; rfl]
        exact h.moved rfl h.quiet (grown_refl _) .none (fun _ => hl) (.inl hl)

theorem Mirrors.crash (h : Mirrors app C c) {pid : Nat} {P : BootPrg Out}
    (ht : C.threads[pid]? = some (some P)) :
    ∃ c', AtMostOne (system app) c c' ∧
      Mirrors app (C.moved pid C.shared.world (.crash pid) none) c' := by
  obtain ⟨p, hp, -⟩ := h.thread ht
  refine ⟨c.moved pid c.shared.world (.crash pid) none, .inr ⟨.crash pid, .crash pid, ?_⟩, ?_⟩
  · simp [Interleave.step, hp]
  · rw [show c.shared.world = C.shared.world.view by rw [h.shared]; rfl]
    exact h.moved rfl h.quiet (grown_refl _) .none (fun hr => by cases hr) h.fresh

theorem Mirrors.ensureGroup (h : Mirrors app C c) {pid : Nat} {s : String}
    {k : Unit → BootPrg Out} (ht : C.threads[pid]? = some (some (.act (.ensureGroup s) k))) :
    Mirrors app (C.moved pid
      { C.shared.world with
        log := (C.shared.world.log.xgroupCreate s).getD C.shared.world.log }
      (.act pid (.ensureGroup s) ()) (some (k ()))) c := by
  obtain ⟨p, hp, ss, heq, hord, hl, hpolls⟩ := h.thread ht
  cases ss with
  | nil =>
    cases p with
    | pure a => cases heq
    | act o k' => cases heq
  | cons s' ss =>
    cases heq
    obtain ⟨hview, hrec, hgrown, hsome⟩ := ensureGroup_view (hord s List.mem_cons_self) h.fresh
    have hcoming : Coming app ((C.shared.world.log.xgroupCreate s).getD C.shared.world.log)
        (ensureAll ss (liftIssue p)) p := by
      refine ⟨ss, rfl, fun t ht => hord t (List.mem_cons_of_mem _ ht), fun t ht => ?_, hpolls⟩
      rcases hl t ht with hmem | hsome'
      · rcases List.mem_cons.1 hmem with rfl | hmem
        · exact .inr hsome
        · exact .inl hmem
      · exact .inr (hgrown t hsome')
    constructor
    · rw [h.shared]
      simp only [Config.moved, BootState.view, List.filterMap_cons, BootEv.view, BootWorld.view,
        hview]
    · exact h.quiet
    · simp [Config.moved, h.size]
    · intro q P hP
      simp only [Config.moved, List.getElem?_set] at hP
      split at hP
      · rename_i hpq
        subst hpq
        split at hP
        · cases hP
          exact ⟨some p, hp, .some hcoming⟩
        · cases hP
      · obtain ⟨p', hp', hrel⟩ := h.threads q P hP
        exact ⟨p', hp', option_rel_grown hrel hgrown⟩
    · intro EV hmem hret
      rcases List.mem_cons.1 hmem with rfl | hmem
      · cases hret
      · exact (h.returned EV hmem hret).grown hgrown
    · rcases h.fresh with hall | hnone
      · exact .inl (hall.grown hgrown)
      · exact .inr (hrec.trans hnone)

theorem Mirrors.act (h : Mirrors app C c) {pid : Nat} {o : Op} {k : o.Res → BootPrg Out} {e : Env}
    {w : BootWorld} {r : o.Res} (ht : C.threads[pid]? = some (some (.act (.op o) k)))
    (he : bootExec app.settings.workerConcurrency (.op o) e C.shared.world = some (w, r)) :
    ∃ c', AtMostOne (system app) c c' ∧
      Mirrors app
        (match forks o with
          | none => C.moved pid w (.act pid (.op o) r) (some (k r))
          | some p => (C.moved pid w (.act pid (.op o) r) (some (k r))).spawn (bootSystem app)
            (.job p)) c' := by
  obtain ⟨p, hp, ss, heq, -, hl, hpolls⟩ := h.thread ht
  cases ss with
  | cons s ss => cases heq
  | nil =>
    cases p with
    | pure a => cases heq
    | act o' k' =>
      cases heq
      obtain ⟨hx, hq, hg⟩ := bootExec_view he hpolls.1 hl
      have hworld : c.shared.world = C.shared.world.view := by
        rw [h.shared]
        rfl
      have hk : Uses Valid (polls app) (k' r) := (uses_iff _).1 (hpolls.2 r (exec_valid hx))
      have hmoved : Mirrors app (C.moved pid w (.act pid (.op o) r) (some (lift (k' r))))
          (c.moved pid w.view (.act pid o r) (some (k' r))) :=
        h.moved rfl (hq.trans h.quiet) hg (.some (coming_lift hk (hl.grown hg)))
          (fun hr => by cases hr) (.inl (hl.grown hg))
      have hexec : (system app).exec o e c.shared.world = some (w.view, r) := by
        rw [hworld]
        exact hx
      cases hf : forks o with
      | none =>
        refine ⟨_, .inr ⟨.run pid e, .act pid o r, ?_⟩, hmoved⟩
        simp only [Interleave.step, hp, hexec]
        rw [show (system app).forks o = none from hf]
      | some p =>
        refine ⟨_, .inr ⟨.run pid e, .act pid o r, ?_⟩, hmoved.spawn (.job p) fun _ _ =>
          hl.grown hg⟩
        simp only [Interleave.step, hp, hexec]
        rw [show (system app).forks o = some p from hf]
        rfl

theorem Mirrors.step {ch : Choice Env BootProc} {EV : BootEv} {C' : BootCfg}
    (h : Mirrors app C c) (hs : Interleave.step (bootSystem app) C ch = some (EV, C')) :
    ∃ c', AtMostOne (system app) c c' ∧ Mirrors app C' c' := by
  obtain ⟨p, ha, rfl, rfl⟩ | ⟨pid, a, ht, rfl, rfl⟩ | ⟨pid, o, k, e, w, r, ht, he, rfl, hc⟩ |
    ⟨pid, P, ht, rfl, rfl⟩ := step_cases hs
  · obtain ⟨hallow, hgroups⟩ := h.allowed ha
    exact ⟨c.spawn (system app) p.view,
      .inr ⟨.start p.view, .start c.threads.length p.view, if_pos hallow⟩, h.spawn p hgroups⟩
  · exact h.ret ht
  · cases o with
    | ensureGroup s =>
      rcases hc with ⟨-, rfl⟩ | ⟨p, hf, -⟩
      · have hw : w = _ := (Prod.mk.inj (Option.some.inj he)).1.symm
        exact ⟨c, .inl rfl, hw ▸ h.ensureGroup ht⟩
      · cases hf
    | op o =>
      obtain ⟨c', hmove, hc'⟩ := h.act ht he
      refine ⟨c', hmove, ?_⟩
      rcases hc with ⟨hf, rfl⟩ | ⟨p, hf, rfl⟩
      · rw [show forks o = none from Option.map_eq_none_iff.1 hf] at hc'
        exact hc'
      · obtain ⟨p', hf', rfl⟩ := Option.map_eq_some_iff.1 hf
        rw [hf'] at hc'
        exact hc'
  · exact h.crash ht

/-- Every state of the system with groups has its state without them. -/
theorem mirrored {C : BootCfg} (h : Reachable (bootSystem app) C) :
    ∃ c, Reachable (system app) c ∧ Mirrors app C c :=
  Run.simulated mirrors_init (fun _ _ _ _ _ hm hs _ => hm.step hs) h

/-- From an empty Redis on, and in whatever order the processes come up, no command is
answered with `NOGROUP`, and without the groups the state is one of the system. -/
theorem startup_refines {C : BootCfg} (h : Reachable (bootSystem app) C) :
    C.shared.world.noGroup = false ∧
      ∃ c, Reachable (system app) c ∧ c.shared = BootState.view C.shared := by
  obtain ⟨c, hc, hm⟩ := mirrored h
  exact ⟨hm.quiet, c, hc, hm.shared⟩

theorem boot_of_replay (app : App) (sched : List (Choice Env BootProc)) (p : BootCfg → Bool)
    (h : replay (bootSystem app) (fun _ _ => true) sched p = some true) :
    ∃ C, Reachable (bootSystem app) C ∧ p C = true :=
  Run.of_replay (fun _ _ _ => trivial) h

/-- The ticker comes up while the API does, then a worker, which is given a job. -/
def comingUp : List (Choice Env BootProc) := List.flatten
  [[.start .lifespan], List.replicate 1 (.run 0 {}), [.start (.job (.ticker 1))],
    List.replicate 3 (.run 1 {}), List.replicate 3 (.run 0 {}),
    [.start (.job (.submitJob 7 1 { type := .email, payload := .null }))],
    List.replicate 5 (.run 2 {}), [.start (.job (.workerLoop "a" 1))],
    List.replicate 7 (.run 3 {})]

theorem startup_refines_comingUp : ∃ C, Reachable (bootSystem defaultApp) C ∧
    C.shared.world.log.view.entries.map Entry.isPending = [true] ∧
    (C.shared.world.noGroup = false ∧
      ∃ c, Reachable (system defaultApp) c ∧ c.shared = BootState.view C.shared) := by
  obtain ⟨C, hC, hp⟩ := boot_of_replay defaultApp comingUp
    (fun C => decide (C.shared.world.log.view.entries.map Entry.isPending = [true]))
    (by decide +kernel)
  exact ⟨C, hC, of_decide_eq_true hp, startup_refines hC⟩

end JobProcessor
