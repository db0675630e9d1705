import JobProcessor.Interleave.Beside
import JobProcessor.Model.Observability
import JobProcessor.Proofs.Chronology
import JobProcessor.Proofs.Startup

/-! `/stats` and the gauges show what was so while they were read, whatever else runs:
counts of the stores, and as workers those that have polled within the visibility
timeout. -/

namespace JobProcessor

open Interleave Prog Store

/-! ### Reading the answers -/

theorem noteIdle_below {d : Dict String Int} {row : ConsumerInfo} {name : String} {cutoff : Int} :
    (∃ m, (noteIdle d row).get? name = some m ∧ m < cutoff) ↔
      (∃ m, d.get? name = some m ∧ m < cutoff) ∨ row.name = name ∧ row.idle < cutoff := by
  unfold noteIdle
  cases hd : d.get? row.name with
  | none =>
    rw [Dict.get?_set]
    by_cases hn : row.name = name
    · subst hn
      simp [hd]
    · simp [hn]
  | some idle =>
    by_cases hn : row.name = name
    · subst hn
      dsimp only
      split
      · simp only [Dict.get?_set, if_true, Option.some.injEq, exists_eq_left', hd, true_and]
        omega
      · simp only [hd, Option.some.injEq, exists_eq_left', true_and]
        omega
    · dsimp only
      split <;> simp [Dict.get?_set, hn]

theorem foldl_noteIdle_below {rows : List ConsumerInfo} {d : Dict String Int} {name : String}
    {cutoff : Int} :
    (∃ m, (rows.foldl noteIdle d).get? name = some m ∧ m < cutoff) ↔
      (∃ m, d.get? name = some m ∧ m < cutoff) ∨
        ∃ row ∈ rows, row.name = name ∧ row.idle < cutoff := by
  induction rows generalizing d with
  | nil => simp
  | cons row rows ih =>
    rw [List.foldl_cons, ih, noteIdle_below, or_assoc]
    simp only [List.mem_cons, exists_eq_or_imp]

/-- A consumer counts as live when it has been idle for less than the cutoff in one of
the streams. -/
theorem liveWorkerCount_eq (rows : List (List ConsumerInfo)) (cutoff : Int) :
    ∃ names : List String, names.Nodup ∧ liveWorkerCount rows cutoff = names.length ∧
      ∀ name, name ∈ names ↔ ∃ rs ∈ rows, ∃ row ∈ rs, row.name = name ∧ row.idle < cutoff := by
  let d : Dict String Int := rows.foldl (List.foldl noteIdle) .empty
  refine ⟨(d.filter fun q => q.2 < cutoff).items.map Prod.fst, Dict.nodup _,
    (List.length_map _).symm, fun name => ?_⟩
  have hd : rows.flatten.foldl noteIdle .empty = d := List.foldl_flatten
  have hbelow := @foldl_noteIdle_below rows.flatten .empty name cutoff
  rw [hd] at hbelow
  simp only [Dict.get?_empty, reduceCtorEq, false_and, exists_false, false_or,
    List.mem_flatten] at hbelow
  constructor
  · intro h
    obtain ⟨q, hq, rfl⟩ := List.mem_map.1 h
    obtain ⟨hmem, hlt⟩ := List.mem_filter.1 hq
    obtain ⟨row, ⟨rs, hrs, hrow⟩, hname⟩ :=
      hbelow.1 ⟨q.2, Dict.get?_of_mem hmem, of_decide_eq_true hlt⟩
    exact ⟨rs, hrs, row, hrow, hname⟩
  · rintro ⟨rs, hrs, row, hrow, hname⟩
    obtain ⟨m, hm, hlt⟩ := hbelow.2 ⟨row, ⟨rs, hrs, hrow⟩, hname⟩
    exact List.mem_map.2 ⟨(name, m),
      List.mem_filter.2 ⟨Dict.mem_of_get? hm, decide_eq_true hlt⟩, rfl⟩

def statusRows (jobs : Jobs) : List (JobStatus × Nat) :=
  (JobStatus.all.map fun status => (status, (rowsWith jobs status).length)).filter fun q => q.2 ≠ 0

theorem zeroFillStatusCounts_eq (jobs : Jobs) (status : JobStatus) :
    (zeroFillStatusCounts (statusRows jobs)).get? status =
      some (rowsWith jobs status).length := by
  have hall : status ∈ JobStatus.all := by cases status <;> decide
  have hkeys : ((statusRows jobs).map Prod.fst).Nodup := by
    have hsub : ((statusRows jobs).map Prod.fst).Sublist JobStatus.all := by
      have := (List.filter_sublist (p := fun q : JobStatus × Nat => decide (q.2 ≠ 0))
        (l := JobStatus.all.map fun status => (status, (rowsWith jobs status).length))).map Prod.fst
      rwa [List.map_map, show Prod.fst ∘ (fun status => (status, (rowsWith jobs status).length)) =
        id from rfl, List.map_id] at this
    exact hsub.nodup (by decide)
  by_cases h0 : (rowsWith jobs status).length = 0
  · refine (Dict.get?_foldl_set_of_notMem fun hmem => ?_).trans ?_
    · obtain ⟨q, hq, rfl⟩ := List.mem_map.1 hmem
      obtain ⟨hq, hne⟩ := List.mem_filter.1 hq
      obtain ⟨s, -, rfl⟩ := List.mem_map.1 hq
      exact of_decide_eq_true hne h0
    · rw [h0]
      cases status <;> rfl
  · exact Dict.get?_foldl_set hkeys (List.mem_filter.2
      ⟨List.mem_map.2 ⟨status, hall, rfl⟩, decide_eq_true h0⟩)

theorem pendingAge_some {jobs : Jobs} {now age : Time}
    (h : pendingAge ((rowsWith jobs .pending).map Job.createdAt).min? now = some age) :
    ∃ row ∈ rowsWith jobs .pending, age = now - row.createdAt ∧
      ∀ row' ∈ rowsWith jobs .pending, row.createdAt ≤ row'.createdAt := by
  obtain ⟨created, hmin, rfl⟩ := Option.map_eq_some_iff.1 h
  obtain ⟨hmem, hle⟩ := List.min?_eq_some_iff.1 hmin
  obtain ⟨row, hrow, rfl⟩ := List.mem_map.1 hmem
  exact ⟨row, hrow, rfl, fun row' hrow' => hle _ (List.mem_map.2 ⟨row', hrow', rfl⟩)⟩

theorem pendingAge_none {jobs : Jobs} {now : Time} :
    pendingAge ((rowsWith jobs .pending).map Job.createdAt).min? now = none ↔
      rowsWith jobs .pending = [] := by
  simp [pendingAge]

/-! ### When a consumer has polled -/

/-- A command by which the group of `s` hears of `consumer`. -/
def BootOp.polls (s consumer : String) : BootOp → Bool
  | .op (.xreadgroup c ss _) => s ∈ ss && consumer = c
  | .op (.xautoclaim s' _ _ _) => s = s' && consumer = reaperName
  | _ => false

variable {app : App} {n : Nat} {e : Env} {w w' : BootWorld} {s consumer : String}

/-- An action that leaves the streams alone is no poll. -/
theorem putBack_seen {o : Op} {r : o.Res}
    (h : ((exec n o e w.view).map fun r =>
      ({ w with clock := r.1.clock, jobs := r.1.jobs, delayed := r.1.delayed,
                inUse := r.1.inUse }, r.2)) = some (w', r))
    (hp : (BootOp.op o).polls s consumer = false) :
    w.clock ≤ w'.clock ∧ (w'.noGroup = false → w'.log.seen s consumer =
      if (BootOp.op o).polls s consumer then some (millis w'.clock) else w.log.seen s consumer) := by
  obtain ⟨⟨v, r'⟩, hv, heq⟩ := Option.map_eq_some_iff.1 h
  rw [Prod.mk.injEq] at heq
  obtain ⟨rfl, -⟩ := heq
  refine ⟨exec_later hv, fun _ => ?_⟩
  rw [hp]
  rfl

/-- A poll that finds its groups is noted by them; nothing else is. -/
theorem bootExec_seen {o : BootOp} {r : o.Res} (h : bootExec n o e w = some (w', r)) :
    w.clock ≤ w'.clock ∧ (w'.noGroup = false → w'.log.seen s consumer =
      if o.polls s consumer then some (millis w'.clock) else w.log.seen s consumer) := by
  have hle : w.clock ≤ w.clock + e.elapsed := Int.le_add_of_nonneg_right (Int.natCast_nonneg _)
  cases o with
  | ensureGroup s' =>
    simp only [bootExec, Option.some.injEq, Prod.mk.injEq] at h
    obtain ⟨rfl, -⟩ := h
    refine ⟨Int.le_refl _, fun _ => ?_⟩
    cases hc : w.log.xgroupCreate s' with
    | none => rfl
    | some l => exact Log.seen_xgroupCreate hc
  | op o =>
    cases o with
    | xadd s' id =>
      simp only [bootExec, Option.some.injEq, Prod.mk.injEq] at h
      obtain ⟨rfl, -⟩ := h
      exact ⟨hle, fun _ => rfl⟩
    | xack s' i =>
      simp only [bootExec, Option.some.injEq, Prod.mk.injEq] at h
      obtain ⟨rfl, -⟩ := h
      exact ⟨hle, fun _ => Log.seen_xack i⟩
    | xreadgroup c ss k =>
      simp only [bootExec] at h
      split at h
      · simp only [Option.some.injEq, Prod.mk.injEq] at h
        obtain ⟨rfl, -⟩ := h
        exact ⟨hle, fun hq => by cases hq⟩
      · rename_i l rs hx
        simp only [Option.some.injEq, Prod.mk.injEq] at h
        obtain ⟨rfl, -⟩ := h
        refine ⟨hle, fun _ => ?_⟩
        unfold Log.xreadgroup at hx
        split at hx
        · rename_i hall
          rw [Option.some.injEq] at hx
          have hseen := @Log.seen_serveAll _ w.log c (millis (w.clock + e.elapsed)) k ss s consumer
            (List.all_eq_true.1 hall)
          rw [hx] at hseen
          rw [hseen]
          simp only [BootOp.polls, Bool.and_eq_true, decide_eq_true_eq]
        · cases hx
    | xautoclaim s' idle start k =>
      simp only [bootExec] at h
      split at h
      · simp only [Option.some.injEq, Prod.mk.injEq] at h
        obtain ⟨rfl, -⟩ := h
        exact ⟨hle, fun hq => by cases hq⟩
      · rename_i l cur rs hx
        simp only [Option.some.injEq, Prod.mk.injEq] at h
        obtain ⟨rfl, -⟩ := h
        refine ⟨hle, fun _ => ?_⟩
        rw [Log.seen_xautoclaim hx]
        simp only [BootOp.polls, Bool.and_eq_true, decide_eq_true_eq]
    | _ => exact @putBack_seen n e w w' s consumer _ r h rfl

section Runs

variable {C C' D : BootCfg} {t : Time}

def HasPolled (app : App) (C : BootCfg) (s consumer : String) (t : Time) : Prop :=
  ∃ C₀ C₁ pid o r, Passed (bootSystem app) (fun _ _ => True) C₀ (.act pid o r) C₁ C ∧
    o.polls s consumer = true ∧ C₁.shared.world.clock = t

theorem boot_step {ch : Choice Env BootProc} {ev : BootEv}
    (h : Interleave.step (bootSystem app) C ch = some (ev, C')) :
    (∃ pid o r e, ev = .act pid o r ∧
        bootExec app.settings.workerConcurrency o e C.shared.world =
          some (C'.shared.world, r)) ∨
      C'.shared.world = C.shared.world ∧ ∀ pid o r, ev ≠ .act pid o r := by
  obtain ⟨p, -, rfl, rfl⟩ | ⟨pid, a, -, rfl, rfl⟩ | ⟨pid, o, k, e, w, r, -, he, rfl, hc⟩ |
    ⟨pid, rest, -, rfl, rfl⟩ := step_cases h
  · exact .inr ⟨rfl, by simp⟩
  · exact .inr ⟨rfl, by simp⟩
  · rcases hc with ⟨-, rfl⟩ | ⟨p, -, rfl⟩ <;> exact .inl ⟨pid, o, r, e, rfl, he⟩
  · exact .inr ⟨rfl, by simp⟩

theorem seen_step {ch : Choice Env BootProc} {ev : BootEv} (hr : Reachable (bootSystem app) C')
    (h : Interleave.step (bootSystem app) C ch = some (ev, C')) (s consumer : String) :
    C.shared.world.clock ≤ C'.shared.world.clock ∧
      (C'.shared.world.log.seen s consumer = C.shared.world.log.seen s consumer ∧
          (∀ pid o r, ev = .act pid o r → o.polls s consumer = false) ∨
        C'.shared.world.log.seen s consumer = some (millis C'.shared.world.clock) ∧
          ∃ pid o r, ev = .act pid o r ∧ o.polls s consumer = true) := by
  obtain ⟨c, -, hm⟩ := mirrored hr
  rcases boot_step h with ⟨pid, o, r, e, rfl, he⟩ | ⟨hw, hno⟩
  · obtain ⟨hle, hseen⟩ := @bootExec_seen _ _ _ _ s consumer _ _ he
    refine ⟨hle, ?_⟩
    have hseen := hseen hm.quiet
    cases hp : o.polls s consumer with
    | true => exact .inr ⟨by simpa [hp] using hseen, pid, o, r, rfl, hp⟩
    | false =>
      refine .inl ⟨by simpa [hp] using hseen, fun pid' o' r' heq => ?_⟩
      cases heq
      exact hp
  · rw [hw]
    exact ⟨Int.le_refl _, .inl ⟨rfl, fun pid o r heq => absurd heq (hno pid o r)⟩⟩

/-- What a group knows of a consumer is its last poll. -/
theorem polled_of_seen {ms : Int} (hr : Reachable (bootSystem app) C)
    (h : C.shared.world.log.seen s consumer = some ms) :
    ∃ t, HasPolled app C s consumer t ∧ millis t = ms := by
  induction hr generalizing ms with
  | init => cases h
  | @step C C' ch ev hr hs _ ih =>
    obtain ⟨-, ⟨hsame, -⟩ | ⟨hnew, pid, o, r, rfl, hp⟩⟩ :=
      seen_step (hr.step hs trivial) hs s consumer
    · obtain ⟨t, ⟨C₀, C₁, pid, o, r, hpass, hp, ht⟩, hms⟩ := ih (hsame ▸ h)
      have hpass' : Passed _ _ C₀ (.act pid o r) C₁ C' :=
        ⟨hpass.run, hpass.met, hpass.moves, hpass.leads.step hs⟩
      exact ⟨t, ⟨C₀, C₁, pid, o, r, hpass', hp, ht⟩, hms⟩
    · rw [hnew, Option.some.injEq] at h
      exact ⟨_, ⟨C, C', pid, o, r, ⟨hr, trivial, ⟨ch, hs⟩, .refl⟩, hp, rfl⟩, h⟩

theorem seen_leads {ms : Int} (hr : Reachable (bootSystem app) C)
    (hl : Leads (bootSystem app) C D) (h : C.shared.world.log.seen s consumer = some ms)
    (hms : ms ≤ millis C.shared.world.clock) :
    ∃ ms', D.shared.world.log.seen s consumer = some ms' ∧ ms ≤ ms' ∧
      ms' ≤ millis D.shared.world.clock := by
  induction hl with
  | refl => exact ⟨ms, h, Int.le_refl _, hms⟩
  | step hl hs ih =>
    obtain ⟨ms', hseen, hle, hclock⟩ := ih
    obtain ⟨hmono, ⟨hsame, -⟩ | ⟨hnew, -⟩⟩ :=
      seen_step ((hl.reachable hr).step hs trivial) hs s consumer
    · exact ⟨ms', hsame.trans hseen, hle, hclock.trans (millis_mono hmono)⟩
    · exact ⟨_, hnew, (hle.trans hclock).trans (millis_mono hmono), Int.le_refl _⟩

theorem seen_of_polled (h : HasPolled app C s consumer t) :
    ∃ ms, C.shared.world.log.seen s consumer = some ms ∧ millis t ≤ ms := by
  obtain ⟨C₀, C₁, pid, o, r, hpass, hp, rfl⟩ := h
  obtain ⟨ch, hs⟩ := hpass.moves
  have hr₁ : Reachable (bootSystem app) C₁ := hpass.run.step hs trivial
  obtain ⟨-, ⟨-, hno⟩ | ⟨hnew, -⟩⟩ := seen_step hr₁ hs s consumer
  · rw [hno pid o r rfl] at hp
    cases hp
  · obtain ⟨ms, hseen, hle, -⟩ := seen_leads hr₁ hpass.leads hnew (Int.le_refl _)
    exact ⟨ms, hseen, hle⟩

/-- A consumer that is shown idle for less than the cutoff has polled since, and any that
has is. -/
theorem seen_recently (hr : Reachable (bootSystem app) C) (cutoff : Int) :
    (∃ ms, C.shared.world.log.seen s consumer = some ms ∧
        millis C.shared.world.clock - ms < cutoff) ↔
      ∃ t, HasPolled app C s consumer t ∧ millis C.shared.world.clock - millis t < cutoff := by
  constructor
  · rintro ⟨ms, h, hlt⟩
    obtain ⟨t, ht, rfl⟩ := polled_of_seen hr h
    exact ⟨t, ht, hlt⟩
  · rintro ⟨t, h, hlt⟩
    obtain ⟨ms, hseen, hle⟩ := seen_of_polled h
    exact ⟨ms, hseen, Int.lt_of_le_of_lt (Int.sub_le_sub_left hle _) hlt⟩

end Runs

/-! ### Beside a run -/

section Beside

variable {C C' D : BootCfg} {group : String} {ok : Up → Prop}

/-- A program that reads the stores beside a run. -/
abbrev Reads (app : App) (group : String) (ok : Up → Prop) {α : Type} :
    BootCfg → StatPrg α → BootCfg → α → Prop :=
  Beside (bootSystem app) (look group) ok

def Outage (ok : Up → Prop) : Prop := ∃ up, ok up ∧ (up.redis = false ∨ up.postgres = false)

theorem of_ask {o : StatOp} {r : o.Res} (h : Reads app group ok C (ask o) C' r) :
    ∃ D up, Between (bootSystem app) C D C' ∧ ok up ∧ r = look group o up D.shared.world := by
  obtain ⟨D, up, hl, hup, hrest⟩ := h.of_act
  exact ⟨D, up, ⟨hl, hrest.leads⟩, hup, hrest.of_pure⟩

/-- Some time on the way from `C` to `C'`, `command` was answered with `reply`. -/
def Replied (app : App) (group : String) (ok : Up → Prop) (C C' : BootCfg) {α : Type}
    (command : StatPrg α) (reply : α) : Prop :=
  ∃ C₁ C₂, Leads (bootSystem app) C C₁ ∧ Leads (bootSystem app) C₂ C' ∧
    Reads app group ok C₁ command C₂ reply

theorem Replied.widen {α : Type} {command : StatPrg α} {reply : α} {C₁ C₂ : BootCfg}
    (h : Replied app group ok C₁ C₂ command reply) (h₁ : Leads (bootSystem app) C C₁)
    (h₂ : Leads (bootSystem app) C₂ C') : Replied app group ok C C' command reply := by
  obtain ⟨C₃, C₄, h₃, h₄, hread⟩ := h
  exact ⟨C₃, C₄, h₁.trans h₃, h₄.trans h₂, hread⟩

inductive Executed (app : App) (group : String) (ok : Up → Prop) (C C' : BootCfg) {α : Type}
    (commands : List (StatPrg (RedisResult α))) : Option (List (RedisResult α)) → Prop where
  | lost (command : StatPrg (RedisResult α)) : command ∈ commands →
      Replied app group ok C C' command .connectionError →
      Executed app group ok C C' commands none
  | replied (replies : List (RedisResult α)) :
      List.Forall₂ (fun command reply => reply ≠ .connectionError ∧
        Replied app group ok C C' command reply) commands replies →
      Executed app group ok C C' commands (some replies)

theorem execute_executed {α : Type} {commands : List (StatPrg (RedisResult α))}
    {out : Option (List (RedisResult α))} (h : Reads app group ok C (execute commands) C' out) :
    Executed app group ok C C' commands out := by
  induction commands generalizing C C' out with
  | nil =>
    rw [h.of_pure]
    exact .replied [] .nil
  | cons command commands ih =>
    obtain ⟨C₁, reply, hcommand, hrest⟩ := h.of_bind
    have hback := hcommand.leads
    -- the commands after one that was answered
    have hgo : reply ≠ .connectionError → Reads app group ok C₁ (execute commands >>= fun replies =>
          Prog.pure (replies.map (reply :: ·))) C' out →
        Executed app group ok C C' (command :: commands) out := by
      intro hne hrest
      obtain ⟨C₂, replies, hrest, hpure⟩ := hrest.of_bind
      rw [hpure.of_pure]
      have hdone := hpure.leads
      cases ih hrest with
      | lost command' hmem hreply =>
        exact .lost command' (List.mem_cons_of_mem _ hmem) (hreply.widen hback hdone)
      | replied replies hall =>
        refine .replied (reply :: replies) (.cons ⟨hne, C, C₁, .refl,
          hrest.leads.trans hdone, hcommand⟩ (hall.imp ?_))
        intro command' reply' hreply
        exact ⟨hreply.1, hreply.2.widen hback hdone⟩
    cases reply with
    | connectionError =>
      rw [hrest.of_pure]
      exact .lost command List.mem_cons_self ⟨C, C₁, .refl, hrest.leads, hcommand⟩
    | ok a => exact hgo (by simp) hrest
    | responseError message => exact hgo (by simp) hrest

def depthOf (D : BootCfg) (s : String) : Nat := (D.shared.world.log.view.undelivered s).length

def inFlightOf (D : BootCfg) (s : String) : Nat := (D.shared.world.log.view.pel s 0).length

theorem of_replied {o : StatOp} {r : o.Res} (h : Replied app group ok C C' (ask o) r) :
    ∃ D up, Between (bootSystem app) C D C' ∧ ok up ∧ r = look group o up D.shared.world := by
  obtain ⟨C₁, C₂, h₁, h₂, hread⟩ := h
  obtain ⟨D, up, hD, hup, hr⟩ := of_ask hread
  exact ⟨D, up, hD.widen h₁ h₂, hup, hr⟩

theorem look_xinfoGroups {s : String} {up : Up} {g : Group}
    (hg : D.shared.world.log.groups s = some g) :
    look group (.xinfoGroups s) up D.shared.world =
      if up.redis then .ok [⟨group, inFlightOf D s, some (depthOf D s)⟩] else .connectionError := by
  have hdepth : (D.shared.world.log.behind s g).length = depthOf D s := by
    rw [← Log.undelivered_view hg, List.length_map]
    rfl
  have hpel : g.pel.length = inFlightOf D s := by
    have := congrArg List.length (@Log.pel_view _ _ g s 0 hg)
    rw [List.length_map, List.filter_eq_self.2 (by simp)] at this
    exact this.symm
  cases hup : up.redis <;> simp [look, hup, hg, hdepth, hpel]

theorem look_xinfoConsumers {s : String} {up : Up} {g : Group}
    (hg : D.shared.world.log.groups s = some g) :
    look group (.xinfoConsumers s group) up D.shared.world =
      if up.redis then
        .ok (g.consumers.items.map fun q => ⟨q.1, millis D.shared.world.clock - q.2⟩)
      else .connectionError := by
  cases hup : up.redis <;> simp [look, hup, hg]

theorem idle_of_group {s name : String} {g : Group} {cutoff : Int}
    (hg : D.shared.world.log.groups s = some g) :
    (∃ row ∈ g.consumers.items.map fun q => (⟨q.1, millis D.shared.world.clock - q.2⟩ : ConsumerInfo),
        row.name = name ∧ row.idle < cutoff) ↔
      ∃ t, D.shared.world.log.seen s name = some t ∧ millis D.shared.world.clock - t < cutoff := by
  rw [Log.seen_of_group hg]
  constructor
  · rintro ⟨row, hrow, rfl, hlt⟩
    obtain ⟨q, hq, rfl⟩ := List.mem_map.1 hrow
    exact ⟨q.2, Dict.get?_of_mem hq, hlt⟩
  · rintro ⟨t, ht, hlt⟩
    exact ⟨_, List.mem_map.2 ⟨(name, t), Dict.mem_of_get? ht, rfl⟩, rfl, hlt⟩

/-- A pipeline with one command for each stream, when each command alone is answered as
`P` says or the connection is lost. -/
theorem Executed.streams {α : Type} {command : String → StatPrg (RedisResult α)}
    {P : String → BootCfg → RedisResult α → Prop} {out : Option (List (RedisResult α))}
    (hone : ∀ s ∈ app.settings.orderedStreams, ∀ reply,
      Replied app group ok C C' (command s) reply →
        (reply = .connectionError → Outage ok) ∧ (reply ≠ .connectionError →
          ∃ D, Between (bootSystem app) C D C' ∧ P s D reply))
    (h : Executed app group ok C C' (app.settings.orderedStreams.map command) out) :
    (out = none ∧ Outage ok) ∨ ∃ r₁ r₂ r₃, out = some [r₁, r₂, r₃] ∧
      (∃ D, Between (bootSystem app) C D C' ∧ P app.settings.streamHigh D r₁) ∧
      (∃ D, Between (bootSystem app) C D C' ∧ P app.settings.streamNormal D r₂) ∧
      ∃ D, Between (bootSystem app) C D C' ∧ P app.settings.streamLow D r₃ := by
  cases h with
  | lost cmd hmem hreply =>
    obtain ⟨s, hs, rfl⟩ := List.mem_map.1 hmem
    exact .inl ⟨rfl, (hone s hs _ hreply).1 rfl⟩
  | replied replies hall =>
    obtain ⟨r₁, _, ⟨hne₁, h₁⟩, hall₁, rfl⟩ := List.forall₂_cons_left_iff.1 hall
    obtain ⟨r₂, _, ⟨hne₂, h₂⟩, hall₂, rfl⟩ := List.forall₂_cons_left_iff.1 hall₁
    obtain ⟨r₃, _, ⟨hne₃, h₃⟩, hall₃, rfl⟩ := List.forall₂_cons_left_iff.1 hall₂
    rw [List.forall₂_nil_left_iff.1 hall₃]
    exact .inr ⟨r₁, r₂, r₃, rfl, (hone _ (by simp [Settings.orderedStreams]) _ h₁).2 hne₁,
      (hone _ (by simp [Settings.orderedStreams]) _ h₂).2 hne₂,
      (hone _ (by simp [Settings.orderedStreams]) _ h₃).2 hne₃⟩

/-- `name` has polled `s`, by the clock of Redis less than `cutoff` milliseconds ago. -/
def PolledWithin (app : App) (cutoff : Int) (D : BootCfg) (s name : String) : Prop :=
  ∃ t, HasPolled app D s name t ∧ millis D.shared.world.clock - millis t < cutoff

/-- What the queue's half of a response shows of the run from `C` to `C'`: every number
was so at a state on the way. -/
structure QueueShown (app : App) (C C' : BootCfg) (q : QueueStats) : Prop where
  streams : ∃ D₁ D₂ D₃, Between (bootSystem app) C D₁ C' ∧ Between (bootSystem app) C D₂ C' ∧
    Between (bootSystem app) C D₃ C' ∧ q.streams =
      [(.high, ⟨some (depthOf D₁ app.settings.streamHigh), inFlightOf D₁ app.settings.streamHigh⟩),
       (.normal, ⟨some (depthOf D₂ app.settings.streamNormal),
          inFlightOf D₂ app.settings.streamNormal⟩),
       (.low, ⟨some (depthOf D₃ app.settings.streamLow), inFlightOf D₃ app.settings.streamLow⟩)]
  scheduled : ∃ D, Between (bootSystem app) C D C' ∧
    q.scheduled = D.shared.world.delayed.items.length
  workers : ∃ D₁ D₂ D₃, Between (bootSystem app) C D₁ C' ∧ Between (bootSystem app) C D₂ C' ∧
    Between (bootSystem app) C D₃ C' ∧ ∃ names : List String, names.Nodup ∧
      q.workers = names.length ∧ ∀ name, name ∈ names ↔ name ≠ reaperName ∧
        (PolledWithin app app.settings.visibilityMs D₁ app.settings.streamHigh name ∨
          PolledWithin app app.settings.visibilityMs D₂ app.settings.streamNormal name ∨
          PolledWithin app app.settings.visibilityMs D₃ app.settings.streamLow name)

/-- The same for the half of the jobs. -/
structure JobsShown (app : App) (C C' : BootCfg) (j : JobStats) : Prop where
  byStatus : ∃ D, Between (bootSystem app) C D C' ∧ ∀ status,
    j.byStatus.get? status = some (rowsWith D.shared.world.jobs status).length
  oldest : ∃ D D', Between (bootSystem app) C D C' ∧ Between (bootSystem app) D D' C' ∧
    (j.oldestPendingAge = none ↔ rowsWith D.shared.world.jobs .pending = []) ∧
    ∀ age, j.oldestPendingAge = some age → 0 ≤ age ∧
      ∃ row ∈ rowsWith D.shared.world.jobs .pending, age = D'.shared.world.clock - row.createdAt ∧
        ∀ row' ∈ rowsWith D.shared.world.jobs .pending, row.createdAt ≤ row'.createdAt

/-- Every stream has its group, here and from here on. -/
def Grouped (app : App) (C : BootCfg) : Prop :=
  ∀ D, Leads (bootSystem app) C D → ∀ s ∈ app.settings.orderedStreams,
    ∃ g, D.shared.world.log.groups s = some g

theorem grouped_of_served (hr : Reachable (bootSystem app) C) (hs : served C.shared.log = true) :
    Grouped app C := by
  intro D hl s hs'
  obtain ⟨c, -, hm⟩ := mirrored (hl.reachable hr)
  obtain ⟨EV, hEV, hret⟩ := List.any_eq_true.1 hs
  have hensured : Ensured app D.shared.world.log [] := by
    refine hm.returned EV (hl.log_suffix.subset hEV) ?_
    split at hret
    · rfl
    · cases hret
  exact Option.isSome_iff_exists.1 ((hensured s hs').resolve_left (by simp))

theorem groups_told (hg : Grouped app C) {s : String} (hs : s ∈ app.settings.orderedStreams)
    {reply : RedisResult (List GroupInfo)}
    (h : Replied app group ok C C' (ask (.xinfoGroups s)) reply) :
    (reply = .connectionError → Outage ok) ∧ (reply ≠ .connectionError →
      ∃ D, Between (bootSystem app) C D C' ∧
        reply = .ok [⟨group, inFlightOf D s, some (depthOf D s)⟩]) := by
  obtain ⟨D, up, hD, hup, hreply⟩ := of_replied h
  obtain ⟨g, hgs⟩ := hg D hD.1 s hs
  rw [look_xinfoGroups hgs] at hreply
  cases hredis : up.redis with
  | false =>
    rw [hredis] at hreply
    exact ⟨fun _ => ⟨up, hup, .inl hredis⟩, fun hne => absurd hreply hne⟩
  | true =>
    rw [hredis] at hreply
    exact ⟨fun hlost => (by rw [hreply] at hlost; cases hlost), fun _ => ⟨D, hD, hreply⟩⟩

theorem consumers_told (hg : Grouped app C) {s : String} (hs : s ∈ app.settings.orderedStreams)
    {reply : RedisResult (List ConsumerInfo)}
    (h : Replied app group ok C C' (ask (.xinfoConsumers s group)) reply) :
    (reply = .connectionError → Outage ok) ∧ (reply ≠ .connectionError →
      ∃ D, Between (bootSystem app) C D C' ∧ ∃ rows, reply = .ok rows ∧ ∀ name cutoff,
        (∃ row ∈ rows, row.name = name ∧ row.idle < cutoff) ↔
          ∃ t, D.shared.world.log.seen s name = some t ∧
            millis D.shared.world.clock - t < cutoff) := by
  obtain ⟨D, up, hD, hup, hreply⟩ := of_replied h
  obtain ⟨g, hgs⟩ := hg D hD.1 s hs
  rw [look_xinfoConsumers hgs] at hreply
  cases hredis : up.redis with
  | false =>
    rw [hredis] at hreply
    exact ⟨fun _ => ⟨up, hup, .inl hredis⟩, fun hne => absurd hreply hne⟩
  | true =>
    rw [hredis] at hreply
    exact ⟨fun hlost => (by rw [hreply] at hlost; cases hlost),
      fun _ => ⟨D, hD, _, hreply, fun name cutoff => idle_of_group hgs⟩⟩

theorem queueStats_eq {p₁ p₂ p₃ d₁ d₂ d₃ n : Nat} {rows₁ rows₂ rows₃ : List ConsumerInfo} :
    queueStats app group
        [.ok [⟨group, p₁, some d₁⟩], .ok [⟨group, p₂, some d₂⟩], .ok [⟨group, p₃, some d₃⟩]]
        [.ok rows₁, .ok rows₂, .ok rows₃] (.ok n) =
      .ok ⟨[(.high, ⟨some d₁, p₁⟩), (.normal, ⟨some d₂, p₂⟩), (.low, ⟨some d₃, p₃⟩)], n,
        liveWorkerCount ([rows₁, rows₂, rows₃].map fun rows =>
          rows.filter fun row => row.name ≠ reaperName) app.settings.visibilityMs⟩ := by
  have hstat : ∀ p d, streamStat group [⟨group, p, some d⟩] = ⟨some d, p⟩ := by
    intro p d
    simp [streamStat]
  rw [← hstat p₁, ← hstat p₂, ← hstat p₃]
  rfl

theorem polledWithin_of_rows (hr : Reachable (bootSystem app) D) {rows : List ConsumerInfo}
    {s name : String} {cutoff : Int}
    (h : (∃ row ∈ rows, row.name = name ∧ row.idle < cutoff) ↔
      ∃ t, D.shared.world.log.seen s name = some t ∧ millis D.shared.world.clock - t < cutoff) :
    (∃ row ∈ rows.filter fun row => row.name ≠ reaperName, row.name = name ∧ row.idle < cutoff) ↔
      name ≠ reaperName ∧ PolledWithin app cutoff D s name := by
  rw [PolledWithin, ← seen_recently hr, ← h]
  constructor
  · rintro ⟨row, hrow, rfl, hlt⟩
    obtain ⟨hrow, hne⟩ := List.mem_filter.1 hrow
    exact ⟨of_decide_eq_true hne, row, hrow, rfl, hlt⟩
  · rintro ⟨hne, row, hrow, rfl, hlt⟩
    exact ⟨row, List.mem_filter.2 ⟨hrow, decide_eq_true hne⟩, rfl, hlt⟩

theorem age_nonneg (hr : Reachable (bootSystem app) C) {D' : BootCfg}
    (hD : Leads (bootSystem app) C D) (hD' : Leads (bootSystem app) D D') {row : Job}
    (hrow : row ∈ rowsWith D.shared.world.jobs .pending) :
    0 ≤ D'.shared.world.clock - row.createdAt := by
  obtain ⟨c, hc, hm⟩ := mirrored (hD.reachable hr)
  have hmem : row ∈ c.shared.world.jobs.rows := by
    rw [hm.shared]
    exact List.mem_of_mem_filter hrow
  have hcreated := ((dated hc).world.rows row.id row (Table.find?_of_mem hmem)).created
  have hclock : D.shared.world.clock ≤ D'.shared.world.clock := by
    induction hD' with
    | refl => exact Int.le_refl _
    | step hl hs ih =>
      exact ih.trans (seen_step ((hl.reachable (hD.reachable hr)).step hs trivial) hs "" "").1
  rw [hm.shared] at hcreated
  exact Int.sub_nonneg_of_le (hcreated.2.trans hclock)

theorem gatherQueue_shown (hr : Reachable (bootSystem app) C) (hg : Grouped app C)
    {out : Except StatsExc QueueStats} (h : Reads app group ok C (gatherQueue app group) C' out) :
    (∃ q, out = .ok q ∧ QueueShown app C C' q) ∨ (∃ exc, out = .error exc) ∧ Outage ok := by
  obtain ⟨C₁, groups, hgroups, h⟩ := h.of_bind
  rcases (execute_executed hgroups).streams (fun s hs _ => groups_told hg hs) with
    ⟨rfl, ho⟩ | ⟨_, _, _, rfl, ⟨G₁, hG₁, rfl⟩, ⟨G₂, hG₂, rfl⟩, G₃, hG₃, rfl⟩
  · exact .inr ⟨⟨_, h.of_pure⟩, ho⟩
  obtain ⟨C₂, consumers, hconsumers, h⟩ := h.of_bind
  have hl₁ := hgroups.leads
  have hg₁ : Grouped app C₁ := fun D hD => hg D (hl₁.trans hD)
  rcases (execute_executed hconsumers).streams (fun s hs _ => consumers_told hg₁ hs) with
    ⟨rfl, ho⟩ | ⟨_, _, _, rfl, ⟨W₁, hW₁, rows₁, rfl, hrows₁⟩, ⟨W₂, hW₂, rows₂, rfl, hrows₂⟩,
      W₃, hW₃, rows₃, rfl, hrows₃⟩
  · exact .inr ⟨⟨_, h.of_pure⟩, ho⟩
  obtain ⟨C₃, card, hcard, h⟩ := h.of_bind
  obtain ⟨Z, up, hZ, hup, rfl⟩ := of_ask hcard
  have hl₃ := h.leads
  have hl₂ := hcard.leads.trans hl₃
  cases hredis : up.redis with
  | false =>
    have hdown : look group .zcard up Z.shared.world = .connectionError := by simp [look, hredis]
    rw [hdown] at h
    exact .inr ⟨⟨_, h.of_pure⟩, up, hup, .inl hredis⟩
  | true =>
    have hcount : look group .zcard up Z.shared.world =
        .ok Z.shared.world.delayed.items.length := by simp [look, hredis]
    rw [hcount, queueStats_eq] at h
    have hrest := hconsumers.leads.trans hl₂
    refine .inl ⟨_, h.of_pure, ?_, ?_, ?_⟩
    · exact ⟨G₁, G₂, G₃, hG₁.widen .refl hrest, hG₂.widen .refl hrest, hG₃.widen .refl hrest, rfl⟩
    · exact ⟨Z, hZ.widen (hl₁.trans hconsumers.leads) hl₃, rfl⟩
    · obtain ⟨names, hn, hlen, hmem⟩ := liveWorkerCount_eq
        ([rows₁, rows₂, rows₃].map fun rows => rows.filter fun row => row.name ≠ reaperName)
        app.settings.visibilityMs
      have hw₁ := hW₁.widen hl₁ hl₂
      have hw₂ := hW₂.widen hl₁ hl₂
      have hw₃ := hW₃.widen hl₁ hl₂
      refine ⟨W₁, W₂, W₃, hw₁, hw₂, hw₃, names, hn, hlen, fun name => (hmem name).trans ?_⟩
      simp only [List.map_cons, List.map_nil, List.mem_cons, List.not_mem_nil, or_false,
        exists_eq_or_imp, exists_eq_left,
        polledWithin_of_rows (hw₁.1.reachable hr) (hrows₁ name app.settings.visibilityMs),
        polledWithin_of_rows (hw₂.1.reachable hr) (hrows₂ name app.settings.visibilityMs),
        polledWithin_of_rows (hw₃.1.reachable hr) (hrows₃ name app.settings.visibilityMs), and_or_left]

theorem gatherJobs_shown (hr : Reachable (bootSystem app) C) {out : Except StatsExc JobStats}
    (h : Reads app group ok C gatherJobs C' out) :
    (∃ j, out = .ok j ∧ JobsShown app C C' j) ∨ (∃ exc, out = .error exc) ∧ Outage ok := by
  obtain ⟨C₁, rows, hstatus, h⟩ := h.of_bind
  obtain ⟨B, up, hB, hup, rfl⟩ := of_ask hstatus
  cases hpg : up.postgres with
  | false =>
    have hnone : look group .countByStatus up B.shared.world = none := by simp [look, hpg]
    rw [hnone] at h
    exact .inr ⟨⟨_, h.of_pure⟩, up, hup, .inr hpg⟩
  | true =>
    have hrows : look group .countByStatus up B.shared.world =
        some (statusRows B.shared.world.jobs) := by simp [look, hpg, statusRows]
    rw [hrows] at h
    obtain ⟨C₂, minCreated, hmin, h⟩ := h.of_bind
    obtain ⟨M, up, hM, hup, rfl⟩ := of_ask hmin
    cases hpg : up.postgres with
    | false =>
      have hnone : look group .minPendingCreatedAt up M.shared.world = none := by simp [look, hpg]
      rw [hnone] at h
      exact .inr ⟨⟨_, h.of_pure⟩, up, hup, .inr hpg⟩
    | true =>
      have holdest : look group .minPendingCreatedAt up M.shared.world =
          some ((rowsWith M.shared.world.jobs .pending).map Job.createdAt).min? := by
        simp [look, hpg]
      rw [holdest] at h
      obtain ⟨C₃, now, hnow, h⟩ := h.of_bind
      obtain ⟨N, _, hN, _, rfl⟩ := of_ask hnow
      have hl₁ := hstatus.leads
      have hl₃ := h.leads
      have hl₂ := hnow.leads.trans hl₃
      have hMC := hM.widen hl₁ hl₂
      have hMN : Leads (bootSystem app) M N := hM.2.trans hN.1
      refine .inl ⟨_, h.of_pure, ⟨B, hB.widen .refl (hmin.leads.trans hl₂), fun status => ?_⟩,
        M, N, hMC, ⟨hMN, hN.2.trans hl₃⟩, pendingAge_none, fun age hage => ?_⟩
      · exact zeroFillStatusCounts_eq B.shared.world.jobs status
      · obtain ⟨row, hrow, rfl, hmin⟩ := pendingAge_some hage
        exact ⟨age_nonneg hr hMC.1 hMN hrow, row, hrow, rfl, hmin⟩

theorem QueueShown.widen {C₁ C₂ : BootCfg} {q : QueueStats} (h : QueueShown app C₁ C₂ q)
    (h₁ : Leads (bootSystem app) C C₁) (h₂ : Leads (bootSystem app) C₂ C') :
    QueueShown app C C' q where
  streams := by
    obtain ⟨D₁, D₂, D₃, hD₁, hD₂, hD₃, heq⟩ := h.streams
    exact ⟨D₁, D₂, D₃, hD₁.widen h₁ h₂, hD₂.widen h₁ h₂, hD₃.widen h₁ h₂, heq⟩
  scheduled := by
    obtain ⟨D, hD, heq⟩ := h.scheduled
    exact ⟨D, hD.widen h₁ h₂, heq⟩
  workers := by
    obtain ⟨D₁, D₂, D₃, hD₁, hD₂, hD₃, hnames⟩ := h.workers
    exact ⟨D₁, D₂, D₃, hD₁.widen h₁ h₂, hD₂.widen h₁ h₂, hD₃.widen h₁ h₂, hnames⟩

theorem JobsShown.widen {C₁ C₂ : BootCfg} {j : JobStats} (h : JobsShown app C₁ C₂ j)
    (h₁ : Leads (bootSystem app) C C₁) (h₂ : Leads (bootSystem app) C₂ C') :
    JobsShown app C C' j where
  byStatus := by
    obtain ⟨D, hD, hcounts⟩ := h.byStatus
    exact ⟨D, hD.widen h₁ h₂, hcounts⟩
  oldest := by
    obtain ⟨D, D', hD, hD', hage⟩ := h.oldest
    exact ⟨D, D', hD.widen h₁ h₂, hD'.widen .refl h₂, hage⟩

/-- What `/stats` answers is so: a 200 shows numbers that were right while it was read,
and there is no 503 unless a store has failed. -/
inductive StatsTruth (app : App) (ok : Up → Prop) (C C' : BootCfg) : StatsAnswer → Prop where
  | shown (r : StatsResponse) : QueueShown app C C' r.queue → JobsShown app C C' r.jobs →
      StatsTruth app ok C C' ⟨200, .inl r⟩
  | unavailable : Outage ok → StatsTruth app ok C C' ⟨503, .inr "stats unavailable"⟩

end Beside

/-! ### The gauges -/

section Gauges

variable {C C' : BootCfg} {group : String} {ok : Up → Prop}

theorem depth_reply {s : String} {D : BootCfg} {up : Up} {groups : List GroupInfo} {lag : Nat}
    (h : look group (.xinfoGroups s) up D.shared.world = .ok groups)
    (hlag : (groups.find? fun g => g.name = group).bind GroupInfo.lag = some lag) :
    lag = depthOf D s := by
  cases hg : D.shared.world.log.groups s with
  | some g =>
    rw [look_xinfoGroups hg] at h
    cases hredis : up.redis with
    | false =>
      rw [hredis] at h
      cases h
    | true =>
      rw [hredis] at h
      cases h
      simpa using hlag.symm
  | none =>
    cases hredis : up.redis with
    | false =>
      simp [look, hredis] at h
    | true =>
      simp only [look, hredis, hg, Bool.not_true, Bool.false_eq_true, if_false] at h
      split at h
      · cases h
        cases hlag
      · cases h

/-- Every depth the gauge reports was so. -/
theorem queueDepth_exact {streams : List (JobPriority × String)} {out obs : List (JobPriority × Nat)}
    (h : Reads app group ok C (queueDepthObservations group streams out) C' obs) :
    ∀ q ∈ obs, q ∈ out ∨ ∃ s D, (q.1, s) ∈ streams ∧ Between (bootSystem app) C D C' ∧
      q.2 = depthOf D s := by
  induction streams generalizing C out with
  | nil =>
    rw [h.of_pure]
    exact fun q hq => .inl hq
  | cons p streams ih =>
    obtain ⟨priority, s⟩ := p
    obtain ⟨C₁, reply, hask, h⟩ := h.of_bind
    obtain ⟨D, up, hD, -, hreply⟩ := of_ask hask
    have hdone := h.leads
    -- what the other streams report
    have hrest : ∀ {out : List (JobPriority × Nat)},
        Reads app group ok C₁ (queueDepthObservations group streams out) C' obs →
        ∀ q ∈ obs, q ∈ out ∨ ∃ s' E, (q.1, s') ∈ (priority, s) :: streams ∧
          Between (bootSystem app) C E C' ∧ q.2 = depthOf E s' := by
      intro out h q hq
      rcases ih h q hq with hq | ⟨s', E, hs', hE, heq⟩
      · exact .inl hq
      · exact .inr ⟨s', E, List.mem_cons_of_mem _ hs', hE.widen hask.leads .refl, heq⟩
    cases reply with
    | connectionError =>
      rw [h.of_pure]
      exact fun q hq => by cases hq
    | responseError message => exact hrest h
    | ok groups =>
      cases hlag : (groups.find? fun g => g.name = group).bind GroupInfo.lag with
      | none =>
        simp only [hlag] at h
        exact hrest h
      | some lag =>
        simp only [hlag] at h
        intro q hq
        rcases hrest h q hq with hq | hmore
        · rcases List.mem_append.1 hq with hq | hq
          · exact .inl hq
          · rw [List.mem_singleton.1 hq]
            exact .inr ⟨s, D, List.mem_cons_self, hD.widen .refl hdone,
              depth_reply hreply.symm hlag⟩
        · exact .inr hmore

/-- With the groups there, no stream is left out unless Redis has failed. -/
theorem queueDepth_complete {streams : List (JobPriority × String)}
    {out obs : List (JobPriority × Nat)} (hg : Grouped app C)
    (hs : ∀ q ∈ streams, q.2 ∈ app.settings.orderedStreams)
    (h : Reads app group ok C (queueDepthObservations group streams out) C' obs) :
    obs.map Prod.fst = (out.map Prod.fst) ++ streams.map Prod.fst ∨ obs = [] ∧ Outage ok := by
  induction streams generalizing C out with
  | nil =>
    rw [h.of_pure]
    exact .inl (by simp)
  | cons p streams ih =>
    obtain ⟨priority, s⟩ := p
    obtain ⟨C₁, reply, hask, h⟩ := h.of_bind
    obtain ⟨D, up, hD, hup, rfl⟩ := of_ask hask
    obtain ⟨g, hgs⟩ := hg D hD.1 s (hs (priority, s) List.mem_cons_self)
    rw [look_xinfoGroups hgs] at h
    cases hredis : up.redis with
    | false =>
      rw [hredis] at h
      exact .inr ⟨h.of_pure, up, hup, .inl hredis⟩
    | true =>
      rw [hredis] at h
      simp only [if_true, List.find?_cons_of_pos, decide_true, Option.bind_some] at h
      have hl := hask.leads
      rcases ih (fun E hE => hg E (hl.trans hE)) (fun q hq => hs q (List.mem_cons_of_mem _ hq)) h
        with heq | hlost
      · exact .inl (by simpa using heq)
      · exact .inr hlost

theorem queueScheduled_shown {obs : List Nat}
    (h : Reads app group ok C queueScheduledObservations C' obs) :
    (∃ D, Between (bootSystem app) C D C' ∧ obs = [D.shared.world.delayed.items.length]) ∨
      obs = [] ∧ Outage ok := by
  obtain ⟨C₁, reply, hask, h⟩ := h.of_bind
  obtain ⟨D, up, hD, hup, rfl⟩ := of_ask hask
  cases hredis : up.redis with
  | false =>
    simp only [look, hredis] at h
    exact .inr ⟨h.of_pure, up, hup, .inl hredis⟩
  | true =>
    simp only [look, hredis] at h
    exact .inl ⟨D, hD.widen .refl h.leads, h.of_pure⟩

theorem jobStatus_shown {obs : List (JobStatus × Nat)}
    (h : Reads app group ok C jobStatusObservations C' obs) :
    (∃ D, Between (bootSystem app) C D C' ∧ ∀ status count, (status, count) ∈ obs ↔
        count = (rowsWith D.shared.world.jobs status).length) ∨ obs = [] ∧ Outage ok := by
  obtain ⟨C₁, reply, hask, h⟩ := h.of_bind
  obtain ⟨D, up, hD, hup, rfl⟩ := of_ask hask
  cases hpg : up.postgres with
  | false =>
    have hnone : look group .countByStatus up D.shared.world = none := by simp [look, hpg]
    rw [hnone] at h
    exact .inr ⟨h.of_pure, up, hup, .inr hpg⟩
  | true =>
    have hrows : look group .countByStatus up D.shared.world =
        some (statusRows D.shared.world.jobs) := by simp [look, hpg, statusRows]
    rw [hrows] at h
    refine .inl ⟨D, hD.widen .refl h.leads, fun status count => ?_⟩
    rw [h.of_pure]
    have hget := zeroFillStatusCounts_eq D.shared.world.jobs status
    constructor
    · intro hmem
      rw [Dict.get?_of_mem hmem, Option.some.injEq] at hget
      exact hget
    · rintro rfl
      exact Dict.mem_of_get? hget

end Gauges

theorem stats_truthful (app : App) (group : String) (ok : Up → Prop) (C C' : BootCfg)
    (hr : Reachable (bootSystem app) C) (hs : served C.shared.log = true) (answer : StatsAnswer)
    (h : Reads app group ok C (statsRoute app group) C' answer) :
    StatsTruth app ok C C' answer := by
  obtain ⟨C₁, out, hgather, h⟩ := h.of_bind
  obtain ⟨C₂, queue, hqueue, hgather⟩ := hgather.of_bind
  have hback := hqueue.leads
  have hdone := h.leads
  rcases gatherQueue_shown hr (grouped_of_served hr hs) hqueue with
    ⟨q, rfl, hq⟩ | ⟨⟨exc, rfl⟩, ho⟩
  · obtain ⟨C₃, jobs, hjobs, hgather⟩ := hgather.of_bind
    have hback' := hjobs.leads
    have hdone' := hgather.leads.trans hdone
    rcases gatherJobs_shown (hback.reachable hr) hjobs with ⟨j, rfl, hj⟩ | ⟨⟨exc, rfl⟩, ho⟩
    · rw [hgather.of_pure] at h
      rw [h.of_pure]
      exact .shown ⟨q, j⟩ (hq.widen .refl (hback'.trans hdone')) (hj.widen hback hdone')
    · rw [hgather.of_pure] at h
      rw [h.of_pure]
      exact .unavailable ho
  · rw [hgather.of_pure] at h
    rw [h.of_pure]
    exact .unavailable ho

/-- One entry is pending at its worker, and `/stats` shows that. -/
def showsPending (C : BootCfg) : Bool :=
  served C.shared.log &&
    match (statsRoute defaultApp "workers").answer (look "workers") {} C.shared.world with
    | ⟨200, .inl r⟩ => r.queue.streams = [(.high, ⟨some 0, 0⟩), (.normal, ⟨some 0, 1⟩),
        (.low, ⟨some 0, 0⟩)] && r.queue.workers = 1
    | _ => false

theorem stats_truthful_comingUp : ∃ C answer, Reachable (bootSystem defaultApp) C ∧
    showsPending C = true ∧
    Reads defaultApp "workers" (fun _ => True) C (statsRoute defaultApp "workers") C answer ∧
    StatsTruth defaultApp (fun _ => True) C C answer := by
  obtain ⟨C, hC, hp⟩ := boot_of_replay defaultApp comingUp showsPending (by decide +kernel)
  have hreads : Reads defaultApp "workers" (fun _ => True) C (statsRoute defaultApp "workers") C _ :=
    Beside.still (v := {}) trivial _
  exact ⟨C, _, hC, hp, hreads, stats_truthful defaultApp "workers" (fun _ => True) C C hC
    (Bool.and_eq_true_iff.1 hp).1 _ hreads⟩

end JobProcessor
