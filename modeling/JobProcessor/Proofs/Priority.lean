import JobProcessor.Model.Worker
import JobProcessor.Store.Dict
import Mathlib.Data.List.Nodup

/-! Strict priority of `read_priority`, with any number of calls and producers at
work on the same streams. -/

namespace JobProcessor

open Interleave Prog Store

inductive QueueProc where
  | readPriority (consumer : String) (streams : List String) (count : Nat)
  | enqueue (stream : String) (jobId : Uuid)

/-- Calls and producers over a world with any backlog. -/
def queueSystem (w : World) (allowed : QueueProc → Bool) :
    Sys World Op Op.Res Env QueueProc (List Message) where
  init := w
  exec := exec 0
  body
    | .readPriority consumer streams count => readPriority consumer streams count
    | .enqueue stream jobId => do
      perform (.xadd stream jobId)
      Prog.pure []
  forks _ := none
  allows _ p := allowed p

abbrev QueueEv := Event Op Op.Res QueueProc (List Message)

abbrev QueueState := Shared World Op Op.Res QueueProc (List Message)

abbrev QueueCfg := Config World Op Op.Res QueueProc (List Message)

/-! ### One call -/

section Calls

variable {consumer : String} {streams : List String} {count : Nat}

abbrev QueueHist := List (Reply Op Op.Res)

def Probed (consumer : String) (count : Nat) (h : QueueHist) (s : String) : Prop :=
  (⟨.xreadgroup consumer [s] count, ([] : List Message)⟩ : Reply Op Op.Res) ∈ h

theorem Probed.mono {g h : QueueHist} {s : String} (hp : Probed consumer count g s)
    (hs : g ⊆ h) : Probed consumer count h s := hs hp

/-- A stream is read alone when all higher ones were found empty, and all of them together
when every one was. -/
def readIssued (consumer : String) (streams : List String) (count : Nat) (h : QueueHist) :
    Op → Prop
  | .xreadgroup c ss n => c = consumer ∧ n = count ∧
    ((∃ pre s post, ss = [s] ∧ streams = pre ++ s :: post ∧ ∀ t ∈ pre, Probed consumer count h t) ∨
      ss = streams.eraseDups ∧ ∀ t ∈ streams, Probed consumer count h t)
  | _ => False

/-- What a call returns came in one reply: of a probe below empty ones, or of the read of
all streams. Without messages, every probe was empty. -/
structure ReadReturned (consumer : String) (streams : List String) (count : Nat) (h : QueueHist)
    (msgs : List Message) : Prop where
  found : ∀ m ms, msgs = m :: ms →
    (∃ pre s post, streams = pre ++ s :: post ∧ (∀ t ∈ pre, Probed consumer count h t) ∧
        (⟨.xreadgroup consumer [s] count, m :: ms⟩ : Reply Op Op.Res) ∈ h) ∨
      (⟨.xreadgroup consumer streams.eraseDups count, m :: ms⟩ : Reply Op Op.Res) ∈ h
  empty : msgs = [] → ∀ t ∈ streams, Probed consumer count h t

theorem probe_inOrder (rest : List String) :
    ∀ (pre : List String) (h : QueueHist), streams = pre ++ rest →
      (∀ t ∈ pre, Probed consumer count h t) →
      Emits (fun _ _ => True) (readIssued consumer streams count)
        (ReadReturned consumer streams count) h (probe consumer count rest) := by
  induction rest with
  | nil =>
    intro pre h hs hpre
    refine ⟨fun m ms hm => (nomatch hm), fun _ t ht => hpre t ?_⟩
    rw [hs, List.append_nil] at ht
    exact ht
  | cons s rest ih =>
    intro pre h hs hpre
    refine ⟨⟨rfl, rfl, .inl ⟨pre, s, rest, rfl, hs, hpre⟩⟩, fun msgs _ => ?_⟩
    cases msgs with
    | nil =>
      refine ih (pre ++ [s]) _ (by rw [hs]; simp) fun t ht => ?_
      rcases List.mem_append.1 ht with ht | ht
      · exact (hpre t ht).mono (List.subset_cons_self _ _)
      · rw [List.mem_singleton.1 ht]
        exact List.mem_cons_self
    | cons m ms =>
      refine ⟨fun m' ms' hm => ?_, fun hm => (nomatch hm)⟩
      cases hm
      refine .inl ⟨pre, s, rest, hs, fun t ht => ?_, List.mem_cons_self⟩
      exact (hpre t ht).mono (List.subset_cons_self _ _)

theorem readPriority_inOrder (consumer : String) (streams : List String) (count : Nat) :
    Emits (fun _ _ => True) (readIssued consumer streams count)
      (ReadReturned consumer streams count) [] (readPriority consumer streams count) := by
  refine Emits.bind (probe_inOrder streams [] [] rfl (by simp)) fun g msgs hg => ?_
  cases msgs with
  | cons m ms => exact hg
  | nil =>
    have hall := hg.empty rfl
    refine ⟨⟨rfl, rfl, .inr ⟨rfl, hall⟩⟩, fun msgs _ => ⟨fun m ms hm => ?_, fun _ t ht => ?_⟩⟩
    · subst hm
      exact .inr List.mem_cons_self
    · exact (hall t ht).mono (List.subset_cons_self _ _)

end Calls

def queueIssues : QueueProc → QueueHist → Op → Prop
  | .readPriority consumer streams count, h, o => readIssued consumer streams count h o
  | .enqueue stream jobId, _, o => o = .xadd stream jobId

def queueReturns : QueueProc → QueueHist → List Message → Prop
  | .readPriority consumer streams count, h, msgs => ReadReturned consumer streams count h msgs
  | .enqueue _ _, _, _ => True

theorem queue_emits (w : World) (allowed : QueueProc → Bool) (p : QueueProc) :
    Emits (fun _ _ => True) (queueIssues p) (queueReturns p) []
      ((queueSystem w allowed).body p) := by
  cases p with
  | readPriority consumer streams count => exact readPriority_inOrder consumer streams count
  | enqueue stream jobId => exact ⟨rfl, fun _ _ => trivial⟩

/-! ### What was returned was the highest and oldest -/

section Instants

variable {w : World} {allowed : QueueProc → Bool} {c : QueueCfg} {pid : Nat}
  {consumer : String} {ss : List String} {count : Nat}

abbrev QueuePassed (w : World) (allowed : QueueProc → Bool) :
    QueueCfg → QueueEv → QueueCfg → QueueCfg → Prop :=
  Passed (queueSystem w allowed) fun _ _ => True

/-- At some instant of the call `pid` the stream had no undelivered message. -/
def EmptyDuring (w : World) (allowed : QueueProc → Bool) (c : QueueCfg) (pid : Nat) (s : String) :
    Prop :=
  ∃ c₀ o r c₁, QueuePassed w allowed c₀ (.act pid o r) c₁ c ∧
    c₀.shared.world.streams.undelivered s = []

theorem read_passed {msgs : List Message} (hr : Reachable (queueSystem w allowed) c)
    (hev : .act pid (.xreadgroup consumer ss count) msgs ∈ c.shared.log) :
    ∃ c₀ c₁, QueuePassed w allowed c₀ (.act pid (.xreadgroup consumer ss count) msgs) c₁ c ∧
      msgs = (ss.flatMap fun s => c₀.shared.world.streams.ready s count).map Message.ofEntry := by
  obtain ⟨l₂, l₁, hl⟩ := List.append_of_mem hev
  obtain ⟨c₀, c₁, hp, -⟩ := hr.passed _ l₁ rfl ⟨l₂, hl.symm⟩
  obtain ⟨ch, hs⟩ := hp.moves
  obtain ⟨σ, hm, -⟩ := hp.run.step_issued (fun _ _ _ _ _ _ => trivial) (queue_emits w allowed) hs
  refine ⟨c₀, c₁, hp, ?_⟩
  cases hm with
  | act _ _ e he =>
    simp only [queueSystem, exec, Option.some.injEq, Prod.mk.injEq] at he
    exact he.2.symm

/-- The head of a reply: the oldest message of its stream, below streams that were empty
at that instant. -/
theorem head_passed {m : Message} {ms : List Message}
    (hr : Reachable (queueSystem w allowed) c)
    (hev : .act pid (.xreadgroup consumer ss count) (m :: ms) ∈ c.shared.log) :
    ∃ pre post, ss = pre ++ m.stream :: post ∧ (∀ t ∈ pre, EmptyDuring w allowed c pid t) ∧
      count ≠ 0 ∧ ∃ c₀ o r c₁ e, QueuePassed w allowed c₀ (.act pid o r) c₁ c ∧
        (c₀.shared.world.streams.undelivered m.stream).head? = some e ∧ m = .ofEntry e := by
  obtain ⟨c₀, c₁, hp, hmsgs⟩ := read_passed hr hev
  obtain ⟨e, es, hes, rfl, -⟩ := List.map_eq_cons_iff.1 hmsgs.symm
  obtain ⟨pre, post, hss, hpre, hhead⟩ := Streams.head_of_ready hes
  refine ⟨pre, post, hss, fun t ht => ⟨c₀, _, _, c₁, hp, hpre t ht⟩, ?_,
    c₀, _, _, c₁, e, hp, hhead, rfl⟩
  rintro rfl
  obtain ⟨s, -, hs⟩ := List.mem_flatMap.1 (hes ▸ List.mem_cons_self : e ∈ ss.flatMap _)
  rw [Streams.ready_eq, List.take_zero] at hs
  cases hs

theorem empty_passed {s : String} (hr : Reachable (queueSystem w allowed) c) (hcount : count ≠ 0)
    (hev : .act pid (.xreadgroup consumer [s] count) [] ∈ c.shared.log) :
    EmptyDuring w allowed c pid s := by
  obtain ⟨c₀, c₁, hp, hmsgs⟩ := read_passed hr hev
  refine ⟨c₀, _, _, c₁, hp, ?_⟩
  have hnil := List.map_eq_nil_iff.1 hmsgs.symm
  rw [List.flatMap_singleton, Streams.ready_eq, List.take_eq_nil_iff] at hnil
  exact hnil.resolve_left hcount

/-- What a call that returned `m` first can say: where the stream of `m` stands among its
streams, that each higher one was empty at some instant of the call, and that `m` was the
oldest undelivered message of its own. -/
structure PriorityKept (w : World) (allowed : QueueProc → Bool) (c : QueueCfg) (pid : Nat)
    (streams : List String) (m : Message) : Prop where
  higher : ∃ pre post, streams = pre ++ m.stream :: post ∧
    ∀ s ∈ pre, EmptyDuring w allowed c pid s
  oldest : ∃ c₀ o r c₁ e, QueuePassed w allowed c₀ (.act pid o r) c₁ c ∧
    (c₀.shared.world.streams.undelivered m.stream).head? = some e ∧ m = .ofEntry e

theorem priorityKept {streams : List String} {m : Message} {ms : List Message}
    (hr : Reachable (queueSystem w allowed) c) (hn : streams.Nodup)
    (hret : .ret pid (m :: ms) ∈ c.shared.log)
    (hp : proc? pid c.shared.log = some (.readPriority consumer streams count)) :
    PriorityKept w allowed c pid streams m := by
  obtain ⟨l₂, l₁, hl⟩ := List.append_of_mem hret
  have hsuf : .ret pid (m :: ms) :: l₁ <:+ c.shared.log := ⟨l₂, hl.symm⟩
  have hbefore : ∀ {o r}, (⟨o, r⟩ : Reply Op Op.Res) ∈ own pid l₁ → .act pid o r ∈ c.shared.log :=
    fun h => hsuf.subset (List.mem_cons_of_mem _ (mem_own.1 h))
  obtain ⟨p, hp', hans⟩ := (hr.recorded (fun _ _ _ _ _ _ => trivial) (queue_emits w allowed)).2
    pid _ l₁ hsuf
  rw [hp, Option.some.injEq] at hp'
  subst hp'
  rcases hans.found m ms rfl with ⟨pre, s, post, hs, hpre, hread⟩ | hread
  · obtain ⟨pre', post', hss, -, hcount, hold⟩ := head_passed hr (hbefore hread)
    obtain ⟨rfl, rfl⟩ : pre' = [] ∧ s = m.stream := by
      cases pre' with
      | nil => exact ⟨rfl, (List.cons.inj hss).1⟩
      | cons t pre' =>
        have := congrArg List.length hss
        simp at this
    exact ⟨⟨pre, post, hs, fun t ht => empty_passed hr hcount (hbefore (hpre t ht))⟩, hold⟩
  · rw [eraseDups_of_nodup hn] at hread
    obtain ⟨pre, post, hss, hpre, -, hold⟩ := head_passed hr (hbefore hread)
    exact ⟨⟨pre, post, hss, hpre⟩, hold⟩

end Instants

/-! ### The order without producers -/

/-- The undelivered messages, highest stream first and oldest first in each. -/
def backlog (w : World) (streams : List String) : List Message :=
  (streams.flatMap w.streams.undelivered).map Message.ofEntry

/-- The first elements of all replies, in the order they were given out. -/
def firsts : List QueueEv → List Message
  | [] => []
  | .act _ (.xreadgroup _ _ _) (m :: _) :: l => firsts l ++ [m]
  | _ :: l => firsts l

def readersOnly (streams : List String) : QueueProc → Bool
  | .readPriority _ ss count => ss = streams && count = 1
  | .enqueue _ _ => false

structure TakenInOrder (w : World) (streams : List String) (c : QueueCfg) : Prop where
  order : backlog w streams = firsts c.shared.log ++ backlog c.shared.world streams
  once : ((firsts c.shared.log).map Message.messageId).Nodup
  all : ∀ pid, .ret pid [] ∈ c.shared.log → firsts c.shared.log = backlog w streams

section Order

variable {w : World} {streams : List String} {σ σ' : QueueState} {ev : QueueEv}

/-- What the calls keep while nobody writes. -/
structure Draining (w : World) (streams : List String) (σ : QueueState) : Prop where
  procs : ∀ pid p, proc? pid σ.log = some p → ∃ consumer, p = .readPriority consumer streams 1
  order : backlog w streams = firsts σ.log ++ backlog σ.world streams
  drained : ∀ pid consumer s, .act pid (.xreadgroup consumer [s] 1) [] ∈ σ.log →
    σ.world.streams.undelivered s = []

/-- Taking the oldest message of the highest stream that has one takes the head of the
backlog. -/
theorem backlog_take {b : Streams (Option Uuid)} {pre post : List String} {s consumer : String}
    {now : Int} {e : Entry (Option Uuid)} {es : List (Entry (Option Uuid))}
    (hn : (pre ++ s :: post).Nodup) (hpre : ∀ t ∈ pre, b.undelivered t = [])
    (hs : b.undelivered s = e :: es) :
    (pre ++ s :: post).flatMap b.undelivered =
      e :: (pre ++ s :: post).flatMap (b.deliver consumer now [e.id]).undelivered := by
  have hne : ∀ t ∈ pre ++ post, ¬ t = s := by
    rintro t ht rfl
    rw [List.nodup_append] at hn
    rcases List.mem_append.1 ht with ht | ht
    · exact hn.2.2 t ht t List.mem_cons_self rfl
    · exact (List.nodup_cons.1 hn.2.1).1 ht
  have hpost : post.flatMap (b.deliver consumer now [e.id]).undelivered =
      post.flatMap b.undelivered := by
    refine List.flatMap_congr fun t ht => ?_
    rw [Streams.undelivered_take hs, if_neg (hne t (List.mem_append_right _ ht))]
  have hpre₁ : pre.flatMap b.undelivered = [] := List.flatMap_eq_nil_iff.2 hpre
  have hpre₂ : pre.flatMap (b.deliver consumer now [e.id]).undelivered = [] := by
    refine List.flatMap_eq_nil_iff.2 fun t ht => ?_
    rw [Streams.undelivered_take hs, if_neg (hne t (List.mem_append_left _ ht)), hpre t ht]
  rw [List.flatMap_append, List.flatMap_append, hpre₁, hpre₂, List.flatMap_cons, List.flatMap_cons,
    hpost, hs, Streams.undelivered_take hs, if_pos rfl]
  rfl

theorem undelivered_nothing (b : Streams (Option Uuid)) (consumer : String) (now : Int) :
    (b.deliver consumer now []).undelivered = b.undelivered := by
  funext s
  rw [Streams.undelivered_deliver, List.filter_eq_self]
  simp

/-- What one read does: it takes the head of the backlog, or finds its streams empty. -/
theorem Draining.read {pid : Nat} {consumer : String} {ss : List String} {r : List Message}
    (hn : streams.Nodup) (h : Draining w streams σ)
    (hm : Move (queueSystem w (readersOnly streams)) σ
      (.act pid (.xreadgroup consumer ss 1) r) σ')
    (hi : readIssued consumer streams 1 (own pid σ.log) (.xreadgroup consumer ss 1)) :
    (∃ m, r = [m] ∧ backlog σ.world streams = m :: backlog σ'.world streams ∧
        ∀ s, σ.world.streams.undelivered s = [] → σ'.world.streams.undelivered s = []) ∨
      r = [] ∧ σ'.world.streams.undelivered = σ.world.streams.undelivered ∧
        ∀ s ∈ ss, σ.world.streams.undelivered s = [] := by
  have hprobed : ∀ t, Probed consumer 1 (own pid σ.log) t → σ.world.streams.undelivered t = [] :=
    fun t ht => h.drained pid consumer t (mem_own.1 ht)
  obtain ⟨e, he⟩ : ∃ e, exec 0 (.xreadgroup consumer ss 1) e σ.world = some (σ'.world, r) := by
    cases hm with
    | act _ _ e he => exact ⟨e, he⟩
  simp only [exec, Option.some.injEq, Prod.mk.injEq] at he
  obtain ⟨hw, rfl⟩ := he
  -- nothing is found when all streams asked for are empty
  have hnone : (∀ s ∈ ss, σ.world.streams.undelivered s = []) →
      (σ.world.streams.xreadgroup consumer ss 1 (millis (σ.world.clock + e.elapsed))).2 = [] := by
    intro hempty
    refine List.flatMap_eq_nil_iff.2 fun s hs => ?_
    rw [Streams.ready_eq, hempty s hs, List.take_nil]
  have hquiet : (∀ s ∈ ss, σ.world.streams.undelivered s = []) →
      (σ.world.streams.xreadgroup consumer ss 1 (millis (σ.world.clock + e.elapsed))).2.map
          Message.ofEntry = [] ∧
        σ'.world.streams.undelivered = σ.world.streams.undelivered ∧
        ∀ s ∈ ss, σ.world.streams.undelivered s = [] := by
    intro hempty
    have hes := hnone hempty
    refine ⟨by rw [hes]; rfl, ?_, hempty⟩
    rw [← hw]
    change (σ.world.streams.deliver consumer _ (List.map Entry.id
      (σ.world.streams.xreadgroup consumer ss 1
        (millis (σ.world.clock + e.elapsed))).2)).undelivered = _
    rw [hes]
    exact undelivered_nothing _ _ _
  obtain ⟨-, -, ⟨pre, s, post, rfl, rfl, hpre⟩ | ⟨rfl, hall⟩⟩ := hi
  · cases hs : σ.world.streams.undelivered s with
    | nil =>
      refine .inr (hquiet fun t ht => ?_)
      rw [List.mem_singleton.1 ht, hs]
    | cons en es =>
      have hes : (σ.world.streams.xreadgroup consumer [s] 1 (millis (σ.world.clock + e.elapsed))).2 =
          [en] := by
        change [s].flatMap (fun s => σ.world.streams.ready s 1) = _
        rw [List.flatMap_singleton, Streams.ready_eq, hs]
        rfl
      have hst : σ'.world.streams =
          σ.world.streams.deliver consumer (millis (σ.world.clock + e.elapsed)) [en.id] := by
        rw [← hw]
        change σ.world.streams.deliver consumer _ (List.map Entry.id
          (σ.world.streams.xreadgroup consumer [s] 1 (millis (σ.world.clock + e.elapsed))).2) = _
        rw [hes]
        rfl
      refine .inl ⟨.ofEntry en, by rw [hes]; rfl, ?_, fun t ht => ?_⟩
      · unfold backlog
        rw [hst, backlog_take hn (fun t ht => hprobed t (hpre t ht)) hs, List.map_cons]
      · rw [hst, Streams.undelivered_deliver, ht]
        rfl
  · rw [eraseDups_of_nodup hn] at hquiet ⊢
    exact .inr (hquiet fun t ht => hprobed t (hall t ht))

theorem Draining.move (hn : streams.Nodup) (h : Draining w streams σ)
    (hm : Move (queueSystem w (readersOnly streams)) σ ev σ')
    (hi : Issued (queueSystem w (readersOnly streams)) queueIssues queueReturns σ ev) :
    Draining w streams σ' := by
  cases hm with
  | start pid p =>
    refine ⟨fun q p' hq => ?_, h.order, fun q consumer s hev => ?_⟩
    · rw [proc?_start] at hq
      split at hq
      · cases hq
        obtain ⟨-, hallow | ⟨_, o, _, _, _, hf⟩⟩ := hi
        · cases p with
          | readPriority consumer ss count =>
            change (decide (ss = streams) && decide (count = 1)) = true at hallow
            rw [Bool.and_eq_true, decide_eq_true_eq, decide_eq_true_eq] at hallow
            exact ⟨consumer, by rw [hallow.1, hallow.2]⟩
          | enqueue stream jobId => cases hallow
        · cases hf
      · exact h.procs q p' hq
    · rcases List.mem_cons.1 hev with heq | hev
      · cases heq
      · exact h.drained q consumer s hev
  | @act pid o e w' r he =>
    obtain ⟨-, p, hp, hi⟩ := hi
    obtain ⟨consumer, rfl⟩ := h.procs pid p hp
    cases o with
    | xreadgroup c ss count =>
      obtain ⟨rfl, rfl, hread⟩ := hi
      have hmove := Move.act (S := queueSystem w (readersOnly streams)) (σ := σ) pid
        (.xreadgroup c ss 1) e he
      rcases h.read hn hmove ⟨rfl, rfl, hread⟩ with ⟨m, rfl, hback, hstay⟩ | ⟨rfl, hsame, hempty⟩
      · refine ⟨h.procs, ?_, fun q consumer s hev => ?_⟩
        · rw [h.order, hback]
          simp [firsts]
        · rcases List.mem_cons.1 hev with heq | hev
          · cases heq
          · exact hstay s (h.drained q consumer s hev)
      · refine ⟨h.procs, ?_, fun q consumer s hev => ?_⟩
        · rw [h.order]
          unfold backlog
          rw [← hsame]
          rfl
        · change w'.streams.undelivered s = []
          rw [show w'.streams.undelivered = _ from hsame]
          rcases List.mem_cons.1 hev with heq | hev
          · cases heq
            exact hempty s (List.mem_singleton.2 rfl)
          · exact h.drained q consumer s hev
    | _ => exact hi.elim
  | ret pid a =>
    refine ⟨h.procs, h.order, fun q consumer s hev => ?_⟩
    rcases List.mem_cons.1 hev with heq | hev
    · cases heq
    · exact h.drained q consumer s hev
  | crash pid =>
    refine ⟨h.procs, h.order, fun q consumer s hev => ?_⟩
    rcases List.mem_cons.1 hev with heq | hev
    · cases heq
    · exact h.drained q consumer s hev

theorem backlog_nodup (hn : streams.Nodup) (w : World) :
    ((backlog w streams).map Message.messageId).Nodup := by
  have hmem : ∀ {s : String} {e : Entry (Option Uuid)}, e ∈ w.streams.undelivered s →
      e ∈ w.streams.entries ∧ e.stream = s :=
    fun he => ⟨(Streams.mem_undelivered.1 he).1, (Streams.mem_undelivered.1 he).2.1⟩
  have hent : (streams.flatMap w.streams.undelivered).Nodup := by
    rw [List.nodup_flatMap]
    refine ⟨fun s _ => List.filter_sublist.nodup (List.Nodup.of_map _ w.streams.nodup_ids), ?_⟩
    refine hn.imp fun hst e hs ht => hst ?_
    exact (hmem hs).2.symm.trans (hmem ht).2
  unfold backlog
  rw [List.map_map]
  refine List.Nodup.map_on (fun e he e' he' hid => ?_) hent
  obtain ⟨s, -, hs⟩ := List.mem_flatMap.1 he
  obtain ⟨s', -, hs'⟩ := List.mem_flatMap.1 he'
  exact List.inj_on_of_nodup_map w.streams.nodup_ids (hmem hs).1 (hmem hs').1 hid

theorem takenInOrder {c : QueueCfg} (hn : streams.Nodup)
    (hr : Reachable (queueSystem w (readersOnly streams)) c) : TakenInOrder w streams c := by
  have h : Draining w streams c.shared := by
    refine Run.inv (fun _ _ _ _ _ _ => trivial) (queue_emits w _) ?_
      (fun _ _ _ hI hm _ hi => hI.move hn hm hi) hr
    exact ⟨fun _ _ hp => (nomatch hp), rfl, fun _ _ _ hev => (nomatch hev)⟩
  refine ⟨h.order, ?_, fun pid hret => ?_⟩
  · have hd := backlog_nodup hn w
    rw [h.order, List.map_append] at hd
    exact (List.nodup_append.1 hd).1
  · obtain ⟨l₂, l₁, hl⟩ := List.append_of_mem hret
    have hsuf : .ret pid [] :: l₁ <:+ c.shared.log := ⟨l₂, hl.symm⟩
    obtain ⟨p, hp, hans⟩ := (hr.recorded (fun _ _ _ _ _ _ => trivial) (queue_emits w _)).2
      pid _ l₁ hsuf
    obtain ⟨consumer, rfl⟩ := h.procs pid p hp
    have hrest : backlog c.shared.world streams = [] := by
      unfold backlog
      rw [List.map_eq_nil_iff, List.flatMap_eq_nil_iff]
      intro s hs
      have hev := mem_own.1 (hans.empty rfl s hs)
      exact h.drained pid consumer s (hsuf.subset (List.mem_cons_of_mem _ hev))
    rw [h.order, hrest, List.append_nil]

end Order

/-- Strict priority: of every call among any others and any producers, and, while no
producer writes, of the order in which all calls together are served. -/
theorem strictPriority (w : World) (streams : List String) (hn : streams.Nodup) :
    (∀ (allowed : QueueProc → Bool) (c : QueueCfg) (pid : Nat) (consumer : String) (count : Nat)
      (m : Message) (ms : List Message), Reachable (queueSystem w allowed) c →
      proc? pid c.shared.log = some (.readPriority consumer streams count) →
      .ret pid (m :: ms) ∈ c.shared.log → PriorityKept w allowed c pid streams m) ∧
    ∀ c : QueueCfg, Reachable (queueSystem w (readersOnly streams)) c →
      TakenInOrder w streams c :=
  ⟨fun _ _ _ _ _ _ _ hr hp hret => priorityKept hr hn hret hp, fun _ hr => takenInOrder hn hr⟩

def defaultStreams : List String := ["jobs:high", "jobs:normal", "jobs:low"]

def lowThenHigh : World :=
  { World.init with
    streams := (Streams.empty.xadd "jobs:low" (some 2)).xadd "jobs:high" (some 1) }

def threeReads : List (Choice Env QueueProc) := List.flatten
  [[.start (.readPriority "a" defaultStreams 1), .start (.readPriority "b" defaultStreams 1)],
    List.replicate 1 (.run 0 {}), List.replicate 4 (.run 1 {}), List.replicate 1 (.run 0 {}),
    [.start (.readPriority "c" defaultStreams 1)], List.replicate 5 (.run 2 {})]

/-- The two messages were taken in order, and reader 1 has returned one. -/
def readTwice (c : QueueCfg) : Bool :=
  decide ((firsts c.shared.log).map Message.jobId = [some 1, some 2]) &&
    (c.shared.log.any fun ev => match ev with
      | .ret 1 (_ :: _) => true
      | _ => false) &&
    match proc? 1 c.shared.log with
    | some (.readPriority _ ss _) => decide (ss = defaultStreams)
    | _ => false

theorem strictPriority_threeReads :
    ∃ c m ms, Reachable (queueSystem lowThenHigh (readersOnly defaultStreams)) c ∧
      (firsts c.shared.log).map Message.jobId = [some 1, some 2] ∧
      TakenInOrder lowThenHigh defaultStreams c ∧ .ret 1 (m :: ms) ∈ c.shared.log ∧
      PriorityKept lowThenHigh (readersOnly defaultStreams) c 1 defaultStreams m := by
  obtain ⟨c, hc, hl⟩ := Run.of_replay (S := queueSystem lowThenHigh (readersOnly defaultStreams))
    (fun _ _ _ => trivial : ∀ σ ev, (fun _ _ => true) σ ev = true → (fun _ _ => True) σ ev)
    (show replay _ _ threeReads readTwice = some true by decide +kernel)
  rw [readTwice, Bool.and_eq_true, Bool.and_eq_true, decide_eq_true_eq, List.any_eq_true] at hl
  obtain ⟨⟨hfirsts, ev, hev, hret⟩, hproc⟩ := hl
  obtain ⟨hkept, horder⟩ := strictPriority lowThenHigh defaultStreams (by decide)
  split at hret
  · rename_i m ms
    split at hproc
    · rename_i consumer ss count hp
      rw [of_decide_eq_true hproc] at hp
      exact ⟨c, m, ms, hc, hfirsts, horder c hc, hev,
        hkept _ c 1 consumer count m ms hc hp hev⟩
    · cases hproc
  · cases hret

end JobProcessor
