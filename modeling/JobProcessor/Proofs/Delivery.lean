import JobProcessor.Proofs.Rows

/-! Stream entries: how the state of an entry moves, that an entry is delivered to
one worker once, and that it is given to one task. -/

namespace JobProcessor

open Interleave Prog Store

/-- How an event may leave an entry. -/
inductive Restated : Ev → Entry (Option Uuid) → Delivery → Prop where
  | kept (ev : Ev) (en : Entry (Option Uuid)) : Restated ev en en.state
  | delivered (pid : Nat) (c : String) (ss : List String) (n : Nat) (msgs : List Message)
      (en : Entry (Option Uuid)) (now : Time) : en.state = .undelivered →
      Message.ofEntry en ∈ msgs → Restated (.act pid (.xreadgroup c ss n) msgs) en (.pending c now)
  | reclaimed (pid : Nat) (s : String) (idle : Time) (a n : Nat)
      (reply : Option Nat × List Message) (en : Entry (Option Uuid)) (now : Time) :
      en.isPending = true → Message.ofEntry en ∈ reply.2 →
      Restated (.act pid (.xautoclaim s idle a n) reply) en (.pending reaperName now)
  | acked (pid : Nat) (en : Entry (Option Uuid)) (u : Unit) : en.isPending = true →
      Restated (.act pid (.xack en.stream en.id) u) en .acked

section Steps

variable {app : App} {σ σ' : State} {ev : Ev} {i : Nat} {en : Entry (Option Uuid)}

theorem mem_of_id_mem {b : Streams (Option Uuid)} {es : List (Entry (Option Uuid))}
    (hes : ∀ e ∈ es, e ∈ b.entries) (hf : b.find? i = some en) (hi : i ∈ es.map Entry.id) :
    en ∈ es := by
  obtain ⟨e, he, rfl⟩ := List.mem_map.1 hi
  have := Streams.find?_of_mem (hes e he)
  rw [hf, Option.some.injEq] at this
  exact this ▸ he

theorem move_entry (hm : Move (system app) σ ev σ') (hf : σ.world.streams.find? i = some en) :
    ∃ st, σ'.world.streams.find? i = some { en with state := st } ∧ Restated ev en st := by
  have hid : en.id = i := Streams.find?_id hf
  have hkept : σ'.world.streams = σ.world.streams →
      ∃ st, σ'.world.streams.find? i = some { en with state := st } ∧ Restated ev en st := by
    intro h
    exact ⟨en.state, by rw [h, hf], .kept ev en⟩
  cases ev with
  | act pid o r =>
    cases o with
    | xadd s id =>
      obtain ⟨e, he⟩ := move_exec hm
      simp only [exec, Option.some.injEq, Prod.mk.injEq] at he
      obtain ⟨hw, -⟩ := he
      rw [← hw]
      refine ⟨en.state, ?_, .kept _ en⟩
      change (σ.world.streams.xadd s (some id)).find? i = _
      rw [Streams.find?_xadd, if_neg (Nat.ne_of_lt (Streams.find?_lt hf)), hf]
    | xreadgroup c ss n =>
      obtain ⟨e, he⟩ := move_exec hm
      simp only [exec, Option.some.injEq, Prod.mk.injEq] at he
      obtain ⟨hw, rfl⟩ := he
      rw [← hw]
      set es := ss.flatMap fun s => σ.world.streams.ready s n with hes
      have hmem : ∀ e ∈ es, e ∈ σ.world.streams.entries ∧ e.state = .undelivered := by
        intro e he
        obtain ⟨s, -, hr⟩ := List.mem_flatMap.1 he
        exact ⟨(Streams.mem_ready hr).1, (Streams.mem_ready hr).2.2⟩
      have hnew : (σ.world.streams.deliver c (millis (σ.world.clock + e.elapsed))
          (es.map Entry.id)).find? i = _ := Streams.find?_deliver c _ _
      rw [hf, Option.map_some] at hnew
      refine ⟨_, hnew, ?_⟩
      by_cases hi : i ∈ es.map Entry.id
      · have hen := mem_of_id_mem (fun e he => (hmem e he).1) hf hi
        rw [if_pos hi]
        exact .delivered pid c ss n _ en _ (hmem en hen).2 (List.mem_map.2 ⟨en, hen, rfl⟩)
      · rw [if_neg hi]
        exact .kept _ en
    | xautoclaim s idle a n =>
      obtain ⟨e, he⟩ := move_exec hm
      simp only [exec, Option.some.injEq, Prod.mk.injEq] at he
      obtain ⟨hw, rfl⟩ := he
      rw [← hw]
      set got := (σ.world.streams.xautoclaim s reaperName idle a n
        (millis (σ.world.clock + e.elapsed))).2.2 with hgot
      have hmem : ∀ e ∈ got, e ∈ σ.world.streams.entries ∧ e.isPending = true := by
        intro e he
        exact ⟨(Streams.mem_xautoclaim he).1, (Streams.mem_xautoclaim he).2.2⟩
      have hnew : (σ.world.streams.deliver reaperName (millis (σ.world.clock + e.elapsed))
          (got.map Entry.id)).find? i = _ := Streams.find?_deliver _ _ _
      rw [hf, Option.map_some] at hnew
      refine ⟨_, hnew, ?_⟩
      by_cases hi : i ∈ got.map Entry.id
      · have hen := mem_of_id_mem (fun e he => (hmem e he).1) hf hi
        rw [if_pos hi]
        exact .reclaimed pid s idle a n _ en _ (hmem en hen).2 (List.mem_map.2 ⟨en, hen, rfl⟩)
      · rw [if_neg hi]
        exact .kept _ en
    | xack s k =>
      obtain ⟨e, he⟩ := move_exec hm
      simp only [exec, Option.some.injEq, Prod.mk.injEq] at he
      obtain ⟨hw, -⟩ := he
      rw [← hw]
      have hnew : (σ.world.streams.xack s k).find? i = _ := Streams.find?_xack s k
      rw [hf, Option.map_some] at hnew
      by_cases hk : en.isPending = true ∧ en.stream = s ∧ i = k
      · rw [if_pos hk] at hnew
        obtain ⟨hp, rfl, rfl⟩ := hk
        refine ⟨.acked, hnew, ?_⟩
        rw [← hid]
        exact .acked pid en _ hp
      · rw [if_neg hk] at hnew
        exact ⟨en.state, hnew, .kept _ en⟩
    | _ => exact hkept (move_streams hm (by simp) (by simp) (by simp) (by simp))
  | _ =>
    cases hm
    exact hkept rfl

theorem move_entry_none (hm : Move (system app) σ ev σ') (hf : σ.world.streams.find? i = none) :
    σ'.world.streams.find? i = none ∨ ∃ pid s id u, ev = .act pid (.xadd s id) u ∧
      σ'.world.streams.find? i = some ⟨i, s, some id, .undelivered⟩ := by
  have hkept : σ'.world.streams = σ.world.streams → σ'.world.streams.find? i = none := by
    intro h
    rw [h, hf]
  cases ev with
  | act pid o r =>
    cases o with
    | xadd s id =>
      obtain ⟨e, he⟩ := move_exec hm
      simp only [exec, Option.some.injEq, Prod.mk.injEq] at he
      obtain ⟨hw, -⟩ := he
      have hnew : (σ.world.streams.xadd s (some id)).find? i = _ := Streams.find?_xadd s (some id)
      rw [← hw]
      by_cases hi : i = σ.world.streams.next
      · rw [if_pos hi, ← hi] at hnew
        exact .inr ⟨pid, s, id, r, rfl, hnew⟩
      · rw [if_neg hi, hf] at hnew
        exact .inl hnew
    | xreadgroup c ss n =>
      obtain ⟨e, he⟩ := move_exec hm
      simp only [exec, Option.some.injEq, Prod.mk.injEq] at he
      obtain ⟨hw, -⟩ := he
      rw [← hw]
      refine .inl ((Streams.find?_deliver c _ _).trans ?_)
      rw [hf]
      rfl
    | xautoclaim s idle a n =>
      obtain ⟨e, he⟩ := move_exec hm
      simp only [exec, Option.some.injEq, Prod.mk.injEq] at he
      obtain ⟨hw, -⟩ := he
      rw [← hw]
      refine .inl ((Streams.find?_deliver _ _ _).trans ?_)
      rw [hf]
      rfl
    | xack s k =>
      obtain ⟨e, he⟩ := move_exec hm
      simp only [exec, Option.some.injEq, Prod.mk.injEq] at he
      obtain ⟨hw, -⟩ := he
      rw [← hw]
      refine .inl ((Streams.find?_xack s k).trans ?_)
      rw [hf]
      rfl
    | _ => exact .inl (hkept (move_streams hm (by simp) (by simp) (by simp) (by simp)))
  | _ =>
    cases hm
    exact .inl (hkept rfl)

/-- The messages of a read were undelivered entries, and are pending now. -/
theorem move_read {pid : Nat} {c : String} {ss : List String} {n : Nat} {msgs : List Message}
    {m : Message} (hm : Move (system app) σ (.act pid (.xreadgroup c ss n) msgs) σ')
    (hmem : m ∈ msgs) :
    ∃ en now, σ.world.streams.find? m.messageId = some en ∧ Message.ofEntry en = m ∧
      en.stream ∈ ss ∧ en.state = .undelivered ∧
      σ'.world.streams.find? m.messageId = some { en with state := .pending c now } := by
  obtain ⟨e, he⟩ := move_exec hm
  simp only [exec, Option.some.injEq, Prod.mk.injEq] at he
  obtain ⟨hw, rfl⟩ := he
  obtain ⟨en, hen, rfl⟩ := List.mem_map.1 hmem
  obtain ⟨s, hs, hr⟩ := List.mem_flatMap.1 hen
  obtain ⟨hin, hstream, hst⟩ := Streams.mem_ready hr
  have hf : σ.world.streams.find? en.id = some en := Streams.find?_of_mem hin
  refine ⟨en, millis (σ.world.clock + e.elapsed), hf, rfl, hstream ▸ hs, hst, ?_⟩
  rw [← hw]
  refine (Streams.find?_deliver c _ _).trans ?_
  change Option.map _ (σ.world.streams.find? en.id) = _
  rw [hf, Option.map_some]
  exact congrArg some (congrArg _ (if_pos (List.mem_map.2 ⟨en, hen, rfl⟩)))

theorem move_reclaim {pid : Nat} {s : String} {idle : Time} {a n : Nat}
    {reply : Option Nat × List Message} {m : Message}
    (hm : Move (system app) σ (.act pid (.xautoclaim s idle a n) reply) σ') (hmem : m ∈ reply.2) :
    ∃ en now, σ.world.streams.find? m.messageId = some en ∧ Message.ofEntry en = m ∧
      en.isPending = true ∧
      σ'.world.streams.find? m.messageId = some { en with state := .pending reaperName now } := by
  obtain ⟨e, he⟩ := move_exec hm
  simp only [exec, Option.some.injEq, Prod.mk.injEq] at he
  obtain ⟨hw, rfl⟩ := he
  obtain ⟨en, hen, rfl⟩ := List.mem_map.1 hmem
  obtain ⟨hin, -, hp⟩ := Streams.mem_xautoclaim hen
  have hf : σ.world.streams.find? en.id = some en := Streams.find?_of_mem hin
  refine ⟨en, millis (σ.world.clock + e.elapsed), hf, rfl, hp, ?_⟩
  rw [← hw]
  refine (Streams.find?_deliver reaperName _ _).trans ?_
  change Option.map _ (σ.world.streams.find? en.id) = _
  rw [hf, Option.map_some]
  exact congrArg some (congrArg _ (if_pos (List.mem_map.2 ⟨en, hen, rfl⟩)))

def Taken (σ : State) (m : Message) : Prop :=
  ∃ en, σ.world.streams.find? m.messageId = some en ∧ Message.ofEntry en = m ∧
    en.state ≠ .undelivered

theorem Taken.move {m : Message} (h : Taken σ m) (hm : Move (system app) σ ev σ') :
    Taken σ' m := by
  obtain ⟨en, hf, hen, hst⟩ := h
  obtain ⟨st, hf', hre⟩ := move_entry hm hf
  refine ⟨_, hf', hen, ?_⟩
  cases hre with
  | kept => exact hst
  | _ => simp

end Steps

/-! ### One task for each entry -/

def taskEntries : List Ev → List Nat
  | [] => []
  | .act _ (.createTask (.runOne _ m)) _ :: l => m.messageId :: taskEntries l
  | _ :: l => taskEntries l

structure OneTask (σ : State) : Prop where
  read : ∀ pid c ss n msgs, .act pid (.xreadgroup c ss n) msgs ∈ σ.log → ∀ m ∈ msgs, Taken σ m
  tasked : ∀ i ∈ taskEntries σ.log, ∃ en, σ.world.streams.find? i = some en ∧
    en.state ≠ .undelivered
  waiting : ∀ pid c ss n msgs g, own pid σ.log = ⟨.xreadgroup c ss n, msgs⟩ :: g →
    ∀ m ∈ msgs, m.messageId ∉ taskEntries σ.log
  apart : ∀ pid c ss n msgs g pid' c' ss' n' msgs' g', pid ≠ pid' →
    own pid σ.log = ⟨.xreadgroup c ss n, msgs⟩ :: g →
    own pid' σ.log = ⟨.xreadgroup c' ss' n', msgs'⟩ :: g' →
    ∀ m ∈ msgs, ∀ m' ∈ msgs', m.messageId ≠ m'.messageId
  once : (taskEntries σ.log).Nodup

section OneTask

variable {app : App} {σ σ' : State} {ev : Ev}

theorem taskEntries_cons (ev : Ev) (l : List Ev) :
    taskEntries (ev :: l) = taskEntries l ∨
      ∃ q c m r, ev = .act q (.createTask (.runOne c m)) r ∧
        taskEntries (ev :: l) = m.messageId :: taskEntries l := by
  cases ev with
  | act q o r =>
    cases o with
    | createTask p =>
      cases p with
      | runOne c m => exact .inr ⟨q, c, m, r, rfl, rfl⟩
      | _ => exact .inl rfl
    | _ => exact .inl rfl
  | _ => exact .inl rfl

theorem own_head {pid : Nat} {x : Reply Op Op.Res} {g : Hist} {l : List Ev}
    (h : own pid (ev :: l) = x :: g) :
    ev = .act pid x.1 x.2 ∨ ev.pid ≠ pid ∧ own pid l = x :: g ∨
      own pid l = x :: g ∧ ∀ o r, ev ≠ .act pid o r := by
  cases ev with
  | act q o r =>
    rw [own_act] at h
    by_cases hq : q = pid
    · rw [if_pos hq, List.cons.injEq] at h
      left
      rw [← h.1, hq]
    · rw [if_neg hq] at h
      exact .inr (.inl ⟨hq, h⟩)
  | _ => exact .inr (.inr ⟨h, by simp⟩)

theorem OneTask.created {q : Nat} {c : String} {m : Message} {r : Unit} (h : OneTask σ)
    (ht : Told app σ (.act q (.createTask (.runOne c m)) r)) :
    Taken σ m ∧ ∃ c ss n ms g, own q σ.log = ⟨.xreadgroup c ss n, m :: ms⟩ :: g := by
  obtain ⟨-, p, -, hi⟩ := ht
  obtain ⟨consumer, m', ms, c', ss, n, g, he, hh⟩ := issues_createTask hi
  cases he
  refine ⟨?_, c', ss, n, ms, g, hh⟩
  have hev : .act q (.xreadgroup c' ss n) (m :: ms) ∈ σ.log := by
    rw [← mem_own, hh]
    exact List.mem_cons_self
  exact h.read q c' ss n _ hev m List.mem_cons_self

/-- A message read now has an entry no earlier event has touched. -/
theorem OneTask.fresh {pid : Nat} {c : String} {ss : List String} {n : Nat} {msgs : List Message}
    {m : Message} (h : OneTask σ) (hm : Move (system app) σ (.act pid (.xreadgroup c ss n) msgs) σ')
    (hmem : m ∈ msgs) :
    m.messageId ∉ taskEntries σ.log ∧ ∀ m', Taken σ m' → m.messageId ≠ m'.messageId := by
  obtain ⟨en, now, hf, -, -, hst, -⟩ := move_read hm hmem
  constructor
  · intro hi
    obtain ⟨en', hf', hst'⟩ := h.tasked _ hi
    rw [hf, Option.some.injEq] at hf'
    exact hst' (hf' ▸ hst)
  · rintro m' ⟨en', hf', -, hst'⟩ heq
    rw [← heq, hf, Option.some.injEq] at hf'
    exact hst' (hf' ▸ hst)

theorem OneTask.taken {pid : Nat} {c : String} {ss : List String} {n : Nat} {msgs : List Message}
    {g : Hist} {m : Message} (h : OneTask σ)
    (ho : own pid σ.log = ⟨.xreadgroup c ss n, msgs⟩ :: g) (hmem : m ∈ msgs) : Taken σ m := by
  refine h.read pid c ss n msgs ?_ m hmem
  rw [← mem_own, ho]
  exact List.mem_cons_self

theorem OneTask.move_read (h : OneTask σ) (hm : Move (system app) σ ev σ') {pid : Nat}
    {c : String} {ss : List String} {n : Nat} {msgs : List Message}
    (hev : .act pid (.xreadgroup c ss n) msgs ∈ σ'.log) {m : Message} (hmem : m ∈ msgs) :
    Taken σ' m := by
  rw [move_log hm] at hev
  rcases List.mem_cons.1 hev with rfl | hev
  · obtain ⟨en, now, -, hen, -, -, hf'⟩ := JobProcessor.move_read hm hmem
    exact ⟨_, hf', hen, by simp⟩
  · exact (h.read pid c ss n msgs hev m hmem).move hm

theorem OneTask.move_tasked (h : OneTask σ) (hm : Move (system app) σ ev σ') (ht : Told app σ ev)
    {i : Nat} (hi : i ∈ taskEntries σ'.log) :
    ∃ en, σ'.world.streams.find? i = some en ∧ en.state ≠ .undelivered := by
  rw [move_log hm] at hi
  have hold : i ∈ taskEntries σ.log → ∃ en, σ'.world.streams.find? i = some en ∧
      en.state ≠ .undelivered := by
    intro hi
    obtain ⟨en, hf, hst⟩ := h.tasked i hi
    obtain ⟨st, hf', hre⟩ := move_entry hm hf
    refine ⟨_, hf', ?_⟩
    cases hre with
    | kept => exact hst
    | _ => simp
  rcases taskEntries_cons ev σ.log with he | ⟨q, c, m, r, rfl, he⟩
  · exact hold (he ▸ hi)
  · rw [he] at hi
    rcases List.mem_cons.1 hi with rfl | hi
    · obtain ⟨en, hf, -, hst⟩ := (h.created ht).1.move hm
      exact ⟨en, hf, hst⟩
    · exact hold hi

theorem OneTask.move_waiting (h : OneTask σ) (hm : Move (system app) σ ev σ') (ht : Told app σ ev)
    {pid : Nat} {c : String} {ss : List String} {n : Nat} {msgs : List Message} {g : Hist}
    (ho : own pid σ'.log = ⟨.xreadgroup c ss n, msgs⟩ :: g) {m : Message} (hmem : m ∈ msgs) :
    m.messageId ∉ taskEntries σ'.log := by
  rw [move_log hm] at ho ⊢
  have hold : own pid σ.log = ⟨.xreadgroup c ss n, msgs⟩ :: g →
      (∀ o r, ev ≠ .act pid o r) → m.messageId ∉ taskEntries (ev :: σ.log) := by
    intro hown hne hi
    rcases taskEntries_cons ev σ.log with he | ⟨q, c', m', r, rfl, he⟩
    · exact h.waiting pid c ss n msgs g hown m hmem (he ▸ hi)
    · rw [he] at hi
      rcases List.mem_cons.1 hi with heq | hi
      · -- a task is created by the loop that read its message, and no other holds it
        obtain ⟨-, c₁, ss₁, n₁, ms₁, g₁, hq⟩ := h.created ht
        have hpq : pid ≠ q := by
          rintro rfl
          exact hne _ _ rfl
        exact h.apart pid c ss n msgs g q c₁ ss₁ n₁ _ g₁ hpq hown hq m hmem m'
          List.mem_cons_self heq
      · exact h.waiting pid c ss n msgs g hown m hmem hi
  rcases own_head ho with rfl | ⟨hne, ho⟩ | ⟨ho, hne⟩
  · exact (h.fresh hm hmem).1
  · exact hold ho fun o r hev => hne (by rw [hev]; rfl)
  · exact hold ho hne

theorem OneTask.move_apart (h : OneTask σ) (hm : Move (system app) σ ev σ') {pid pid' : Nat}
    {c c' : String} {ss ss' : List String} {n n' : Nat} {msgs msgs' : List Message} {g g' : Hist}
    (hpp : pid ≠ pid') (ho : own pid σ'.log = ⟨.xreadgroup c ss n, msgs⟩ :: g)
    (ho' : own pid' σ'.log = ⟨.xreadgroup c' ss' n', msgs'⟩ :: g') {m m' : Message}
    (hmem : m ∈ msgs) (hmem' : m' ∈ msgs') : m.messageId ≠ m'.messageId := by
  rw [move_log hm] at ho ho'
  -- at most one of the two reads is the event itself
  have hbefore : ∀ {q : Nat} {x : Reply Op Op.Res} {g : Hist}, own q (ev :: σ.log) = x :: g →
      ev = .act q x.1 x.2 ∨ own q σ.log = x :: g := by
    intro q x g hq
    rcases own_head hq with he | ⟨-, hq⟩ | ⟨hq, -⟩
    · exact .inl he
    · exact .inr hq
    · exact .inr hq
  rcases hbefore ho with rfl | hold
  · rcases hbefore ho' with he' | hold'
    · cases he'
      exact absurd rfl hpp
    · exact (h.fresh hm hmem).2 m' (h.taken hold' hmem')
  · rcases hbefore ho' with rfl | hold'
    · exact ((h.fresh hm hmem').2 m (h.taken hold hmem)).symm
    · exact h.apart _ _ _ _ _ _ _ _ _ _ _ _ hpp hold hold' m hmem m' hmem'

theorem OneTask.move_once (h : OneTask σ) (hm : Move (system app) σ ev σ') (ht : Told app σ ev) :
    (taskEntries σ'.log).Nodup := by
  rw [move_log hm]
  rcases taskEntries_cons ev σ.log with he | ⟨q, c, m, r, rfl, he⟩
  · rw [he]
    exact h.once
  · rw [he, List.nodup_cons]
    obtain ⟨-, c₁, ss₁, n₁, ms₁, g₁, hq⟩ := h.created ht
    exact ⟨h.waiting q c₁ ss₁ n₁ _ g₁ hq m List.mem_cons_self, h.once⟩

theorem OneTask.move (h : OneTask σ) (hm : Move (system app) σ ev σ') (ht : Told app σ ev) :
    OneTask σ' where
  read _ _ _ _ _ hev _ hmem := h.move_read hm hev hmem
  tasked _ hi := h.move_tasked hm ht hi
  waiting _ _ _ _ _ _ ho _ hmem := h.move_waiting hm ht ho hmem
  apart _ _ _ _ _ _ _ _ _ _ _ _ hpp ho ho' _ hmem _ hmem' := h.move_apart hm hpp ho ho' hmem hmem'
  once := h.move_once hm ht

theorem oneTask {ok : State → Ev → Prop} {c : Cfg} (hr : Run (system app) ok c) :
    OneTask c.shared := by
  refine run_inv ?_ ?_ hr
  · refine ⟨?_, ?_, ?_, ?_, List.nodup_nil⟩
    · exact fun _ _ _ _ _ h => (by cases h)
    · exact fun _ h => (by cases h)
    · exact fun _ _ _ _ _ _ h => (by cases h)
    · exact fun _ _ _ _ _ _ _ _ _ _ _ _ _ h => (by cases h)
  · intro σ ev σ' hI hm _ ht
    exact hI.move hm ht

end OneTask

/-! ### One process for each entry -/

def taskEntry (l : List Ev) (pid : Nat) : Option Nat :=
  match proc? pid l with
  | some (.runOne _ m) => some m.messageId
  | _ => none

section TaskProcs

variable {app : App} {σ σ' : State} {ev : Ev}

theorem taskEntry_stays {pid i : Nat} (ht : Told app σ ev) (h : taskEntry σ.log pid = some i) :
    taskEntry (ev :: σ.log) pid = some i := by
  unfold taskEntry at h ⊢
  cases hp : proc? pid σ.log with
  | none =>
    rw [hp] at h
    cases h
  | some p =>
    rw [proc?_stays ht hp]
    rw [hp] at h
    exact h

theorem taskEntry_before {q i : Nat} (h : taskEntry (ev :: σ.log) q = some i) :
    taskEntry σ.log q = some i ∨ ∃ c m, ev = .start q (.runOne c m) ∧ m.messageId = i := by
  unfold taskEntry at h ⊢
  cases hp : proc? q (ev :: σ.log) with
  | none =>
    rw [hp] at h
    cases h
  | some p =>
    rw [hp] at h
    rcases proc_before hp with hp' | he
    · rw [hp']
      exact .inl h
    · cases p with
      | runOne c m => exact .inr ⟨c, m, he, by simpa using h⟩
      | _ => cases h

theorem taskEntry_eq {l : List Ev} {pid i : Nat} (h : taskEntry l pid = some i) :
    ∃ c m, proc? pid l = some (.runOne c m) ∧ m.messageId = i := by
  unfold taskEntry at h
  split at h
  · rename_i c m hp
    exact ⟨c, m, hp, by simpa using h⟩
  · cases h

theorem taskEntry_of_proc {l : List Ev} {pid : Nat} {c : String} {m : Message}
    (hp : proc? pid l = some (.runOne c m)) : taskEntry l pid = some m.messageId := by
  rw [taskEntry, hp]

theorem created_of_start {q : Nat} {c : String} {m : Message}
    (ht : Told app σ (.start q (.runOne c m))) :
    ∃ q' r l, σ.log = .act q' (.createTask (.runOne c m)) r :: l := by
  rcases ht.2 with ha | ⟨q', o, r, l, hlog, hf⟩
  · cases ha
  · cases o <;> simp only [system, forks, reduceCtorEq, Option.some.injEq] at hf
    subst hf
    exact ⟨q', r, l, hlog⟩

structure TaskProcs (σ : State) : Prop where
  one : OneTask σ
  created : ∀ q c m r, .act q (.createTask (.runOne c m)) r ∈ σ.log → Taken σ m
  begun : ∀ q c m, proc? q σ.log = some (.runOne c m) →
    m.messageId ∈ taskEntries σ.log.tail ∧ Taken σ m
  once : ∀ q q' i, taskEntry σ.log q = some i → taskEntry σ.log q' = some i → q = q'

theorem mem_taskEntries_of_tail {i : Nat} {l : List Ev} (h : i ∈ taskEntries l.tail) :
    i ∈ taskEntries l := by
  cases l with
  | nil => exact h
  | cons ev l =>
    rcases taskEntries_cons ev l with he | ⟨_, _, _, _, _, he⟩
    · rw [he]
      exact h
    · rw [he]
      exact List.mem_cons_of_mem _ h

theorem TaskProcs.move (h : TaskProcs σ) (hm : Move (system app) σ ev σ') (ht : Told app σ ev) :
    TaskProcs σ' where
  one := h.one.move hm ht
  created q c m r hev := by
    rw [move_log hm] at hev
    rcases List.mem_cons.1 hev with rfl | hev
    · exact (h.one.created ht).1.move hm
    · exact (h.created q c m r hev).move hm
  begun q c m hp := by
    rw [move_log hm] at hp ⊢
    rcases proc_before hp with hp' | rfl
    · obtain ⟨hmem, htaken⟩ := h.begun q c m hp'
      exact ⟨mem_taskEntries_of_tail hmem, htaken.move hm⟩
    · obtain ⟨q', r, l, hlog⟩ := created_of_start ht
      refine ⟨?_, (h.created q' c m r (by rw [hlog]; exact List.mem_cons_self)).move hm⟩
      change m.messageId ∈ taskEntries σ.log
      rw [hlog]
      exact List.mem_cons_self
  once q q' i hq hq' := by
    rw [move_log hm] at hq hq'
    -- the entry of a task that starts now belongs to no other process
    have hnew : ∀ {q q' c m}, ev = .start q (.runOne c m) →
        taskEntry σ.log q' ≠ some m.messageId := by
      rintro q q' c m rfl hq'
      obtain ⟨c', m', hp', hid⟩ := taskEntry_eq hq'
      obtain ⟨q'', r, l, hlog⟩ := created_of_start ht
      have hmem := (h.begun q' c' m' hp').1
      have hnd := h.one.once
      rw [hlog] at hmem hnd
      rw [hid] at hmem
      exact (List.nodup_cons.1 hnd).1 hmem
    rcases taskEntry_before hq with hq₁ | ⟨c, m, he, rfl⟩ <;>
      rcases taskEntry_before hq' with hq₂ | ⟨c', m', he', hid⟩
    · exact h.once q q' i hq₁ hq₂
    · exact absurd (hid ▸ hq₁) (hnew he')
    · exact absurd hq₂ (hnew he)
    · rw [he] at he'
      cases he'
      rfl

end TaskProcs

end JobProcessor
