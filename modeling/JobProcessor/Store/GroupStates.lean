import JobProcessor.Store.Groups
import JobProcessor.Store.PendingList

/-! Every command on streams with groups does to the delivery states what the command
of `Broker` does, as long as the groups are there; and what it does to the instants at
which the consumers were last seen. -/

namespace Store

/-! ### What a change of states does -/

namespace Streams

variable {F : Type} {b b' : Streams F}

theorem ext_entries (he : b.entries = b'.entries) (hn : b.next = b'.next) : b = b' := by
  cases b
  cases b'
  cases he
  cases hn
  rfl

theorem restate_congr {f f' : Entry F → Delivery} (h : ∀ e ∈ b.entries, f e = f' e) :
    b.restate f = b.restate f' := by
  refine ext_entries (List.map_congr_left fun e he => ?_) rfl
  rw [h e he]

theorem restate_self {f : Entry F → Delivery} (h : ∀ e ∈ b.entries, f e = e.state) :
    b.restate f = b := by
  refine ext_entries ?_ rfl
  change b.entries.map _ = _
  rw [List.map_congr_left fun e he => by rw [h e he], List.map_id']

theorem deliver_deliver (consumer : String) (now : Int) (is js : List Nat) :
    (b.deliver consumer now is).deliver consumer now js = b.deliver consumer now (is ++ js) := by
  refine ext_entries ?_ rfl
  change (b.entries.map _).map _ = b.entries.map _
  rw [List.map_map]
  apply List.map_congr_left
  intro e _
  by_cases hi : e.id ∈ is <;> by_cases hj : e.id ∈ js <;> simp [hi, hj]

end Streams

namespace Group

variable {g : Group} {consumer : String} {now : Int} {i j : Nat}

theorem find?_of_le (h : g.upTo ≤ i) : (g.pel.find? fun p => p.id = i) = none := by
  rw [List.find?_eq_none]
  intro p hp
  have := g.bound p hp
  simp only [decide_eq_true_eq]
  omega

theorem state_eq_undelivered : g.state i = .undelivered ↔ g.upTo ≤ i := by
  unfold state
  constructor
  · intro h
    split at h
    · cases h
    · split at h
      · cases h
      · omega
  · intro h
    rw [find?_of_le h]
    simp only
    rw [if_neg (by omega)]

theorem state_give (h : g.upTo ≤ i) :
    (g.give consumer now i).state j = if j = i then .pending consumer now
      else if g.upTo ≤ j ∧ j < i then .acked else g.state j := by
  have hpel : ((g.give consumer now i).pel.find? fun p => p.id = j) =
      ((g.pel.find? fun p => p.id = j) <|> if i = j then some ⟨i, consumer, now⟩ else none) := by
    unfold give
    rw [dif_pos h, List.find?_append]
    by_cases hij : i = j <;> simp [hij]
  have hup : (g.give consumer now i).upTo = i + 1 := by
    unfold give
    rw [dif_pos h]
  unfold state
  rw [hpel, hup]
  by_cases hij : i = j
  · subst hij
    rw [find?_of_le h]
    simp
  · have hji : ¬ j = i := fun he => hij he.symm
    rw [if_neg hij, if_neg hji]
    cases hf : g.pel.find? fun p => p.id = j with
    | some p =>
      have hp := g.bound p (List.mem_of_find?_eq_some hf)
      have hid : p.id = j := by simpa using List.find?_some hf
      have hskip : ¬ (g.upTo ≤ j ∧ j < i) := by omega
      rw [if_neg hskip]
      rfl
    | none =>
      change (if j < i + 1 then Delivery.acked else .undelivered) =
        if g.upTo ≤ j ∧ j < i then .acked else if j < g.upTo then .acked else .undelivered
      split_ifs <;> first | rfl | omega

/-- Giving the first records a group is behind changes their states only. -/
theorem state_giveAll {is : List Nat} (hs : is.Pairwise (· < ·)) (hle : ∀ i ∈ is, g.upTo ≤ i)
    (hj : j ∈ is ∨ j < g.upTo ∨ ∀ i ∈ is, i < j) :
    (giveAll consumer now is g).state j =
      if j ∈ is then .pending consumer now else g.state j := by
  induction is generalizing g with
  | nil => simp [giveAll]
  | cons i is ih =>
    rw [List.pairwise_cons] at hs
    have hi := hle i List.mem_cons_self
    have hup : (g.give consumer now i).upTo = i + 1 := by
      unfold give
      rw [dif_pos hi]
    rw [giveAll, ih hs.2 (fun k hk => hup ▸ hs.1 k hk), state_give hi]
    · by_cases hmem : j ∈ is
      · simp [hmem]
      · by_cases hji : j = i
        · simp [hji]
        · have hskip : ¬ (g.upTo ≤ j ∧ j < i) := by
            rintro ⟨h1, h2⟩
            rcases hj with hj | hj | hj
            · rcases List.mem_cons.1 hj with hj | hj
              · exact hji hj
              · exact hmem hj
            · omega
            · have := hj i List.mem_cons_self
              omega
          simp [hmem, hji, hskip]
    · rw [hup]
      rcases hj with hj | hj | hj
      · rcases List.mem_cons.1 hj with hj | hj
        · exact .inr (.inl (by omega))
        · exact .inl hj
      · exact .inr (.inl (by omega))
      · exact .inr (.inr fun k hk => hj k (List.mem_cons_of_mem _ hk))

theorem state_ack :
    (g.ack i).state j =
      match g.state j with
      | .pending c t => if j = i then .acked else .pending c t
      | s => s := by
  have hpel : ((g.ack i).pel.find? fun p => p.id = j) =
      if j = i then none else g.pel.find? fun p => p.id = j := by
    change (g.pel.filter _).find? _ = _
    rw [List.find?_filter]
    split
    · rename_i hji
      rw [List.find?_eq_none]
      intro p _
      simp only [decide_eq_true_eq, ne_eq]
      rintro ⟨h1, h2⟩
      exact h1 (h2.trans hji)
    · rename_i hji
      congr 1
      funext p
      by_cases hp : p.id = j <;> simp [hp, hji]
  unfold state
  rw [hpel, show (g.ack i).upTo = g.upTo from rfl]
  cases hf : g.pel.find? fun p => p.id = j with
  | none =>
    have hnone : (if j = i then (none : Option Pending) else none) = none := by split <;> rfl
    rw [hnone]
    dsimp only
    split <;> rfl
  | some p =>
    have hp := g.bound p (List.mem_of_find?_eq_some hf)
    have hid : p.id = j := by simpa using List.find?_some hf
    dsimp only
    by_cases hji : j = i
    · rw [if_pos hji, if_pos hji]
      dsimp only
      rw [if_pos (by omega)]
    · rw [if_neg hji, if_neg hji]

theorem state_claim {ids : List Nat} (hids : ∀ i ∈ ids, ∃ p ∈ g.pel, p.id = i) :
    (g.claim consumer now ids).state j =
      if j ∈ ids then .pending consumer now else g.state j := by
  have hfind : ((g.claim consumer now ids).pel.find? fun p => p.id = j) =
      (g.pel.find? fun p => p.id = j).map fun p =>
        if p.id ∈ ids then ⟨p.id, consumer, now⟩ else p := by
    change (g.pel.map _).find? _ = _
    rw [List.find?_map]
    congr 2
    funext p
    simp only [Function.comp_apply]
    split <;> rfl
  unfold state
  rw [hfind, show (g.claim consumer now ids).upTo = g.upTo from rfl]
  cases hf : g.pel.find? fun p => p.id = j with
  | none =>
    have hj : j ∉ ids := by
      intro hj
      obtain ⟨p, hp, hid⟩ := hids j hj
      simpa [hid] using List.find?_eq_none.1 hf p hp
    rw [if_neg hj]
    rfl
  | some p =>
    have hid : p.id = j := by simpa using List.find?_some hf
    rw [Option.map_some, hid]
    dsimp only
    split <;> rfl

end Group

/-! ### Every command, seen through the states -/

namespace Log

variable {F : Type} {l : Log F} {g : Group} {s consumer : String} {now minIdle : Int}
  {i start count : Nat}

theorem state_of_group {r : Record F} (h : l.groups r.stream = some g) :
    l.state r = g.state r.id := by
  unfold state
  rw [h]

theorem state_record {e : Entry F} (h : l.groups s = some g) (hs : e.stream = s) :
    l.state e.record = g.state e.id :=
  state_of_group (r := e.record) (hs ▸ h : l.groups e.stream = some g)

theorem mem_view {e : Entry F} :
    e ∈ l.view.entries ↔ e.record ∈ l.records ∧ e.state = l.state e.record := by
  constructor
  · intro he
    obtain ⟨r, hr, rfl⟩ := List.mem_map.1 he
    exact ⟨hr, rfl⟩
  · rintro ⟨hr, hs⟩
    exact List.mem_map.2 ⟨e.record, hr, by rw [← hs]; rfl⟩

theorem view_setGroup (hg : g.upTo ≤ l.next)
    (hp : ∀ p ∈ g.pel, ∃ r ∈ l.records, r.stream = s ∧ r.id = p.id) :
    (l.setGroup s g hg hp).view =
      l.view.restate fun e => if e.stream = s then g.state e.id else e.state := by
  refine Streams.ext_entries ?_ rfl
  change l.records.map _ = (l.records.map _).map _
  rw [List.map_map]
  apply List.map_congr_left
  intro r _
  simp only [Function.comp_apply, Entry.mk.injEq, true_and]
  split
  · rename_i hs
    exact state_of_group (by simp [setGroup, hs])
  · rename_i hs
    simp [state, setGroup, Function.update_of_ne hs]

theorem isSome_update {groups : String → Option Group} {t : String}
    (ht : (groups t).isSome = true) : (Function.update groups s (some g) t).isSome = true := by
  rw [Function.update_apply]
  split
  · rfl
  · exact ht

/-- A group created at the end of a stream has nothing to say about an empty one. -/
theorem view_xgroupCreate {l' : Log F} (h : l.xgroupCreate s = some l')
    (hno : ∀ r ∈ l.records, r.stream ≠ s) : l'.view = l.view := by
  unfold xgroupCreate at h
  split at h
  · cases h
  · rw [Option.some.injEq] at h
    rw [← h]
    refine (view_setGroup _ _).trans (Streams.restate_self ?_)
    intro e he
    exact if_neg (hno _ (mem_view.1 he).1)

theorem view_xadd (s : String) (f : F) : (l.xadd s f).view = l.view.xadd s f := by
  refine Streams.ext_entries ?_ rfl
  change (l.records ++ [_]).map _ = l.records.map _ ++ [_]
  rw [List.map_append, List.map_singleton]
  congr 3
  unfold state xadd
  simp only
  split
  · rfl
  · rename_i g hg
    exact Group.state_eq_undelivered.2 (l.reached s g hg)

theorem view_xack (s : String) (i : Nat) : (l.xack s i).view = l.view.xack s i := by
  unfold xack
  split
  · rename_i h
    refine (Streams.restate_self ?_).symm
    intro e he
    have hst := (mem_view.1 he).2
    cases hs : e.state with
    | pending c t =>
      have hne : e.stream ≠ s := by
        rintro rfl
        rw [hs] at hst
        unfold state at hst
        rw [show e.record.stream = e.stream from rfl, h] at hst
        cases hst
      simp [hne]
    | _ => rfl
  · rename_i g h
    refine (view_setGroup _ _).trans (Streams.restate_congr ?_)
    intro e he
    by_cases hs : e.stream = s
    · have hst : e.state = g.state e.id :=
        (mem_view.1 he).2.trans (state_record h hs)
      rw [if_pos hs, Group.state_ack, ← hst]
      cases e.state <;> simp [hs]
    · rw [if_neg hs]
      cases e.state <;> simp [hs]

/-- What a group has not been given is what the states call undelivered. -/
theorem undelivered_view (h : l.groups s = some g) :
    (l.view.undelivered s).map Entry.record = l.behind s g := by
  change ((l.records.map _).filter _).map _ = _
  rw [List.filter_map, List.map_map]
  change (l.records.filter _).map id = l.records.filter _
  rw [List.map_id]
  apply List.filter_congr
  intro r _
  simp only [Function.comp_apply]
  by_cases hs : r.stream = s
  · rw [state_of_group (hs ▸ h)]
    simp [hs, Group.state_eq_undelivered]
  · simp [hs]

theorem view_serve (h : l.groups s = some g) :
    (l.serve consumer now count s).1.view =
        l.view.deliver consumer now ((l.view.ready s count).map Entry.id) ∧
      (l.serve consumer now count s).2 = (l.view.ready s count).map Entry.record := by
  have hrs : (l.view.ready s count).map Entry.record = (l.behind s g).take count := by
    rw [Streams.ready_eq, List.map_take, undelivered_view h]
  have hids : (l.view.ready s count).map Entry.id = ((l.behind s g).take count).map Record.id := by
    rw [← hrs, List.map_map]
    rfl
  unfold serve
  split
  · rename_i h'
    rw [h] at h'
    cases h'
  · rename_i g' h'
    rw [h, Option.some.injEq] at h'
    subst h'
    refine ⟨?_, hrs.symm⟩
    rw [view_setGroup, hids, Streams.deliver]
    apply Streams.restate_congr
    intro e he
    obtain ⟨hr, hst⟩ := mem_view.1 he
    have hsorted : (l.behind s g).Pairwise fun r r' => r.id < r'.id := by
      have := l.sorted
      rw [List.pairwise_map] at this
      exact this.filter _
    by_cases hs : e.stream = s
    · rw [if_pos hs, Group.state_giveAll]
      · rw [hst, state_record h hs]
        rfl
      · rw [List.pairwise_map]
        exact hsorted.sublist (List.take_sublist _ _)
      · intro i hi
        obtain ⟨r, hr', rfl⟩ := List.mem_map.1 hi
        exact (mem_behind.1 (List.mem_of_mem_take hr')).2.2
      · -- a record behind which is not among the first ones comes after them
        by_cases hup : g.upTo ≤ e.id
        · have hmem : e.record ∈ l.behind s g := mem_behind.2 ⟨hr, hs, hup⟩
          rw [← List.take_append_drop count (l.behind s g), List.mem_append] at hmem
          rcases hmem with hmem | hmem
          · exact .inl (List.mem_map.2 ⟨_, hmem, rfl⟩)
          · refine .inr (.inr fun i hi => ?_)
            obtain ⟨r, hr', rfl⟩ := List.mem_map.1 hi
            rw [← List.take_append_drop count (l.behind s g), List.pairwise_append] at hsorted
            exact hsorted.2.2 r hr' _ hmem
        · exact .inr (.inl (by change e.id < g.upTo; omega))
    · rw [if_neg hs, if_neg]
      intro hi
      obtain ⟨r, hr', hid⟩ := List.mem_map.1 hi
      have hr'' := mem_behind.1 (List.mem_of_mem_take hr')
      have : r = e.record := List.inj_on_of_nodup_map
        (l.sorted.imp fun h => Nat.ne_of_lt h) hr''.1 hr hid
      exact hs (by rw [← hr''.2.1, this]; rfl)

theorem grouped_serve (t : String) :
    ((l.serve consumer now count s).1.groups t).isSome = (l.groups t).isSome := by
  unfold serve
  split
  · rfl
  · rename_i g h
    simp only [setGroup, Function.update_apply]
    split
    · rename_i hts
      rw [hts, h]
      rfl
    · rfl

theorem grouped_serveAll {ss : List String} (t : String) :
    ((serveAll consumer now count ss l).1.groups t).isSome = (l.groups t).isSome := by
  induction ss generalizing l with
  | nil => rfl
  | cons s ss ih => exact (ih).trans (grouped_serve t)

/-- Serving one stream after the other is reading them all at once. -/
theorem view_serveAll {ss : List String} (hn : ss.Nodup)
    (hss : ∀ s ∈ ss, (l.groups s).isSome) :
    (serveAll consumer now count ss l).1.view = (l.view.xreadgroup consumer ss count now).1 ∧
      (serveAll consumer now count ss l).2 =
        (l.view.xreadgroup consumer ss count now).2.map Entry.record := by
  induction ss generalizing l with
  | nil =>
    refine ⟨(Streams.restate_self fun e _ => ?_).symm, rfl⟩
    simp
  | cons s ss ih =>
    rw [List.nodup_cons] at hn
    obtain ⟨g, hg⟩ := Option.isSome_iff_exists.1 (hss s List.mem_cons_self)
    obtain ⟨hview, hrs⟩ := @view_serve _ _ _ _ consumer now count hg
    have hready : ss.flatMap (fun t => (l.serve consumer now count s).1.view.ready t count) =
        ss.flatMap fun t => l.view.ready t count := by
      refine List.flatMap_congr fun t ht => ?_
      rw [hview, Streams.ready_eq, Streams.ready_eq, Streams.undelivered_deliver]
      refine congrArg (List.take count) (List.filter_eq_self.2 fun e he => ?_)
      simp only [decide_eq_true_eq]
      intro hi
      obtain ⟨e', he', hid⟩ := List.mem_map.1 hi
      have h1 := Streams.mem_undelivered.1 he
      have h2 := Streams.mem_ready he'
      have : e' = e := List.inj_on_of_nodup_map l.view.nodup_ids h2.1 h1.1 hid
      exact hn.1 (h2.2.1 ▸ this ▸ h1.2.1 ▸ ht)
    obtain ⟨ih1, ih2⟩ := ih (l := (l.serve consumer now count s).1) hn.2 fun t ht => by
      rw [grouped_serve]
      exact hss t (List.mem_cons_of_mem _ ht)
    constructor
    · refine ih1.trans ?_
      simp only [Streams.xreadgroup, hready, List.flatMap_cons, List.map_append]
      rw [hview, Streams.deliver_deliver]
    · change (l.serve consumer now count s).2 ++
        (serveAll consumer now count ss (l.serve consumer now count s).1).2 = _
      rw [hrs, ih2]
      simp only [Streams.xreadgroup, hready, List.flatMap_cons, List.map_append]

/-! ### The pending list -/

theorem find?_of_mem {r : Record F} (hr : r ∈ l.records) (hs : r.stream = s) (hi : r.id = i) :
    l.find? s i = some r := by
  unfold find?
  cases hf : l.records.find? fun r => r.stream = s && r.id = i with
  | none => simpa [hs, hi] using List.find?_eq_none.1 hf r hr
  | some r' =>
    have hr' := List.find?_some hf
    simp only [Bool.and_eq_true, decide_eq_true_eq] at hr'
    rw [List.inj_on_of_nodup_map (l.sorted.imp fun hlt => Nat.ne_of_lt hlt)
      (List.mem_of_find?_eq_some hf) hr (hr'.2.trans hi.symm)]

def ofEntry (e : Entry F) : Pending :=
  match e.state with
  | .pending c t => ⟨e.id, c, t⟩
  | _ => ⟨e.id, "", 0⟩

theorem ofEntry_id (e : Entry F) : (ofEntry e).id = e.id := by
  unfold ofEntry
  split <;> rfl

theorem pel_view (h : l.groups s = some g) :
    (l.view.pel s start).map ofEntry = g.pel.filter fun p => start ≤ p.id := by
  have hview : (l.view.pel s start).Pairwise fun e e' => (ofEntry e).id < (ofEntry e').id :=
    (l.view.pel_sorted s start).imp fun {e e'} hlt => by rwa [ofEntry_id, ofEntry_id]
  have hpel := g.sorted
  rw [List.pairwise_map] at hpel
  have : Std.Irrefl fun p q : Pending => p.id < q.id := ⟨fun p => Nat.lt_irrefl p.id⟩
  have : Std.Antisymm fun p q : Pending => p.id < q.id :=
    ⟨fun p q h1 h2 => absurd h1 (Nat.lt_asymm h2)⟩
  refine List.Pairwise.eq_of_mem_iff (List.pairwise_map.2 hview) (hpel.filter _) fun p => ?_
  rw [List.mem_map, List.mem_filter, decide_eq_true_eq]
  constructor
  · rintro ⟨e, he, rfl⟩
    obtain ⟨hmem, hs, hp, hstart⟩ := Streams.mem_pel.1 he
    have hst : e.state = g.state e.id := (mem_view.1 hmem).2.trans (state_record h hs)
    refine ⟨?_, by rwa [ofEntry_id]⟩
    unfold Group.state at hst
    split at hst
    · rename_i q hq
      have hid : q.id = e.id := by simpa using List.find?_some hq
      have : ofEntry e = q := by
        unfold ofEntry
        rw [hst, ← hid]
      exact this ▸ List.mem_of_find?_eq_some hq
    · unfold Entry.isPending at hp
      split at hst <;> rw [hst] at hp <;> cases hp
  · rintro ⟨hp, hstart⟩
    obtain ⟨r, hr, hs, hid⟩ := l.held s g h p hp
    have hfind : (g.pel.find? fun q => q.id = r.id) = some p := by
      cases hf : g.pel.find? fun q => q.id = r.id with
      | none => simpa [hid] using List.find?_eq_none.1 hf p hp
      | some q =>
        have hq : q.id = p.id := (by simpa using List.find?_some hf : q.id = r.id).trans hid
        rw [List.inj_on_of_nodup_map (g.sorted.imp fun hlt => Nat.ne_of_lt hlt)
          (List.mem_of_find?_eq_some hf) hp hq]
    have hst : l.state r = .pending p.consumer p.since := by
      rw [state_of_group (hs ▸ h)]
      unfold Group.state
      rw [hfind]
    refine ⟨⟨r.id, r.stream, r.fields, l.state r⟩, Streams.mem_pel.2
      ⟨List.mem_map.2 ⟨r, hr, rfl⟩, hs, ?_, hid ▸ hstart⟩, ?_⟩
    · simp [Entry.isPending, hst]
    · simp [ofEntry, hst, hid]

theorem scan_ofEntry (a n : Nat) {es : List (Entry F)} (hes : ∀ e ∈ es, e.isPending = true) :
    Group.scan now minIdle a n (es.map ofEntry) =
      ((Streams.scan now minIdle a n es).1.map ofEntry, (Streams.scan now minIdle a n es).2) := by
  induction es generalizing a n with
  | nil => cases a <;> cases n <;> rfl
  | cons e es ih =>
    have hidle : (ofEntry e).idle now minIdle = e.idle now minIdle := by
      have hp := hes e List.mem_cons_self
      unfold Entry.isPending at hp
      split at hp
      · rename_i hst
        simp [ofEntry, Entry.idle, Pending.idle, hst]
      · cases hp
    have hrest := fun a n => ih a n fun e he => hes e (List.mem_cons_of_mem _ he)
    cases a with
    | zero => simp [Group.scan, Streams.scan, ofEntry_id]
    | succ a =>
      cases n with
      | zero => simp [Group.scan, Streams.scan, ofEntry_id]
      | succ n =>
        rw [List.map_cons, Group.scan, Streams.scan, hidle]
        split
        · rw [hrest]
          rfl
        · exact hrest a (n + 1)

theorem view_xautoclaim {l' : Log F} {cur : Option Nat} {rs : List (Record F)}
    (h : l.xautoclaim s consumer minIdle start count now = some (l', cur, rs)) :
    l'.view = (l.view.xautoclaim s consumer minIdle start count now).1 ∧
      cur = (l.view.xautoclaim s consumer minIdle start count now).2.1 ∧
      rs = (l.view.xautoclaim s consumer minIdle start count now).2.2.map Entry.record := by
  unfold xautoclaim at h
  split at h
  · cases h
  · rename_i g hg
    simp only [Option.some.injEq, Prod.mk.injEq] at h
    obtain ⟨rfl, rfl, rfl⟩ := h
    rw [Streams.xautoclaim_eq]
    have hscan : Group.scan now minIdle (count * 10) count ((l.view.pel s start).map ofEntry) = _ :=
      scan_ofEntry _ _ fun e he => (Streams.mem_pel.1 he).2.2.1
    rw [pel_view hg] at hscan
    have hgot : ∀ e ∈ (Streams.scan now minIdle (count * 10) count (l.view.pel s start)).1,
        e ∈ l.view.pel s start := fun e he => (Streams.scan_subset _ _ _ e he).1
    generalize Streams.scan now minIdle (count * 10) count (l.view.pel s start) = r at hscan hgot ⊢
    have hids : ((Group.scan now minIdle (count * 10) count
        (g.pel.filter fun p => start ≤ p.id)).1.map Pending.id) = r.1.map Entry.id := by
      rw [hscan, List.map_map]
      exact List.map_congr_left fun e _ => ofEntry_id e
    refine ⟨?_, congrArg Prod.snd hscan, ?_⟩
    · refine (view_setGroup _ _).trans (Streams.restate_congr fun e he => ?_)
      rw [hids]
      by_cases hs : e.stream = s
      · rw [if_pos hs, Group.state_claim]
        · rw [(mem_view.1 he).2, state_record hg hs]
          rfl
        · intro i hi
          obtain ⟨e', he', rfl⟩ := List.mem_map.1 hi
          have hmem : ofEntry e' ∈ (l.view.pel s start).map ofEntry :=
            List.mem_map.2 ⟨e', hgot e' he', rfl⟩
          rw [pel_view hg] at hmem
          exact ⟨ofEntry e', List.mem_of_mem_filter hmem, ofEntry_id e'⟩
      · rw [if_neg hs, if_neg]
        intro hi
        obtain ⟨e', he', hid⟩ := List.mem_map.1 hi
        obtain ⟨hmem, hs', -⟩ := Streams.mem_pel.1 (hgot e' he')
        exact hs ((List.inj_on_of_nodup_map l.view.nodup_ids hmem he hid) ▸ hs')
    · have hfind : ∀ e ∈ r.1, l.find? s (ofEntry e).id = some e.record := by
        intro e he
        obtain ⟨hmem, hs, -⟩ := Streams.mem_pel.1 (hgot e he)
        exact find?_of_mem (mem_view.1 hmem).1 hs (ofEntry_id e).symm
      rw [hscan, List.filterMap_map]
      exact (List.filterMap_congr hfind).trans (congrFun List.filterMap_eq_map' r.1)

/-! ### When a consumer was last seen -/

theorem seen_update {l' : Log F} {t c : String}
    (h : l'.groups = Function.update l.groups s (some g)) :
    l'.seen t c = if t = s then g.consumers.get? c else l.seen t c := by
  unfold seen
  rw [h, Function.update_apply]
  split <;> rfl

theorem consumers_giveAll {is : List Nat} :
    (Group.giveAll consumer now is g).consumers = g.consumers := by
  induction is generalizing g with
  | nil => rfl
  | cons i is ih =>
    refine (ih).trans ?_
    unfold Group.give
    split <;> rfl

theorem get?_touch {c : String} : (g.touch consumer now).consumers.get? c =
    if c = consumer then some now else g.consumers.get? c := by
  change (g.consumers.set consumer now).get? c = _
  rw [Dict.get?_set]
  simp only [eq_comm]

theorem seen_of_group {c : String} (h : l.groups s = some g) : l.seen s c = g.consumers.get? c := by
  unfold seen
  rw [h]
  rfl

theorem seen_xgroupCreate {l' : Log F} {t c : String} (h : l.xgroupCreate s = some l') :
    l'.seen t c = l.seen t c := by
  unfold xgroupCreate at h
  split at h
  · cases h
  · rename_i hnone
    rw [Option.some.injEq] at h
    rw [← h]
    refine (seen_update rfl).trans ?_
    split
    · rename_i hs
      rw [hs, seen, hnone]
      rfl
    · rfl

theorem seen_xack {t c : String} (i : Nat) : (l.xack s i).seen t c = l.seen t c := by
  unfold xack
  split
  · rfl
  · rename_i g hg
    refine (seen_update rfl).trans ?_
    split
    · rename_i hs
      rw [hs, seen_of_group hg]
      rfl
    · rfl

theorem seen_serve {t c : String} (h : (l.groups s).isSome = true) :
    (l.serve consumer now count s).1.seen t c =
      if t = s ∧ c = consumer then some now else l.seen t c := by
  unfold serve
  split
  · rename_i hnone
    rw [hnone] at h
    cases h
  · rename_i g hg
    refine (seen_update rfl).trans ?_
    rw [consumers_giveAll, get?_touch]
    by_cases hs : t = s
    · rw [if_pos hs, hs, seen_of_group hg]
      simp
    · rw [if_neg hs, if_neg fun h => hs h.1]

theorem seen_serveAll {ss : List String} {t c : String}
    (hss : ∀ s ∈ ss, (l.groups s).isSome = true) :
    (serveAll consumer now count ss l).1.seen t c =
      if t ∈ ss ∧ c = consumer then some now else l.seen t c := by
  induction ss generalizing l with
  | nil => simp [serveAll]
  | cons s ss ih =>
    have hserve := ih (l := (l.serve consumer now count s).1) fun t ht => by
      rw [grouped_serve]
      exact hss t (List.mem_cons_of_mem _ ht)
    refine hserve.trans ?_
    rw [seen_serve (hss s List.mem_cons_self)]
    by_cases hc : c = consumer <;> by_cases hs : t = s <;> simp [hc, hs]

theorem seen_xautoclaim {l' : Log F} {cur : Option Nat} {rs : List (Record F)} {t c : String}
    (h : l.xautoclaim s consumer minIdle start count now = some (l', cur, rs)) :
    l'.seen t c = if t = s ∧ c = consumer then some now else l.seen t c := by
  unfold xautoclaim at h
  split at h
  · cases h
  · rename_i g hg
    rw [Option.some.injEq, Prod.mk.injEq] at h
    rw [← h.1]
    refine (seen_update rfl).trans ?_
    change (if t = s then (g.touch consumer now).consumers.get? c else _) = _
    rw [get?_touch]
    by_cases hs : t = s
    · rw [if_pos hs, hs, seen_of_group hg]
      simp
    · rw [if_neg hs, if_neg fun h => hs h.1]

end Log

end Store
