import JobProcessor.Store.Broker

/-! The pending list of a stream while a scan goes over it page by page, claims the
idle entries of each page and acknowledges them before it asks for the next one. -/

namespace Store.Streams

variable {F : Type} {b b₀ : Streams F} {e : Entry F} {stream consumer : String} {now minIdle : Int}
  {start : Nat}

/-- The pending entries of a stream from id `start` on. -/
def pel (b : Streams F) (stream : String) (start : Nat) : List (Entry F) :=
  b.entries.filter fun e => e.stream = stream && e.isPending && start ≤ e.id

theorem xautoclaim_eq (count : Nat) :
    b.xautoclaim stream consumer minIdle start count now =
      (b.deliver consumer now
          ((scan now minIdle (count * 10) count (b.pel stream start)).1.map Entry.id),
        (scan now minIdle (count * 10) count (b.pel stream start)).2,
        (scan now minIdle (count * 10) count (b.pel stream start)).1) := rfl

theorem mem_pel :
    e ∈ b.pel stream start ↔
      e ∈ b.entries ∧ e.stream = stream ∧ e.isPending = true ∧ start ≤ e.id := by
  simp [pel, and_assoc]

theorem pel_sorted (b : Streams F) (stream : String) (start : Nat) :
    (b.pel stream start).Pairwise fun e e' => e.id < e'.id := by
  have h := b.sorted
  rw [List.pairwise_map] at h
  exact h.filter _

theorem idle_isPending (h : e.idle now minIdle = true) : e.isPending = true := by
  unfold Entry.idle at h
  unfold Entry.isPending
  split at h
  · rfl
  · cases h

/-- One page: the scan looks at a part of the list from its front, takes what is idle
there, and its cursor is the next entry. It gets ahead as long as it may take one. -/
theorem scan_split (now minIdle : Int) (a n : Nat) (es : List (Entry F)) :
    ∃ pre post, es = pre ++ post ∧
      (scan now minIdle a n es).1 = pre.filter (fun e => e.idle now minIdle) ∧
      (scan now minIdle a n es).2 = post.head?.map Entry.id ∧
      (0 < a → 0 < n → es ≠ [] → pre ≠ []) := by
  induction es generalizing a n with
  | nil => exact ⟨[], [], rfl, by simp [scan], by simp [scan], fun _ _ h => absurd rfl h⟩
  | cons e es ih =>
    rcases Nat.eq_zero_or_pos a with rfl | ha
    · exact ⟨[], e :: es, rfl, by simp [scan], by simp [scan], fun h => absurd h (by simp)⟩
    obtain ⟨a, rfl⟩ := Nat.exists_eq_succ_of_ne_zero (Nat.ne_of_gt ha)
    rcases Nat.eq_zero_or_pos n with rfl | hn
    · exact ⟨[], e :: es, rfl, by simp [scan], by simp [scan], fun _ h => absurd h (by simp)⟩
    obtain ⟨n, rfl⟩ := Nat.exists_eq_succ_of_ne_zero (Nat.ne_of_gt hn)
    by_cases hi : e.idle now minIdle = true
    · obtain ⟨pre, post, rfl, hgot, hcur, -⟩ := ih a n
      refine ⟨e :: pre, post, rfl, ?_, ?_, by simp⟩
      · simp [scan, hi, hgot]
      · simp [scan, hi, hcur]
    · obtain ⟨pre, post, rfl, hgot, hcur, -⟩ := ih a (n + 1)
      refine ⟨e :: pre, post, rfl, ?_, ?_, by simp⟩
      · simp [scan, hi, hgot]
      · simp [scan, hi, hcur]

/-- The list from a cursor on is the rest of the list the cursor came from. -/
theorem pel_resume {pre post : List (Entry F)} (h : b.pel stream start = pre ++ e :: post) :
    b.pel stream e.id = e :: post := by
  have he : start ≤ e.id := (mem_pel.1 (h ▸ List.mem_append_right _ List.mem_cons_self)).2.2.2
  have hfilter : b.pel stream e.id = (b.pel stream start).filter fun e' => e.id ≤ e'.id := by
    unfold pel
    rw [List.filter_filter]
    congr 1
    funext e'
    by_cases h' : e.id ≤ e'.id
    · simp [h', he.trans h']
    · simp [h']
  have hs := b.pel_sorted stream start
  rw [h, List.pairwise_append, List.pairwise_cons] at hs
  obtain ⟨-, ⟨hpost, -⟩, hpre⟩ := hs
  rw [hfilter, h, List.filter_append, List.filter_cons_of_pos (by simp), List.filter_eq_nil_iff.2,
    List.nil_append, List.filter_eq_self.2]
  · intro e' he'
    simpa using Nat.le_of_lt (hpost e' he')
  · intro e' he'
    simpa using hpre e' he' e List.mem_cons_self

/-! ### A broker while a scan takes entries -/

/-- An entry, if it was claimed for `consumer` at `now` or acknowledged since. -/
def mark (consumer : String) (now : Int) (acked claimed : List Nat) (e : Entry F) : Entry F :=
  { e with
    state := if e.id ∈ acked then .acked
      else if e.id ∈ claimed then .pending consumer now else e.state }

/-- `b` comes from `b₀` by claiming and acknowledging entries of `b₀` and appending new
ones. -/
def Taken (b₀ : Streams F) (consumer : String) (now : Int) (acked claimed : List Nat)
    (b : Streams F) : Prop :=
  ∃ new, b.entries = b₀.entries.map (mark consumer now acked claimed) ++ new ∧
    ∀ e ∈ new, e.state = .undelivered

variable {acked claimed : List Nat}

theorem taken_self (b : Streams F) (consumer : String) (now : Int) :
    Taken b consumer now [] [] b := by
  refine ⟨[], ?_, by simp⟩
  rw [List.append_nil]
  exact ((List.map_congr_left fun e _ => by simp [mark]).trans (List.map_id _)).symm

theorem Taken.xadd (h : Taken b₀ consumer now acked claimed b) (stream : String) (f : F) :
    Taken b₀ consumer now acked claimed (b.xadd stream f) := by
  obtain ⟨new, hb, hnew⟩ := h
  refine ⟨new ++ [⟨b.next, stream, f, .undelivered⟩], ?_, ?_⟩
  · rw [← List.append_assoc, ← hb]
    rfl
  · intro e he
    rcases List.mem_append.1 he with he | he
    · exact hnew e he
    · rw [List.mem_singleton.1 he]

/-- What a change of states does to a broker that is being scanned. -/
theorem Taken.restate {acked' claimed' : List Nat} {f : Entry F → Delivery}
    (h : Taken b₀ consumer now acked claimed b)
    (hold : ∀ e ∈ b₀.entries, f (mark consumer now acked claimed e) =
      (mark consumer now acked' claimed' e).state)
    (hnew : ∀ e ∈ b.entries, (∀ e' ∈ b₀.entries, e'.id ≠ e.id) → e.state = .undelivered →
      f e = .undelivered) :
    Taken b₀ consumer now acked' claimed' (b.restate f) := by
  obtain ⟨new, hb, hun⟩ := h
  have hnodup := b.nodup_ids
  rw [hb, List.map_append, List.nodup_append] at hnodup
  have hkeep : ∀ e ∈ new, { e with state := f e } = e := by
    intro e he
    have hfresh : ∀ e' ∈ b₀.entries, e'.id ≠ e.id := by
      intro e' he' hid
      refine hnodup.2.2 e'.id ?_ e.id (List.mem_map.2 ⟨e, he, rfl⟩) hid
      rw [List.map_map]
      exact List.mem_map.2 ⟨e', he', rfl⟩
    have hf := hnew e (hb ▸ List.mem_append_right _ he) hfresh (hun e he)
    rw [hf, ← hun e he]
  refine ⟨new, ?_, hun⟩
  change b.entries.map (fun e => { e with state := f e }) = _
  rw [hb, List.map_append, List.map_congr_left hkeep, List.map_id', List.map_map]
  congr 1
  apply List.map_congr_left
  intro e he
  change { e with state := f (mark consumer now acked claimed e) } = _
  rw [hold e he]
  rfl

theorem Taken.xack (h : Taken b₀ consumer now acked claimed b) (he : e ∈ b₀.entries)
    (hc : e.id ∈ claimed) :
    Taken b₀ consumer now (e.id :: acked) claimed (b.xack e.stream e.id) := by
  refine h.restate ?_ ?_
  · intro e' he'
    by_cases hid : e'.id = e.id
    · obtain rfl := List.inj_on_of_nodup_map b₀.nodup_ids he' he hid
      by_cases ha : e'.id ∈ acked <;> simp [mark, ha, hc]
    · simp only [mark, List.mem_cons, hid, false_or, and_false, if_false]
      split <;> simp_all
  · intro e' _ _ hs
    rw [hs]

theorem Taken.deliver {ids : List Nat} (h : Taken b₀ consumer now acked claimed b)
    (hold : ∀ i ∈ ids, i ∉ acked ∧ ∃ e ∈ b₀.entries, e.id = i) :
    Taken b₀ consumer now acked (ids ++ claimed) (b.deliver consumer now ids) := by
  refine h.restate ?_ ?_
  · intro e he
    by_cases hi : e.id ∈ ids
    · simp [mark, hi, (hold e.id hi).1]
    · simp [mark, hi]
  · intro e he hfresh hs
    rw [if_neg, hs]
    intro hi
    obtain ⟨e', he', hid⟩ := (hold e.id hi).2
    exact hfresh e' he' hid

/-- When all that was claimed is acknowledged, the pending list is what it was, less
the acknowledged entries. -/
theorem Taken.pel (h : Taken b₀ consumer now acked claimed b) (hsub : claimed ⊆ acked)
    (stream : String) (start : Nat) :
    b.pel stream start = (b₀.pel stream start).filter fun e => e.id ∉ acked := by
  obtain ⟨new, hb, hun⟩ := h
  have hnew : new.filter (fun e => e.stream = stream && e.isPending && start ≤ e.id) = [] := by
    rw [List.filter_eq_nil_iff]
    intro e he
    simp [Entry.isPending, hun e he]
  unfold Streams.pel
  rw [hb, List.filter_append, hnew, List.append_nil, List.filter_filter]
  induction b₀.entries with
  | nil => rfl
  | cons e es ih =>
    by_cases ha : e.id ∈ acked
    · rw [List.map_cons, List.filter_cons_of_neg (by simp [mark, ha, Entry.isPending]),
        List.filter_cons_of_neg (by simp [ha]), ih]
    · have hc : e.id ∉ claimed := fun hc => ha (hsub hc)
      have hmark : mark consumer now acked claimed e = e := by simp [mark, ha, hc]
      rw [List.map_cons, hmark, List.filter_cons, List.filter_cons, ih]
      simp [ha]

theorem Taken.pel_resume {b' : Streams F} {acked' claimed' : List Nat} {pre post : List (Entry F)}
    (h : Taken b₀ consumer now acked claimed b) (hsub : claimed ⊆ acked)
    (h' : Taken b₀ consumer now acked' claimed' b') (hsub' : claimed' ⊆ acked')
    (hgrow : acked ⊆ acked') (hpage : ∀ i ∈ acked', i ∈ acked ∨ ∃ e' ∈ pre, e'.id = i)
    (hpel : b.pel stream start = pre ++ e :: post) : b'.pel stream e.id = e :: post := by
  have hs := b.pel_sorted stream start
  rw [hpel, List.pairwise_append] at hs
  have hb : b'.pel stream e.id = (b.pel stream e.id).filter fun e => e.id ∉ acked' := by
    rw [h'.pel hsub', h.pel hsub, List.filter_filter]
    apply List.filter_congr
    intro e' _
    by_cases ha : e'.id ∈ acked'
    · simp [ha]
    · have hn : e'.id ∉ acked := fun hn => ha (hgrow hn)
      simp [ha, hn]
  rw [hb, Streams.pel_resume hpel, List.filter_eq_self]
  intro e' he'
  -- what is left is in the list of `b`, so not acknowledged before, and lies behind the page
  have hmem : e' ∈ b.pel stream start := hpel ▸ List.mem_append_right _ he'
  rw [h.pel hsub, List.mem_filter, decide_eq_true_eq] at hmem
  simp only [decide_eq_true_eq]
  intro ha
  rcases hpage e'.id ha with ha | ⟨e'', he'', hid⟩
  · exact hmem.2 ha
  · exact absurd hid (Nat.ne_of_lt (hs.2.2 e'' he'' e' he'))

end Store.Streams
