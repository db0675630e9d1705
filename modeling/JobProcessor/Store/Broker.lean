import Mathlib.Data.List.Nodup
import Mathlib.Data.List.Sort

/-! The parts of a message broker: append-only streams read by one consumer
group, with a pending-entries list, and a sorted set. -/

namespace Store

/-- Where the consumer group stands with an entry: not delivered, in the pending
list of a consumer since an instant, or acknowledged. -/
inductive Delivery where
  | undelivered
  | pending (consumer : String) (since : Int)
  | acked
deriving DecidableEq, Repr

structure Entry (F : Type) where
  id : Nat
  stream : String
  fields : F
  state : Delivery
deriving DecidableEq, Repr

namespace Entry

variable {F : Type}

def isPending (e : Entry F) : Bool :=
  match e.state with
  | .pending _ _ => true
  | _ => false

/-- The entry has been pending for at least `minIdle`. -/
def idle (e : Entry F) (now minIdle : Int) : Bool :=
  match e.state with
  | .pending _ since => minIdle ≤ now - since
  | _ => false

end Entry

/-- All streams in one list, oldest entry first. Entry ids grow with every append. -/
structure Streams (F : Type) where
  entries : List (Entry F)
  next : Nat
  sorted : (entries.map Entry.id).Pairwise (· < ·)
  bound : ∀ e ∈ entries, e.id < next

namespace Streams

variable {F : Type}

def empty : Streams F := ⟨[], 0, List.Pairwise.nil, by simp⟩

def find? (b : Streams F) (i : Nat) : Option (Entry F) := b.entries.find? fun e => e.id = i

def xadd (b : Streams F) (stream : String) (f : F) : Streams F where
  entries := b.entries ++ [⟨b.next, stream, f, .undelivered⟩]
  next := b.next + 1
  sorted := by
    rw [List.map_append, List.pairwise_append]
    refine ⟨b.sorted, by simp, ?_⟩
    intro i hi j hj
    obtain ⟨e, he, rfl⟩ := List.mem_map.1 hi
    simp only [List.map_cons, List.map_nil, List.mem_singleton] at hj
    exact hj ▸ b.bound e he
  bound := by
    intro e he
    rcases List.mem_append.1 he with he | he
    · exact Nat.lt_succ_of_lt (b.bound e he)
    · simp only [List.mem_singleton] at he
      simp [he]

/-- Change the delivery state of entries and nothing else. -/
def restate (b : Streams F) (f : Entry F → Delivery) : Streams F where
  entries := b.entries.map fun e => { e with state := f e }
  next := b.next
  sorted := by rw [List.map_map]; exact b.sorted
  bound := by
    intro e he
    obtain ⟨e', he', rfl⟩ := List.mem_map.1 he
    exact b.bound e' he'

/-- Deliver the entries with the given ids to a consumer. -/
def deliver (b : Streams F) (consumer : String) (now : Int) (ids : List Nat) : Streams F :=
  b.restate fun e => if e.id ∈ ids then .pending consumer now else e.state

/-- The entries of a stream the group has not seen, oldest first. -/
def undelivered (b : Streams F) (stream : String) : List (Entry F) :=
  b.entries.filter fun e => e.stream = stream && e.state = .undelivered

/-- The `count` oldest undelivered entries of a stream. -/
def ready (b : Streams F) (stream : String) (count : Nat) : List (Entry F) :=
  (b.entries.filter fun e => e.stream = stream && e.state = .undelivered).take count

/-- `XREADGROUP … COUNT count STREAMS streams > …`: up to `count` entries of each
stream, the streams in the order asked. -/
def xreadgroup (b : Streams F) (consumer : String) (streams : List String) (count : Nat)
    (now : Int) : Streams F × List (Entry F) :=
  let es := streams.flatMap fun s => b.ready s count
  (b.deliver consumer now (es.map Entry.id), es)

/-- `XACK`: an entry leaves the pending list. -/
def xack (b : Streams F) (stream : String) (i : Nat) : Streams F :=
  b.restate fun e =>
    match e.state with
    | .pending _ _ => if e.stream = stream ∧ e.id = i then .acked else e.state
    | _ => e.state

/-- The scan of `XAUTOCLAIM` over the pending list: at most `attempts` entries are
looked at and at most `count` taken. Returns them with the id to go on from. -/
def scan (now minIdle : Int) : Nat → Nat → List (Entry F) → List (Entry F) × Option Nat
  | _, _, [] => ([], none)
  | 0, _, e :: _ => ([], some e.id)
  | _ + 1, 0, e :: _ => ([], some e.id)
  | a + 1, n + 1, e :: es =>
    if e.idle now minIdle then
      let (got, cur) := scan now minIdle a n es
      (e :: got, cur)
    else scan now minIdle a (n + 1) es

/-- `XAUTOCLAIM`: idle pending entries of a stream from id `start` on go to
`consumer`. Redis looks at ten entries for each one asked for; the cursor is
`none` (`0-0`) at the end of the list. -/
def xautoclaim (b : Streams F) (stream consumer : String) (minIdle : Int) (start count : Nat)
    (now : Int) : Streams F × Option Nat × List (Entry F) :=
  let pel := b.entries.filter fun e => e.stream = stream && e.isPending && start ≤ e.id
  let (got, cur) := scan now minIdle (count * 10) count pel
  (b.deliver consumer now (got.map Entry.id), cur, got)

/-! ### Entries after each command -/

variable {b : Streams F} {i : Nat} {e : Entry F}

theorem find?_id (h : b.find? i = some e) : e.id = i := by
  simpa using List.find?_some h

theorem find?_mem (h : b.find? i = some e) : e ∈ b.entries := List.mem_of_find?_eq_some h

theorem find?_lt (h : b.find? i = some e) : i < b.next :=
  find?_id h ▸ b.bound e (find?_mem h)

theorem nodup_ids (b : Streams F) : (b.entries.map Entry.id).Nodup :=
  b.sorted.imp fun h => Nat.ne_of_lt h

theorem find?_of_mem (h : e ∈ b.entries) : b.find? e.id = some e := by
  cases hf : b.find? e.id with
  | none => exact absurd h (fun he => by simpa using List.find?_eq_none.1 hf e he)
  | some e' => rw [List.inj_on_of_nodup_map b.nodup_ids (find?_mem hf) h (find?_id hf)]

theorem find?_restate (f : Entry F → Delivery) :
    (b.restate f).find? i = (b.find? i).map fun e => { e with state := f e } := by
  unfold find? restate
  rw [List.find?_map]
  rfl

theorem find?_xadd (stream : String) (f : F) :
    (b.xadd stream f).find? i =
      if i = b.next then some ⟨b.next, stream, f, .undelivered⟩ else b.find? i := by
  unfold find? xadd
  rw [List.find?_append]
  split
  · rename_i hi
    subst hi
    rw [List.find?_eq_none.2 (by
      intro e he
      simpa using Nat.ne_of_lt (b.bound e he))]
    simp
  · rename_i hi
    have : ¬ b.next = i := fun h => hi h.symm
    simp [this]

theorem find?_deliver (consumer : String) (now : Int) (ids : List Nat) :
    (b.deliver consumer now ids).find? i = (b.find? i).map fun e =>
      { e with state := if i ∈ ids then .pending consumer now else e.state } := by
  rw [deliver, find?_restate]
  cases h : b.find? i with
  | none => rfl
  | some e => simp [find?_id h]

theorem find?_xack (stream : String) (j : Nat) :
    (b.xack stream j).find? i = (b.find? i).map fun e =>
      if e.isPending = true ∧ e.stream = stream ∧ i = j then { e with state := .acked }
      else e := by
  rw [xack, find?_restate]
  cases h : b.find? i with
  | none => rfl
  | some e =>
    have hid := find?_id h
    obtain ⟨id, s, f, st⟩ := e
    subst hid
    cases st <;> simp [Entry.isPending]
    split <;> rfl

theorem mem_ready {stream : String} {count : Nat} (h : e ∈ b.ready stream count) :
    e ∈ b.entries ∧ e.stream = stream ∧ e.state = .undelivered := by
  have h' := List.mem_of_mem_take h
  simpa using h'

theorem mem_undelivered {stream : String} :
    e ∈ b.undelivered stream ↔ e ∈ b.entries ∧ e.stream = stream ∧ e.state = .undelivered := by
  simp [undelivered]

theorem ready_eq (stream : String) (count : Nat) :
    b.ready stream count = (b.undelivered stream).take count := rfl

theorem undelivered_deliver (consumer : String) (now : Int) (ids : List Nat) (stream : String) :
    (b.deliver consumer now ids).undelivered stream =
      (b.undelivered stream).filter fun e => e.id ∉ ids := by
  change (b.entries.map fun e =>
      { e with state := if e.id ∈ ids then .pending consumer now else e.state }).filter _ = _
  unfold undelivered
  induction b.entries with
  | nil => rfl
  | cons e es ih =>
    obtain ⟨i, t, f, st⟩ := e
    rw [List.map_cons]
    by_cases hi : i ∈ ids <;> by_cases he : t = stream ∧ st = .undelivered <;> simp_all

/-- Taking the head of a stream leaves the others, and its own tail. -/
theorem undelivered_take {consumer : String} {now : Int} {s t : String} {es : List (Entry F)}
    (h : b.undelivered s = e :: es) :
    (b.deliver consumer now [e.id]).undelivered t = if t = s then es else b.undelivered t := by
  have he := mem_undelivered.1 (h ▸ List.mem_cons_self : e ∈ b.undelivered s)
  have hinj : ∀ e' ∈ b.entries, e'.id = e.id → e' = e :=
    fun e' he' hid => List.inj_on_of_nodup_map b.nodup_ids he' he.1 hid
  rw [undelivered_deliver]
  split
  · rename_i hts
    subst hts
    have hn : ((e :: es).map Entry.id).Nodup :=
      h ▸ (List.filter_sublist.map Entry.id).nodup b.nodup_ids
    rw [List.map_cons, List.nodup_cons] at hn
    rw [h, List.filter_cons_of_neg (by simp), List.filter_eq_self]
    intro e' he'
    simp only [List.mem_singleton, decide_eq_true_eq]
    intro hid
    exact hn.1 (hid ▸ List.mem_map.2 ⟨e', he', rfl⟩)
  · rename_i hts
    rw [List.filter_eq_self]
    intro e' he'
    have he'' := mem_undelivered.1 he'
    simp only [List.mem_singleton, decide_eq_true_eq]
    intro hid
    rw [hinj e' he''.1 hid] at he''
    exact hts (he''.2.1.symm.trans he.2.1)

/-- The head of a reply is the oldest undelivered entry of its stream, and the streams
asked for before that one had nothing. -/
theorem head_of_ready {streams : List String} {count : Nat} {es : List (Entry F)}
    (h : streams.flatMap (fun s => b.ready s count) = e :: es) :
    ∃ pre post, streams = pre ++ e.stream :: post ∧ (∀ s ∈ pre, b.undelivered s = []) ∧
      (b.undelivered e.stream).head? = some e := by
  induction streams with
  | nil => cases h
  | cons s streams ih =>
    rw [List.flatMap_cons] at h
    cases hs : b.undelivered s with
    | nil =>
      rw [ready_eq, hs, List.take_nil, List.nil_append] at h
      obtain ⟨pre, post, rfl, hpre, hhead⟩ := ih h
      refine ⟨s :: pre, post, rfl, ?_, hhead⟩
      intro s' hs'
      rcases List.mem_cons.1 hs' with rfl | hs'
      · exact hs
      · exact hpre s' hs'
    | cons e' es' =>
      cases count with
      | zero =>
        have hnil : ∀ ss : List String, ss.flatMap (fun s => b.ready s 0) = [] := by
          intro ss
          simp [ready_eq]
        rw [hnil, ready_eq, List.take_zero] at h
        cases h
      | succ n =>
        rw [ready_eq, hs, List.take_succ_cons, List.cons_append, List.cons.injEq] at h
        obtain ⟨rfl, -⟩ := h
        have hst : e'.stream = s :=
          (mem_undelivered.1 (hs ▸ List.mem_cons_self : e' ∈ b.undelivered s)).2.1
        exact ⟨[], streams, by rw [hst]; rfl, by simp, by rw [hst, hs]; rfl⟩

theorem scan_subset {now minIdle : Int} :
    ∀ (a n : Nat) (es : List (Entry F)), ∀ e ∈ (scan now minIdle a n es).1,
      e ∈ es ∧ e.idle now minIdle = true
  | _, _, [], e, h => by simp [scan] at h
  | 0, _, _ :: _, e, h => by simp [scan] at h
  | _ + 1, 0, _ :: _, e, h => by simp [scan] at h
  | a + 1, n + 1, x :: es, e, h => by
    rw [scan] at h
    split at h
    · rename_i hx
      rcases List.mem_cons.1 h with rfl | h
      · exact ⟨List.mem_cons_self, hx⟩
      · obtain ⟨h1, h2⟩ := scan_subset a n es e h
        exact ⟨List.mem_cons_of_mem _ h1, h2⟩
    · obtain ⟨h1, h2⟩ := scan_subset a (n + 1) es e h
      exact ⟨List.mem_cons_of_mem _ h1, h2⟩

theorem mem_xautoclaim {stream consumer : String} {minIdle : Int} {start count : Nat} {now : Int}
    (h : e ∈ (b.xautoclaim stream consumer minIdle start count now).2.2) :
    e ∈ b.entries ∧ e.stream = stream ∧ e.isPending = true := by
  have := (scan_subset _ _ _ e h).1
  simp only [List.mem_filter, Bool.and_eq_true, decide_eq_true_eq] at this
  exact ⟨this.1, this.2.1.1, this.2.1.2⟩

end Streams

/-- A sorted set: members with scores. -/
structure ZSet (κ : Type) where
  items : List (κ × Int)
  nodup : (items.map Prod.fst).Nodup

namespace ZSet

variable {κ : Type} [DecidableEq κ]

def empty : ZSet κ := ⟨[], List.nodup_nil⟩

def score? (z : ZSet κ) (k : κ) : Option Int := (z.items.find? fun p => p.1 = k).map Prod.snd

def zrem (z : ZSet κ) (ks : List κ) : ZSet κ where
  items := z.items.filter fun p => p.1 ∉ ks
  nodup := z.nodup.sublist (List.filter_sublist.map _)

/-- `ZADD`: a member already present gets the new score. -/
def zadd (z : ZSet κ) (k : κ) (s : Int) : ZSet κ where
  items := (z.zrem [k]).items ++ [(k, s)]
  nodup := by
    rw [List.map_append, List.nodup_append]
    refine ⟨(z.zrem [k]).nodup, by simp, ?_⟩
    intro a ha b hb
    obtain ⟨p, hp, rfl⟩ := List.mem_map.1 ha
    simp only [List.map_cons, List.map_nil, List.mem_singleton] at hb
    have := (List.mem_filter.1 hp).2
    simpa [hb] using this

/-- `ZRANGEBYSCORE lo hi LIMIT 0 limit`: by score, then by member. -/
def zrangebyscore [LinearOrder κ] (z : ZSet κ) (lo hi : Int) (limit : Nat) : List κ :=
  (((z.items.filter fun p => lo ≤ p.2 && p.2 ≤ hi).insertionSort
    fun p q => p.2 < q.2 ∨ (p.2 = q.2 ∧ p.1 ≤ q.1)).map Prod.fst).take limit

variable {z : ZSet κ} {k j : κ} {s : Int}

@[simp] theorem score?_empty : (empty : ZSet κ).score? k = none := rfl

theorem score?_zrem (ks : List κ) :
    (z.zrem ks).score? j = if j ∈ ks then none else z.score? j := by
  unfold score? zrem
  rw [List.find?_filter]
  split
  · rename_i h
    rw [List.find?_eq_none.2 (by
      intro p _ hp
      simp only [decide_not, Bool.not_eq_eq_eq_not, Bool.not_true,
        decide_eq_false_iff_not, decide_eq_true_eq] at hp
      exact hp.1 (hp.2 ▸ h))]
    rfl
  · rename_i h
    congr 2
    funext p
    by_cases hp : p.1 = j <;> simp [hp, h]

theorem score?_zadd : (z.zadd k s).score? j = if j = k then some s else z.score? j := by
  have h : (z.zadd k s).score? j =
      ((z.zrem [k]).items.find? (fun p => p.1 = j) <|>
        if k = j then some (k, s) else none).map Prod.snd := by
    unfold score? zadd
    rw [List.find?_append]
    by_cases hk : k = j <;> simp [hk]
  have hrem := score?_zrem (z := z) (j := j) [k]
  unfold score? at hrem
  by_cases hk : j = k
  · subst hk
    simp only [List.mem_singleton, if_true] at hrem
    rw [Option.map_eq_none_iff] at hrem
    simp [h, hrem]
  · have hk' : ¬ k = j := fun he => hk he.symm
    simp only [List.mem_singleton, hk, if_false] at hrem
    rw [h]
    simp only [hk', if_false, hk]
    simpa [score?] using hrem

theorem mem_items_iff : (k, s) ∈ z.items ↔ z.score? k = some s := by
  unfold score?
  constructor
  · intro h
    cases hf : z.items.find? (fun p => p.1 = k) with
    | none => exact absurd h (fun he => by simpa using List.find?_eq_none.1 hf (k, s) he)
    | some q =>
      have hq : q.1 = k := by simpa using List.find?_some hf
      rw [List.inj_on_of_nodup_map z.nodup (List.mem_of_find?_eq_some hf) h hq]
      rfl
  · intro h
    obtain ⟨p, hp, rfl⟩ := Option.map_eq_some_iff.1 h
    have hk : p.1 = k := by simpa using List.find?_some hp
    rw [← hk]
    exact List.mem_of_find?_eq_some hp

theorem mem_zrangebyscore [LinearOrder κ] {lo hi : Int} {limit : Nat}
    (h : k ∈ z.zrangebyscore lo hi limit) : ∃ s, z.score? k = some s ∧ lo ≤ s ∧ s ≤ hi := by
  have h' := List.mem_of_mem_take h
  obtain ⟨p, hp, rfl⟩ := List.mem_map.1 h'
  rw [List.mem_insertionSort, List.mem_filter] at hp
  obtain ⟨hp, hs⟩ := hp
  simp only [Bool.and_eq_true, decide_eq_true_eq] at hs
  exact ⟨p.2, mem_items_iff.1 hp, hs⟩

end ZSet

end Store
