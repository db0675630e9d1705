import JobProcessor.Store.Broker
import JobProcessor.Store.Dict
import Mathlib.Logic.Function.Basic

/-! Streams the way a server keeps them: the records of all streams, and for a stream
that has one its consumer group, which knows how far it has delivered, what is pending
and when each consumer was last seen. The delivery state of an entry is read off these. -/

namespace Store

structure Record (F : Type) where
  id : Nat
  stream : String
  fields : F
deriving DecidableEq, Repr

def Entry.record {F : Type} (e : Entry F) : Record F := ⟨e.id, e.stream, e.fields⟩

structure Pending where
  id : Nat
  consumer : String
  since : Int
deriving DecidableEq, Repr

def Pending.idle (p : Pending) (now minIdle : Int) : Bool := minIdle ≤ now - p.since

/-- A consumer group: it has been given the records of its stream below `upTo`, and
`consumers` is when it has last heard of each consumer. -/
structure Group where
  upTo : Nat
  pel : List Pending
  consumers : Dict String Int
  sorted : (pel.map Pending.id).Pairwise (· < ·)
  bound : ∀ p ∈ pel, p.id < upTo

namespace Group

def new (upTo : Nat) : Group := ⟨upTo, [], .empty, by simp, by simp⟩

/-- Where the group stands with the record of id `i`. -/
def state (g : Group) (i : Nat) : Delivery :=
  match g.pel.find? fun p => p.id = i with
  | some p => .pending p.consumer p.since
  | none => if i < g.upTo then .acked else .undelivered

def touch (g : Group) (consumer : String) (now : Int) : Group :=
  { g with consumers := g.consumers.set consumer now }

def give (g : Group) (consumer : String) (now : Int) (i : Nat) : Group :=
  if h : g.upTo ≤ i then
    { g with
      upTo := i + 1
      pel := g.pel ++ [⟨i, consumer, now⟩]
      sorted := by
        rw [List.map_append, List.pairwise_append]
        refine ⟨g.sorted, by simp, ?_⟩
        intro j hj k hk
        obtain ⟨p, hp, rfl⟩ := List.mem_map.1 hj
        simp only [List.map_cons, List.map_nil, List.mem_singleton] at hk
        exact hk ▸ Nat.lt_of_lt_of_le (g.bound p hp) h
      bound := by
        intro p hp
        rcases List.mem_append.1 hp with hp | hp
        · exact Nat.lt_succ_of_lt (Nat.lt_of_lt_of_le (g.bound p hp) h)
        · rw [List.mem_singleton.1 hp]
          exact Nat.lt_succ_self i }
  else g

def giveAll (consumer : String) (now : Int) : List Nat → Group → Group
  | [], g => g
  | i :: is, g => giveAll consumer now is (g.give consumer now i)

theorem mem_give {g : Group} {consumer : String} {now : Int} {i : Nat} {p : Pending}
    (h : p ∈ (g.give consumer now i).pel) : p ∈ g.pel ∨ p.id = i := by
  unfold give at h
  split at h
  · rcases List.mem_append.1 h with h | h
    · exact .inl h
    · exact .inr (by rw [List.mem_singleton.1 h])
  · exact .inl h

theorem mem_giveAll {consumer : String} {now : Int} {is : List Nat} {g : Group} {p : Pending}
    (h : p ∈ (giveAll consumer now is g).pel) : p ∈ g.pel ∨ p.id ∈ is := by
  induction is generalizing g with
  | nil => exact .inl h
  | cons i is ih =>
    rcases ih h with h | h
    · rcases mem_give h with h | h
      · exact .inl h
      · exact .inr (h ▸ List.mem_cons_self)
    · exact .inr (List.mem_cons_of_mem _ h)

theorem upTo_giveAll {consumer : String} {now : Int} {is : List Nat} {g : Group} {n : Nat}
    (hg : g.upTo ≤ n) (hi : ∀ i ∈ is, i < n) : (giveAll consumer now is g).upTo ≤ n := by
  induction is generalizing g with
  | nil => exact hg
  | cons i is ih =>
    apply ih
    · unfold give
      split
      · exact hi i List.mem_cons_self
      · exact hg
    · exact fun j hj => hi j (List.mem_cons_of_mem _ hj)

def ack (g : Group) (i : Nat) : Group :=
  { g with
    pel := g.pel.filter fun p => p.id ≠ i
    sorted := g.sorted.sublist (List.filter_sublist.map Pending.id)
    bound := fun p hp => g.bound p (List.mem_of_mem_filter hp) }

def claim (g : Group) (consumer : String) (now : Int) (ids : List Nat) : Group :=
  { g with
    pel := g.pel.map fun p => if p.id ∈ ids then ⟨p.id, consumer, now⟩ else p
    sorted := by
      have h : (Pending.id ∘ fun p => if p.id ∈ ids then ⟨p.id, consumer, now⟩ else p) =
          Pending.id := by
        funext p
        simp only [Function.comp_apply]
        split <;> rfl
      rw [List.map_map, h]
      exact g.sorted
    bound := by
      intro p hp
      obtain ⟨q, hq, rfl⟩ := List.mem_map.1 hp
      split
      · exact g.bound q hq
      · exact g.bound q hq }

/-- The scan of `XAUTOCLAIM`: at most `attempts` pending records are looked at and at
most `count` taken. Returns them with the id to go on from. -/
def scan (now minIdle : Int) : Nat → Nat → List Pending → List Pending × Option Nat
  | _, _, [] => ([], none)
  | 0, _, p :: _ => ([], some p.id)
  | _ + 1, 0, p :: _ => ([], some p.id)
  | a + 1, n + 1, p :: ps =>
    if p.idle now minIdle then
      let (got, cur) := scan now minIdle a n ps
      (p :: got, cur)
    else scan now minIdle a (n + 1) ps

end Group

/-- The records of all streams, oldest first, and the group of each stream. -/
structure Log (F : Type) where
  records : List (Record F)
  next : Nat
  groups : String → Option Group
  sorted : (records.map Record.id).Pairwise (· < ·)
  bound : ∀ r ∈ records, r.id < next
  reached : ∀ s g, groups s = some g → g.upTo ≤ next
  held : ∀ s g, groups s = some g → ∀ p ∈ g.pel, ∃ r ∈ records, r.stream = s ∧ r.id = p.id

namespace Log

variable {F : Type}

def empty : Log F := ⟨[], 0, fun _ => none, by simp, by simp, by simp, by simp⟩

def setGroup (l : Log F) (s : String) (g : Group) (hg : g.upTo ≤ l.next)
    (hp : ∀ p ∈ g.pel, ∃ r ∈ l.records, r.stream = s ∧ r.id = p.id) : Log F where
  records := l.records
  next := l.next
  groups := Function.update l.groups s (some g)
  sorted := l.sorted
  bound := l.bound
  reached := by
    intro t g' ht
    rw [Function.update_apply] at ht
    split at ht
    · rw [Option.some.injEq] at ht
      exact ht ▸ hg
    · exact l.reached t g' ht
  held := by
    intro t g' ht
    rw [Function.update_apply] at ht
    split at ht
    · rename_i hts
      rw [Option.some.injEq] at ht
      exact ht ▸ hts ▸ hp
    · exact l.held t g' ht

/-- The bound below which the stream has all its records. -/
def endOf (l : Log F) (s : String) : Nat :=
  match (l.records.filter fun r => r.stream = s).getLast? with
  | none => 0
  | some r => r.id + 1

theorem endOf_le (l : Log F) (s : String) : l.endOf s ≤ l.next := by
  unfold endOf
  split
  · exact Nat.zero_le _
  · rename_i r hr
    exact l.bound r (List.mem_of_mem_filter (List.mem_of_getLast? hr))

/-- `XGROUP CREATE stream group $ MKSTREAM`; `none` is the error `BUSYGROUP`. -/
def xgroupCreate (l : Log F) (s : String) : Option (Log F) :=
  match l.groups s with
  | some _ => none
  | none => some (l.setGroup s (.new (l.endOf s)) (by exact l.endOf_le s) (by simp [Group.new]))

def xadd (l : Log F) (s : String) (f : F) : Log F where
  records := l.records ++ [⟨l.next, s, f⟩]
  next := l.next + 1
  groups := l.groups
  sorted := by
    rw [List.map_append, List.pairwise_append]
    refine ⟨l.sorted, by simp, ?_⟩
    intro i hi j hj
    obtain ⟨r, hr, rfl⟩ := List.mem_map.1 hi
    simp only [List.map_cons, List.map_nil, List.mem_singleton] at hj
    exact hj ▸ l.bound r hr
  bound := by
    intro r hr
    rcases List.mem_append.1 hr with hr | hr
    · exact Nat.lt_succ_of_lt (l.bound r hr)
    · rw [List.mem_singleton.1 hr]
      exact Nat.lt_succ_self _
  reached := fun t g h => Nat.le_succ_of_le (l.reached t g h)
  held := by
    intro t g h p hp
    obtain ⟨r, hr, hrt⟩ := l.held t g h p hp
    exact ⟨r, List.mem_append_left _ hr, hrt⟩

/-- The records of a stream the group has not been given. -/
def behind (l : Log F) (s : String) (g : Group) : List (Record F) :=
  l.records.filter fun r => r.stream = s && g.upTo ≤ r.id

theorem mem_behind {l : Log F} {s : String} {g : Group} {r : Record F} :
    r ∈ l.behind s g ↔ r ∈ l.records ∧ r.stream = s ∧ g.upTo ≤ r.id := by
  simp [behind]

/-- `XREADGROUP` on one stream: the group is given up to `count` more records. -/
def serve (l : Log F) (consumer : String) (now : Int) (count : Nat) (s : String) :
    Log F × List (Record F) :=
  match h : l.groups s with
  | none => (l, [])
  | some g =>
    let rs := (l.behind s g).take count
    have hrs : ∀ r ∈ rs, r ∈ l.records ∧ r.stream = s := fun r hr =>
      ⟨(mem_behind.1 (List.mem_of_mem_take hr)).1, (mem_behind.1 (List.mem_of_mem_take hr)).2.1⟩
    (l.setGroup s (.giveAll consumer now (rs.map Record.id) (g.touch consumer now))
      (Group.upTo_giveAll (l.reached s g h) (by
        intro i hi
        obtain ⟨r, hr, rfl⟩ := List.mem_map.1 hi
        exact l.bound r (hrs r hr).1))
      (by
        intro p hp
        rcases Group.mem_giveAll hp with hp | hp
        · exact l.held s g h p hp
        · obtain ⟨r, hr, hid⟩ := List.mem_map.1 hp
          exact ⟨r, (hrs r hr).1, (hrs r hr).2, hid⟩), rs)

def serveAll (consumer : String) (now : Int) (count : Nat) :
    List String → Log F → Log F × List (Record F)
  | [], l => (l, [])
  | s :: ss, l =>
    let (l', rs) := l.serve consumer now count s
    let (l'', rs') := serveAll consumer now count ss l'
    (l'', rs ++ rs')

/-- `XREADGROUP … STREAMS streams > …`; `none` is the error `NOGROUP`. -/
def xreadgroup (l : Log F) (consumer : String) (streams : List String) (count : Nat) (now : Int) :
    Option (Log F × List (Record F)) :=
  if streams.all fun s => (l.groups s).isSome then
    some (serveAll consumer now count streams l)
  else none

def xack (l : Log F) (s : String) (i : Nat) : Log F :=
  match h : l.groups s with
  | none => l
  | some g =>
    l.setGroup s (g.ack i) (by exact l.reached s g h)
      (by exact fun p hp => l.held s g h p (List.mem_of_mem_filter hp))

def find? (l : Log F) (s : String) (i : Nat) : Option (Record F) :=
  l.records.find? fun r => r.stream = s && r.id = i

/-- `XAUTOCLAIM`; `none` is the error `NOGROUP`. -/
def xautoclaim (l : Log F) (s consumer : String) (minIdle : Int) (start count : Nat) (now : Int) :
    Option (Log F × Option Nat × List (Record F)) :=
  match h : l.groups s with
  | none => none
  | some g =>
    let r := Group.scan now minIdle (count * 10) count (g.pel.filter fun p => start ≤ p.id)
    some (l.setGroup s ((g.touch consumer now).claim consumer now (r.1.map Pending.id))
      (by exact l.reached s g h) (by
        intro p hp
        obtain ⟨q, hq, rfl⟩ := List.mem_map.1 hp
        split
        · exact l.held s g h q hq
        · exact l.held s g h q hq), r.2, r.1.filterMap fun p => l.find? s p.id)

/-! ### The delivery states -/

def state (l : Log F) (r : Record F) : Delivery :=
  match l.groups r.stream with
  | none => .undelivered
  | some g => g.state r.id

/-- The entries with their delivery states. -/
def view (l : Log F) : Streams F where
  entries := l.records.map fun r => ⟨r.id, r.stream, r.fields, l.state r⟩
  next := l.next
  sorted := by
    rw [List.map_map]
    exact l.sorted
  bound := by
    intro e he
    obtain ⟨r, hr, rfl⟩ := List.mem_map.1 he
    exact l.bound r hr

/-- When the group of a stream has last heard of a consumer. -/
def seen (l : Log F) (s consumer : String) : Option Int :=
  (l.groups s).bind fun g => g.consumers.get? consumer

end Log

end Store
