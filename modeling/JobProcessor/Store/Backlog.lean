import JobProcessor.Store.Broker
import JobProcessor.Store.Table
import Mathlib.Algebra.GroupWithZero.Nat
import Mathlib.Data.List.Perm.Basic

/-! How much is still to be done: the undelivered entries of some streams, the members
of a sorted set and the weights of the rows of a table, and what each operation does
to these numbers. -/

namespace Store

namespace Streams

variable {F : Type} {b : Streams F} {e : Entry F} {ss : List String}

/-- An entry of one of the streams that was not delivered. -/
def waits (ss : List String) (e : Entry F) : Bool :=
  decide (e.stream ∈ ss) && decide (e.state = .undelivered)

def waiting (b : Streams F) (ss : List String) : Nat := b.entries.countP (waits ss)

theorem waiting_xadd (b : Streams F) (ss : List String) (stream : String) (f : F) :
    (b.xadd stream f).waiting ss ≤ b.waiting ss + 1 := by
  have h : (b.xadd stream f).waiting ss =
      b.waiting ss + [(⟨b.next, stream, f, .undelivered⟩ : Entry F)].countP (waits ss) :=
    List.countP_append
  rw [h]
  exact Nat.add_le_add_left List.countP_le_length _

theorem waiting_xack (b : Streams F) (ss : List String) (stream : String) (i : Nat) :
    (b.xack stream i).waiting ss = b.waiting ss := by
  unfold waiting xack restate
  rw [List.countP_map]
  apply List.countP_congr
  rintro ⟨id, s, f, st⟩ -
  cases st with
  | pending c t =>
    dsimp only [Function.comp_apply]
    split <;> simp [waits]
  | _ => rfl

theorem waiting_deliver (consumer : String) (now : Int) (he : e ∈ b.entries)
    (hw : waits ss e = true) :
    (b.deliver consumer now [e.id]).waiting ss + 1 = b.waiting ss := by
  obtain ⟨pre, post, hsplit⟩ := List.append_of_mem he
  have hn := b.nodup_ids
  rw [hsplit, List.map_append, List.map_cons, List.nodup_append, List.nodup_cons] at hn
  obtain ⟨-, ⟨hpost, -⟩, hpre⟩ := hn
  have hsame : ∀ l : List (Entry F), (∀ e' ∈ l, e'.id ≠ e.id) →
      (l.map fun e' => { e' with
        state := if e'.id ∈ [e.id] then .pending consumer now else e'.state }).countP (waits ss) =
          l.countP (waits ss) := by
    intro l hl
    rw [List.countP_map]
    apply List.countP_congr
    intro e' he'
    simp [waits, hl e' he']
  change (b.entries.map fun e' => { e' with
    state := if e'.id ∈ [e.id] then .pending consumer now else e'.state }).countP (waits ss) + 1 =
      b.entries.countP (waits ss)
  rw [hsplit, List.map_append, List.map_cons, List.countP_append, List.countP_append,
    List.countP_cons_of_pos hw, List.countP_cons_of_neg (by simp [waits])]
  rw [hsame pre, hsame post]
  · omega
  · exact fun e' he' hid => hpost (hid ▸ List.mem_map.2 ⟨e', he', rfl⟩)
  · exact fun e' he' hid => hpre _ (List.mem_map.2 ⟨e', he', rfl⟩) _ List.mem_cons_self hid

theorem mem_deliver {e' : Entry F} (consumer : String) (now : Int) (he : e' ∈ b.entries)
    (hid : e'.id ≠ e.id) : e' ∈ (b.deliver consumer now [e.id]).entries := by
  refine List.mem_map.2 ⟨e', he, ?_⟩
  simp [hid]

theorem mem_xack (stream : String) (i : Nat) (he : e ∈ b.entries) (hu : e.state = .undelivered) :
    e ∈ (b.xack stream i).entries := by
  refine List.mem_map.2 ⟨e, he, ?_⟩
  cases e
  subst hu
  rfl

theorem deliver_nil (b : Streams F) (consumer : String) (now : Int) :
    b.deliver consumer now [] = b := by
  cases b
  simp [deliver, restate]

def xaddMany (b : Streams F) (qs : List (String × F)) : Streams F :=
  qs.foldl (fun b q => b.xadd q.1 q.2) b

theorem waiting_xaddMany (b : Streams F) (ss : List String) (qs : List (String × F)) :
    (b.xaddMany qs).waiting ss ≤ b.waiting ss + qs.length := by
  induction qs generalizing b with
  | nil => exact Nat.le_refl _
  | cons q qs ih =>
    refine (ih (b.xadd q.1 q.2)).trans ?_
    have := waiting_xadd b ss q.1 q.2
    rw [List.length_cons]
    omega

theorem mem_xaddMany (h : e ∈ b.entries) (qs : List (String × F)) :
    e ∈ (b.xaddMany qs).entries := by
  induction qs generalizing b with
  | nil => exact h
  | cons q qs ih => exact ih (List.mem_append_left _ h)

theorem added_xaddMany {q : String × F} {qs : List (String × F)} (h : q ∈ qs) (b : Streams F) :
    ∃ e ∈ (b.xaddMany qs).entries, e.stream = q.1 ∧ e.fields = q.2 ∧ e.state = .undelivered := by
  induction qs generalizing b with
  | nil => cases h
  | cons q' qs ih =>
    rcases List.mem_cons.1 h with rfl | h
    · refine ⟨⟨b.next, q.1, q.2, .undelivered⟩, mem_xaddMany ?_ qs, rfl, rfl, rfl⟩
      exact List.mem_append_right _ List.mem_cons_self
    · exact ih h (b.xadd q'.1 q'.2)

end Streams

namespace ZSet

variable {κ : Type} [DecidableEq κ] {z : ZSet κ}

def size (z : ZSet κ) : Nat := z.items.length

theorem size_zadd (z : ZSet κ) (k : κ) (s : Int) : (z.zadd k s).size ≤ z.size + 1 := by
  unfold size zadd zrem
  rw [List.length_append]
  exact Nat.add_le_add_right (List.length_filter_le _ _) 1

theorem size_zrem {ks : List κ} (hn : ks.Nodup) (hk : ∀ k ∈ ks, ∃ s, z.score? k = some s) :
    (z.zrem ks).size + ks.length = z.size := by
  have hperm : ((z.items.map Prod.fst).filter fun k => k ∈ ks).Perm ks := by
    rw [List.perm_ext_iff_of_nodup (z.nodup.filter _) hn]
    intro k
    rw [List.mem_filter, decide_eq_true_eq]
    refine ⟨fun h => h.2, fun h => ⟨?_, h⟩⟩
    obtain ⟨s, hs⟩ := hk k h
    exact List.mem_map.2 ⟨(k, s), mem_items_iff.2 hs, rfl⟩
  have hlen := hperm.length_eq
  rw [List.filter_map, List.length_map] at hlen
  have hsplit := List.length_eq_length_filter_add (l := z.items) fun p => decide (p.1 ∈ ks)
  have hrest : (z.zrem ks).size = (z.items.filter fun p => !decide (p.1 ∈ ks)).length := by
    unfold size zrem
    simp only [decide_not]
  rw [hrest, ← hlen]
  unfold size
  rw [hsplit, Nat.add_comm]
  rfl

end ZSet

namespace Table

variable {α κ υ : Type} {key : α → κ} {index : α → Option υ} {t t' : Table key index}

def total (t : Table key index) (weight : α → Nat) : Nat := (t.rows.map weight).sum

variable [DecidableEq κ] {k : κ} {r r' : α}

theorem total_split (weight : α → Nat) (h : t.find? k = some r) :
    t.total weight = weight r + ((t.rows.filter fun x => !decide (key x = k)).map weight).sum := by
  have hone : (t.rows.filter fun x => key x = k).Perm [r] := by
    rw [List.perm_ext_iff_of_nodup ((List.Nodup.of_map key t.key_nodup).filter _)
      (List.nodup_singleton r)]
    intro x
    rw [List.mem_filter, decide_eq_true_eq, List.mem_singleton]
    constructor
    · rintro ⟨hx, rfl⟩
      rw [find?_of_mem hx, Option.some.injEq] at h
      exact h
    · rintro rfl
      exact ⟨find?_mem h, find?_key h⟩
  have hall := (List.filter_append_perm (fun x => decide (key x = k)) t.rows).symm
  rw [total, ((hall.trans (hone.append_right _)).map weight).sum_nat]
  simp

/-- When one row changes, the total changes as its weight does. -/
theorem total_change (weight : α → Nat) (h : t.find? k = some r) (h' : t'.find? k = some r')
    (ho : ∀ i, i ≠ k → t'.find? i = t.find? i) :
    t'.total weight + weight r = t.total weight + weight r' := by
  have hrest : (t'.rows.filter fun x => !decide (key x = k)).Perm
      (t.rows.filter fun x => !decide (key x = k)) := by
    rw [List.perm_ext_iff_of_nodup ((List.Nodup.of_map key t'.key_nodup).filter _)
      ((List.Nodup.of_map key t.key_nodup).filter _)]
    intro x
    simp only [List.mem_filter, Bool.not_eq_eq_eq_not, Bool.not_true, decide_eq_false_iff_not]
    refine and_congr_left fun hx => ?_
    rw [mem_rows_iff, mem_rows_iff, ho _ hx]
  rw [total_split weight h, total_split weight h', (hrest.map weight).sum_nat]
  omega

end Table

end Store
