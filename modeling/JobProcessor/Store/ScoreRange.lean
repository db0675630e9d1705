import JobProcessor.Store.Broker
import JobProcessor.Store.Ordered
import Mathlib.Data.Prod.Lex

/-! The members of a sorted set with a score in a range, in the order Redis gives
them: a page is a prefix, and removing members keeps the order of the rest. -/

namespace Store.ZSet

variable {κ : Type} [DecidableEq κ] [LinearOrder κ] {z : ZSet κ} {lo hi s : Int} {k : κ}

/-- By score, then by member. -/
def place (p : κ × Int) : Int ×ₗ κ := toLex (p.2, p.1)

def range (z : ZSet κ) (lo hi : Int) : List κ :=
  (orderBy place (z.items.filter fun p => lo ≤ p.2 && p.2 ≤ hi)).map Prod.fst

omit [DecidableEq κ] in
theorem zrangebyscore_eq (z : ZSet κ) (lo hi : Int) (limit : Nat) :
    z.zrangebyscore lo hi limit = (z.range lo hi).take limit := by
  have hle : ∀ p q : κ × Int, (p.2 < q.2 ∨ (p.2 = q.2 ∧ p.1 ≤ q.1)) ↔ place p ≤ place q := by
    intro p q
    rw [place, place, Prod.Lex.le_iff]
    rfl
  unfold zrangebyscore range orderBy
  simp only [hle]

theorem mem_range : k ∈ z.range lo hi ↔ ∃ s, z.score? k = some s ∧ lo ≤ s ∧ s ≤ hi := by
  simp [range, mem_items_iff]

omit [DecidableEq κ] [LinearOrder κ] in
theorem nodup_place (z : ZSet κ) : (z.items.map place).Nodup := by
  have h : (z.items.map place).map (fun x => (ofLex x).2) = z.items.map Prod.fst := by
    rw [List.map_map]
    rfl
  exact List.Nodup.of_map _ (h ▸ z.nodup)

omit [DecidableEq κ] in
theorem nodup_range (z : ZSet κ) (lo hi : Int) : (z.range lo hi).Nodup :=
  ((perm_orderBy _ _).map Prod.fst).nodup_iff.2 ((List.filter_sublist.map _).nodup z.nodup)

theorem range_sorted (z : ZSet κ) (lo hi : Int) : (z.range lo hi).Pairwise fun i j =>
    ∀ s ∈ z.score? i, ∀ t ∈ z.score? j, s ≤ t := by
  have hnodup : ((z.items.filter fun p => lo ≤ p.2 && p.2 ≤ hi).map place).Nodup :=
    (List.filter_sublist.map _).nodup z.nodup_place
  rw [range, List.pairwise_map]
  refine (orderBy_sorted hnodup).imp_of_mem ?_
  intro p q hp hq hlt s hs t ht
  have hp' := mem_items_iff.1 (List.mem_of_mem_filter (mem_orderBy.1 hp))
  have hq' := mem_items_iff.1 (List.mem_of_mem_filter (mem_orderBy.1 hq))
  rw [hp'] at hs
  rw [hq'] at ht
  cases hs
  cases ht
  rcases (Prod.Lex.le_iff).1 hlt.le with h | h
  · exact le_of_lt h
  · exact le_of_eq h.1

theorem range_zrem (z : ZSet κ) (lo hi : Int) (ks : List κ) :
    (z.zrem ks).range lo hi = (z.range lo hi).filter fun k => k ∉ ks := by
  have hnodup : ((z.items.filter fun p => lo ≤ p.2 && p.2 ≤ hi).map place).Nodup :=
    (List.filter_sublist.map _).nodup z.nodup_place
  have hitems : (z.zrem ks).items.filter (fun p => lo ≤ p.2 && p.2 ≤ hi) =
      (z.items.filter fun p => lo ≤ p.2 && p.2 ≤ hi).filter fun p => p.1 ∉ ks := by
    unfold zrem
    rw [List.filter_filter, List.filter_filter]
    exact List.filter_congr fun p _ => Bool.and_comm _ _
  rw [range, hitems, orderBy_filter hnodup, range, List.filter_map]
  rfl

omit [LinearOrder κ] in
theorem zrem_nil (z : ZSet κ) : z.zrem [] = z := by
  cases z
  simp [zrem]

omit [LinearOrder κ] in
theorem zrem_zrem (z : ZSet κ) (ks ks' : List κ) : (z.zrem ks).zrem ks' = z.zrem (ks ++ ks') := by
  unfold zrem
  congr 1
  rw [List.filter_filter]
  apply List.filter_congr
  intro p _
  by_cases h : p.1 ∈ ks <;> simp [h]

end Store.ZSet
