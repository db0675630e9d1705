import Mathlib.Data.List.Sort

/-! `ORDER BY` a key. Where the keys of a list are distinct there is one ordered
list, so the order commutes with every filter. -/

namespace Store

variable {α κ : Type} [LinearOrder κ] {key : α → κ} {l l' : List α}

def orderBy (key : α → κ) (l : List α) : List α := l.insertionSort fun a b => key a ≤ key b

@[simp] theorem mem_orderBy {a : α} : a ∈ orderBy key l ↔ a ∈ l := List.mem_insertionSort _

theorem perm_orderBy (key : α → κ) (l : List α) : (orderBy key l).Perm l :=
  List.perm_insertionSort _ l

theorem orderBy_sorted (h : (l.map key).Nodup) :
    (orderBy key l).Pairwise fun a b => key a < key b := by
  have htotal : Std.Total fun a b : α => key a ≤ key b := ⟨fun a b => le_total _ _⟩
  have htrans : IsTrans α fun a b => key a ≤ key b := ⟨fun a b c hab hbc => hab.trans hbc⟩
  have hle := List.pairwise_insertionSort (fun a b : α => key a ≤ key b) l
  have hne : (orderBy key l).Pairwise fun a b => key a ≠ key b := by
    rw [← List.pairwise_map (f := key) (R := fun x y => x ≠ y)]
    exact ((perm_orderBy key l).map key).nodup_iff.2 h
  exact (hle.and hne).imp fun h => lt_of_le_of_ne h.1 h.2

/-- A list in strictly increasing order is the only ordered form of its members. -/
theorem orderBy_eq (h : (l.map key).Nodup) (hs : l'.Pairwise fun a b => key a < key b)
    (hm : ∀ a, a ∈ l' ↔ a ∈ l) : orderBy key l = l' := by
  have hirrefl : Std.Irrefl fun a b : α => key a < key b := ⟨fun a => lt_irrefl _⟩
  have hanti : Std.Antisymm fun a b : α => key a < key b :=
    ⟨fun a b hab hba => absurd hab (lt_asymm hba)⟩
  refine List.Pairwise.eq_of_mem_iff (orderBy_sorted h) hs fun a => ?_
  rw [mem_orderBy, hm]

theorem orderBy_perm (hp : l.Perm l') (h : (l.map key).Nodup) : orderBy key l = orderBy key l' := by
  apply orderBy_eq h
  · exact orderBy_sorted ((hp.map key).nodup_iff.1 h)
  · intro a
    rw [mem_orderBy, hp.mem_iff]

theorem orderBy_filter (h : (l.map key).Nodup) (p : α → Bool) :
    orderBy key (l.filter p) = (orderBy key l).filter p := by
  apply orderBy_eq
  · exact (List.filter_sublist.map key).nodup h
  · exact (orderBy_sorted h).filter p
  · intro a
    rw [List.mem_filter, List.mem_filter, mem_orderBy]

end Store
