import Mathlib.Data.List.Nodup
import Mathlib.Data.Finset.Card

/-! A dictionary that keeps insertion order: a new key goes to the end, a key that is
set again stays where it is. -/

namespace Store

structure Dict (κ α : Type) where
  items : List (κ × α)
  nodup : (items.map Prod.fst).Nodup

namespace Dict

variable {κ α : Type}

def empty : Dict κ α := ⟨[], List.nodup_nil⟩

def size (d : Dict κ α) : Nat := d.items.length

/-- The first key, the one inserted longest ago. -/
def oldest? (d : Dict κ α) : Option κ := d.items.head?.map Prod.fst

def filter (d : Dict κ α) (p : κ × α → Bool) : Dict κ α where
  items := d.items.filter p
  nodup := (List.filter_sublist.map Prod.fst).nodup d.nodup

@[simp] theorem size_empty : (empty : Dict κ α).size = 0 := rfl

theorem size_filter_le (d : Dict κ α) (p : κ × α → Bool) : (d.filter p).size ≤ d.size :=
  List.length_filter_le p d.items

theorem oldest?_isSome {d : Dict κ α} (h : 0 < d.size) : ∃ k, d.oldest? = some k := by
  obtain ⟨items, hn⟩ := d
  cases items with
  | nil => cases h
  | cons p ps => exact ⟨p.1, rfl⟩

/-- The key `k` is there, and behind it come only keys of `ks`. -/
def Behind (d : Dict κ α) (k : κ) (ks : Finset κ) : Prop :=
  ∃ pre v post, d.items = pre ++ (k, v) :: post ∧ ∀ p ∈ post, p.1 ∈ ks

theorem ne_of_behind {d : Dict κ α} {k : κ} {v : α} {pre post : List (κ × α)}
    (h : d.items = pre ++ (k, v) :: post) : ∀ p ∈ post, p.1 ≠ k := by
  have hn := d.nodup
  rw [h, List.map_append, List.map_cons] at hn
  have hk := (List.nodup_cons.1 (List.nodup_append.1 hn).2.1).1
  rintro p hp rfl
  exact hk (List.mem_map.2 ⟨p, hp, rfl⟩)

theorem Behind.mono {d : Dict κ α} {k : κ} {ks ks' : Finset κ} (h : d.Behind k ks)
    (hsub : ks ⊆ ks') : d.Behind k ks' := by
  obtain ⟨pre, v, post, heq, hks⟩ := h
  exact ⟨pre, v, post, heq, fun p hp => hsub (hks p hp)⟩

variable [DecidableEq κ]

def get? (d : Dict κ α) (k : κ) : Option α := (d.items.find? fun p => p.1 = k).map Prod.snd

def erase (d : Dict κ α) (k : κ) : Dict κ α := d.filter fun p => p.1 ≠ k

def put (k : κ) (v : α) : List (κ × α) → List (κ × α)
  | [] => [(k, v)]
  | p :: ps => if p.1 = k then (k, v) :: ps else p :: put k v ps

theorem mem_keys_put {k k' : κ} {v : α} {items : List (κ × α)} :
    k' ∈ (put k v items).map Prod.fst ↔ k' = k ∨ k' ∈ items.map Prod.fst := by
  induction items with
  | nil => simp [put]
  | cons p ps ih =>
    rw [put]
    split
    · rename_i hp
      simp [hp]
    · rw [List.map_cons, List.mem_cons, ih, List.map_cons, List.mem_cons]
      grind

def set (d : Dict κ α) (k : κ) (v : α) : Dict κ α where
  items := put k v d.items
  nodup := by
    obtain ⟨items, hn⟩ := d
    induction items with
    | nil => simp [put]
    | cons p ps ih =>
      rw [List.map_cons, List.nodup_cons] at hn
      simp only [put]
      split
      · rename_i hp
        rw [List.map_cons, List.nodup_cons]
        exact ⟨hp ▸ hn.1, hn.2⟩
      · rename_i hp
        rw [List.map_cons, List.nodup_cons, mem_keys_put]
        refine ⟨?_, ih hn.2⟩
        rintro (h | h)
        · exact hp h
        · exact hn.1 h

@[simp] theorem get?_empty (k : κ) : (empty : Dict κ α).get? k = none := rfl

theorem mem_of_get? {d : Dict κ α} {k : κ} {v : α} (h : d.get? k = some v) : (k, v) ∈ d.items := by
  unfold get? at h
  rw [Option.map_eq_some_iff] at h
  obtain ⟨p, hp, rfl⟩ := h
  have hk := List.find?_some hp
  rw [decide_eq_true_eq] at hk
  rw [← hk]
  exact List.mem_of_find?_eq_some hp

theorem get?_of_mem {d : Dict κ α} {k : κ} {v : α} (h : (k, v) ∈ d.items) : d.get? k = some v := by
  obtain ⟨items, hn⟩ := d
  induction items with
  | nil => cases h
  | cons p ps ih =>
    rw [List.map_cons, List.nodup_cons] at hn
    rcases List.mem_cons.1 h with rfl | h
    · simp [get?]
    · have hp : ¬ p.1 = k := by
        rintro rfl
        exact hn.1 (List.mem_map.2 ⟨_, h, rfl⟩)
      have := ih hn.2 h
      simpa [get?, hp] using this

theorem get?_filter {d : Dict κ α} {p : κ × α → Bool} {k : κ} {v : α}
    (h : (d.filter p).get? k = some v) : d.get? k = some v :=
  get?_of_mem (List.mem_of_mem_filter (mem_of_get? h))

theorem get?_set (d : Dict κ α) (k k' : κ) (v : α) :
    (d.set k v).get? k' = if k = k' then some v else d.get? k' := by
  change ((put k v d.items).find? fun p => p.1 = k').map Prod.snd =
    if k = k' then some v else (d.items.find? fun p => p.1 = k').map Prod.snd
  induction d.items with
  | nil => by_cases hk : k = k' <;> simp [put, hk]
  | cons p ps ih =>
    rw [put]
    by_cases hp : p.1 = k
    · rw [if_pos hp]
      by_cases hk : k = k'
      · simp [hk]
      · simp [hk, hp]
    · rw [if_neg hp]
      by_cases hk : p.1 = k'
      · have : ¬ k = k' := fun h => hp (hk.trans h.symm)
        simp [hk, this]
      · rw [List.find?_cons_of_neg (by simpa using hk), ih]
        simp [hk]

theorem size_set (d : Dict κ α) (k : κ) (v : α) :
    (d.set k v).size = d.size + if (d.get? k).isSome then 0 else 1 := by
  change (put k v d.items).length =
    d.items.length + if ((d.items.find? fun p => p.1 = k).map Prod.snd).isSome then 0 else 1
  induction d.items with
  | nil => rfl
  | cons p ps ih =>
    rw [put]
    by_cases hp : p.1 = k
    · simp [hp]
    · rw [if_neg hp, List.length_cons, List.length_cons, ih,
        List.find?_cons_of_neg (by simpa using hp)]
      omega

theorem size_erase_oldest {d : Dict κ α} {k : κ} (h : d.oldest? = some k) :
    (d.erase k).size + 1 = d.size := by
  obtain ⟨items, hn⟩ := d
  cases items with
  | nil => cases h
  | cons p ps =>
    simp only [oldest?, List.head?_cons, Option.map_some, Option.some.injEq] at h
    subst h
    rw [List.map_cons, List.nodup_cons] at hn
    have hall : ∀ q ∈ ps, decide (q.1 ≠ p.1) = true := by
      intro q hq
      rw [decide_eq_true_eq]
      intro he
      exact hn.1 (he ▸ List.mem_map.2 ⟨q, hq, rfl⟩)
    change (List.filter (fun q => decide (q.1 ≠ p.1)) (p :: ps)).length + 1 = _
    rw [List.filter_cons_of_neg (by simp), List.filter_eq_self.2 hall]
    rfl

theorem get?_foldl_set_of_notMem {items : List (κ × α)} {d : Dict κ α} {k : κ}
    (hk : k ∉ items.map Prod.fst) :
    (items.foldl (fun d q => d.set q.1 q.2) d).get? k = d.get? k := by
  induction items generalizing d with
  | nil => rfl
  | cons q items ih =>
    rw [List.map_cons, List.mem_cons, not_or] at hk
    rw [List.foldl_cons, ih hk.2, get?_set, if_neg (Ne.symm hk.1)]

theorem get?_foldl_set {items : List (κ × α)} {d : Dict κ α} {k : κ} {v : α}
    (hn : (items.map Prod.fst).Nodup) (h : (k, v) ∈ items) :
    (items.foldl (fun d q => d.set q.1 q.2) d).get? k = some v := by
  induction items generalizing d with
  | nil => cases h
  | cons q items ih =>
    rw [List.map_cons, List.nodup_cons] at hn
    rw [List.foldl_cons]
    rcases List.mem_cons.1 h with rfl | h
    · rw [get?_foldl_set_of_notMem hn.1, get?_set, if_pos rfl]
    · exact ih hn.2 h

/-! ### The order of the keys -/

theorem Behind.erase {d : Dict κ α} {k : κ} {ks : Finset κ} (h : d.Behind k ks) :
    d.Behind k (ks.erase k) := by
  obtain ⟨pre, v, post, heq, hks⟩ := h
  exact ⟨pre, v, post, heq, fun p hp => Finset.mem_erase.2 ⟨ne_of_behind heq p hp, hks p hp⟩⟩

theorem Behind.filter {d : Dict κ α} {k : κ} {ks : Finset κ} {p : κ × α → Bool}
    (h : d.Behind k ks) (hp : ∀ v, d.get? k = some v → p (k, v) = true) :
    (d.filter p).Behind k ks := by
  obtain ⟨pre, v, post, heq, hks⟩ := h
  have hv : p (k, v) = true := hp v (get?_of_mem (by rw [heq]; simp))
  refine ⟨pre.filter p, v, post.filter p, ?_, fun q hq => hks q (List.mem_of_mem_filter hq)⟩
  change d.items.filter p = _
  rw [heq, List.filter_append, List.filter_cons_of_pos hv]

theorem get?_filter_of {d : Dict κ α} {p : κ × α → Bool} {k : κ} {v : α} (h : d.get? k = some v)
    (hp : p (k, v) = true) : (d.filter p).get? k = some v :=
  get?_of_mem (List.mem_filter.2 ⟨mem_of_get? h, hp⟩)

theorem get?_filter_none {d : Dict κ α} {p : κ × α → Bool} {k : κ} (h : d.get? k = none) :
    (d.filter p).get? k = none := by
  cases hf : (d.filter p).get? k with
  | none => rfl
  | some v =>
    rw [get?_filter hf] at h
    cases h

/-- A key that is set goes behind the others or stays where it was. -/
theorem Behind.set {d : Dict κ α} {k : κ} {ks : Finset κ} (h : d.Behind k ks) (k' : κ) (v : α) :
    (d.set k' v).Behind k (insert k' ks) := by
  obtain ⟨pre, w, post, heq, hks⟩ := h
  suffices hput : ∀ items : List (κ × α), items = pre ++ (k, w) :: post →
      ∃ pre' w' post', put k' v items = pre' ++ (k, w') :: post' ∧
        ∀ p ∈ post', p.1 ∈ insert k' ks from hput d.items heq
  clear heq
  induction pre with
  | nil =>
    rintro items rfl
    by_cases hk : k = k'
    · exact ⟨[], v, post, by simp [put, hk], fun p hp => Finset.mem_insert_of_mem (hks p hp)⟩
    · refine ⟨[], w, put k' v post, by simp [put, hk], fun p hp => ?_⟩
      rcases mem_keys_put.1 (List.mem_map_of_mem hp) with hp' | hp'
      · rw [hp']
        exact Finset.mem_insert_self _ _
      · obtain ⟨p', hmem, hp'⟩ := List.mem_map.1 hp'
        rw [← hp']
        exact Finset.mem_insert_of_mem (hks p' hmem)
  | cons q pre ih =>
    rintro items rfl
    obtain ⟨pre', w', post', heq, hks'⟩ := ih _ rfl
    rw [List.cons_append, put]
    split
    · exact ⟨(k', v) :: pre, w, post, rfl, fun p hp => Finset.mem_insert_of_mem (hks p hp)⟩
    · exact ⟨q :: pre', w', post', by rw [heq, List.cons_append], hks'⟩

theorem behind_set_new {d : Dict κ α} {k : κ} (h : d.get? k = none) (v : α) :
    (d.set k v).Behind k ∅ := by
  suffices hput : put k v d.items = d.items ++ [(k, v)] from ⟨d.items, v, [], hput, by simp⟩
  have hk : ∀ p ∈ d.items, ¬ p.1 = k := by
    rintro ⟨k', w⟩ hp rfl
    rw [get?_of_mem hp] at h
    cases h
  generalize d.items = items at hk
  induction items with
  | nil => rfl
  | cons p ps ih =>
    rw [put, if_neg (hk p List.mem_cons_self), ih fun q hq => hk q (List.mem_cons_of_mem _ hq)]
    rfl

/-- When `k` is the oldest key, all the others are behind it. -/
theorem Behind.size_le {d : Dict κ α} {k : κ} {ks : Finset κ} (h : d.Behind k ks)
    (hold : d.oldest? = some k) : d.size ≤ (ks.filter fun k' => (d.get? k').isSome).card + 1 := by
  obtain ⟨pre, v, post, heq, hks⟩ := h
  have hpre : pre = [] := by
    cases pre with
    | nil => rfl
    | cons p pre =>
      rw [oldest?, heq, List.cons_append, List.head?_cons, Option.map_some,
        Option.some.injEq] at hold
      have hn := d.nodup
      rw [heq, List.cons_append, List.map_cons, List.nodup_cons, hold] at hn
      exact absurd (by simp) hn.1
  subst hpre
  have hn := d.nodup
  rw [heq, List.nil_append, List.map_cons, List.nodup_cons] at hn
  have hsub : (post.map Prod.fst).toFinset ⊆ ks.filter fun k' => (d.get? k').isSome := by
    intro k' hk'
    obtain ⟨⟨k'', w⟩, hp, rfl⟩ := List.mem_map.1 (List.mem_toFinset.1 hk')
    refine Finset.mem_filter.2 ⟨hks _ hp, ?_⟩
    rw [get?_of_mem (v := w) (by rw [heq]; simp [hp])]
    rfl
  have hcard := Finset.card_le_card hsub
  rw [List.toFinset_card_of_nodup hn.2, List.length_map] at hcard
  rw [size, heq, List.nil_append, List.length_cons]
  omega

end Dict

/-! The keys of a dictionary built from a list of them. -/

section EraseDups

variable {κ : Type} [DecidableEq κ]

theorem nodup_eraseDups (ks : List κ) : ks.eraseDups.Nodup := by
  induction hn : ks.length using Nat.strong_induction_on generalizing ks with
  | h n ih =>
    cases ks with
    | nil => simp
    | cons k ks =>
      rw [List.eraseDups_cons, List.nodup_cons]
      refine ⟨?_, ih _ ?_ _ rfl⟩
      · rw [List.mem_eraseDups, List.mem_filter]
        simp
      · have := List.length_filter_le (fun k' => !k' == k) ks
        rw [List.length_cons] at hn
        omega

theorem eraseDups_of_nodup {ks : List κ} (h : ks.Nodup) : ks.eraseDups = ks := by
  induction ks with
  | nil => rfl
  | cons k ks ih =>
    rw [List.nodup_cons] at h
    rw [List.eraseDups_cons, List.filter_eq_self.2, ih h.2]
    intro k' hk'
    simp only [Bool.not_eq_true', beq_eq_false_iff_ne]
    rintro rfl
    exact h.1 hk'

end EraseDups

end Store
