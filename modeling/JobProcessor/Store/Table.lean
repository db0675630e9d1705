import Mathlib.Data.List.Nodup

/-! A table with a primary key and one partial unique index. Both constraints are
fields, so a table that breaks one cannot be built: `insert?` refuses the row, and
`update` asks that neither key is touched. -/

namespace Store

/-- Rows `α` with primary key `key`; `index r = none` puts `r` outside the index. -/
structure Table {α κ υ : Type} (key : α → κ) (index : α → Option υ) where
  rows : List α
  key_nodup : (rows.map key).Nodup
  index_nodup : (rows.filterMap index).Nodup

variable {α κ υ : Type} {key : α → κ} {index : α → Option υ}

namespace Table

def empty : Table key index := ⟨[], List.nodup_nil, List.nodup_nil⟩

/-- `UPDATE … SET f WHERE p`. -/
def update (t : Table key index) (p : α → Bool) (f : α → α)
    (hf : ∀ r, key (f r) = key r ∧ index (f r) = index r) : Table key index where
  rows := t.rows.map fun r => if p r then f r else r
  key_nodup := by
    have h : (key ∘ fun r => if p r then f r else r) = key := by
      funext r; simp only [Function.comp_apply]; split
      · exact (hf r).1
      · rfl
    rw [List.map_map, h]
    exact t.key_nodup
  index_nodup := by
    have h : (index ∘ fun r => if p r then f r else r) = index := by
      funext r; simp only [Function.comp_apply]; split
      · exact (hf r).2
      · rfl
    rw [List.filterMap_map, h]
    exact t.index_nodup

theorem index_unique {t : Table key index} {r₁ r₂ : α} {u : υ} (h₁ : r₁ ∈ t.rows) (h₂ : r₂ ∈ t.rows)
    (hu₁ : index r₁ = some u) (hu₂ : index r₂ = some u) : r₁ = r₂ := by
  have hn := t.index_nodup
  generalize t.rows = rows at h₁ h₂ hn
  induction rows with
  | nil => cases h₁
  | cons a l ih =>
    have hl : (l.filterMap index).Nodup := by
      cases ha : index a with
      | none => simpa [List.filterMap_cons, ha] using hn
      | some v => simp only [List.filterMap_cons, ha, List.nodup_cons] at hn; exact hn.2
    rcases List.mem_cons.1 h₁ with rfl | h₁' <;> rcases List.mem_cons.1 h₂ with rfl | h₂'
    · rfl
    · simp only [List.filterMap_cons, hu₁, List.nodup_cons] at hn
      exact absurd (List.mem_filterMap.2 ⟨r₂, h₂', hu₂⟩) hn.1
    · simp only [List.filterMap_cons, hu₂, List.nodup_cons] at hn
      exact absurd (List.mem_filterMap.2 ⟨r₁, h₁', hu₁⟩) hn.1
    · exact ih h₁' h₂' hl

variable [DecidableEq κ]

def find? (t : Table key index) (k : κ) : Option α := t.rows.find? fun r => key r = k

section Insert

variable [DecidableEq υ]

def Fits (t : Table key index) (r : α) : Prop :=
  key r ∉ t.rows.map key ∧ ∀ u ∈ index r, u ∉ t.rows.filterMap index

instance (t : Table key index) (r : α) : Decidable (t.Fits r) :=
  inferInstanceAs (Decidable (_ ∧ _))

/-- `INSERT`, refused when it violates a constraint. -/
def insert? (t : Table key index) (r : α) : Option (Table key index) :=
  if h : t.Fits r then
    some
      { rows := t.rows ++ [r]
        key_nodup := by
          rw [List.map_append, List.nodup_append]
          refine ⟨t.key_nodup, by simp, ?_⟩
          intro a ha b hb
          rw [List.map_singleton, List.mem_singleton] at hb
          rintro rfl
          exact h.1 (hb ▸ ha)
        index_nodup := by
          rw [List.filterMap_append, List.nodup_append]
          refine ⟨t.index_nodup, ?_, ?_⟩
          · cases hu : index r <;> simp [hu]
          · intro a ha b hb
            rintro rfl
            have hu : index r = some a := by
              cases hu : index r <;> simp_all
            exact h.2 a hu ha }
  else none

end Insert

variable {t t' : Table key index} {k : κ} {r : α}

@[simp] theorem find?_empty : (empty : Table key index).find? k = none := rfl

theorem find?_key (h : t.find? k = some r) : key r = k := by
  simpa using List.find?_some h

theorem find?_mem (h : t.find? k = some r) : r ∈ t.rows := List.mem_of_find?_eq_some h

theorem find?_of_mem (h : r ∈ t.rows) : t.find? (key r) = some r := by
  cases hf : t.find? (key r) with
  | none => exact absurd h (by simpa [find?] using fun hr => List.find?_eq_none.1 hf r hr (by simp))
  | some r' =>
    have hkey := find?_key hf
    rw [List.inj_on_of_nodup_map t.key_nodup (find?_mem hf) h hkey]

theorem mem_rows_iff : r ∈ t.rows ↔ t.find? (key r) = some r :=
  ⟨find?_of_mem, find?_mem⟩

theorem find?_eq_none_iff : t.find? k = none ↔ k ∉ t.rows.map key := by
  simp [find?]

theorem find?_update (p : α → Bool) (f : α → α) (hf) :
    (t.update p f hf).find? k = (t.find? k).map fun r => if p r then f r else r := by
  unfold find? update
  rw [List.find?_map]
  congr 2
  funext r
  simp only [Function.comp_apply]
  split
  · rw [(hf r).1]
  · rfl

theorem find?_insert [DecidableEq υ] (h : t.insert? r = some t') :
    t.find? (key r) = none ∧ ∀ k, t'.find? k = if key r = k then some r else t.find? k := by
  unfold insert? at h
  split at h
  · rename_i hfits
    have hnone := find?_eq_none_iff.2 hfits.1
    cases h
    refine ⟨hnone, fun k => ?_⟩
    simp only [find?, List.find?_append, List.find?_cons, List.find?_nil]
    by_cases hk : key r = k
    · subst hk
      simp only [find?] at hnone
      simp [hnone]
    · simp [hk]
  · cases h

theorem rows_insert [DecidableEq υ] (h : t.insert? r = some t') : t'.rows = t.rows ++ [r] := by
  unfold insert? at h
  split at h
  · cases h; rfl
  · cases h

theorem insert?_eq_none [DecidableEq υ] : t.insert? r = none ↔ ¬ t.Fits r := by
  unfold insert?
  split <;> simp_all

/-- A guarded update by key hits one row exactly when the guard holds of it. -/
theorem countP_key (g : α → Bool) :
    t.rows.countP (fun r => decide (key r = k) && g r) = 1 ↔
      ∃ r, t.find? k = some r ∧ g r = true := by
  have hn := t.key_nodup
  have hle : t.rows.countP (fun r => decide (key r = k) && g r) ≤ 1 := by
    have h1 : t.rows.countP (fun r => decide (key r = k) && g r) ≤
        t.rows.countP (fun r => decide (key r = k)) :=
      List.countP_mono_left fun r _ h => by simp_all
    have h2 : t.rows.countP (fun r => decide (key r = k)) = (t.rows.map key).count k := by
      rw [List.count, List.countP_map]
      congr 1
    have := List.nodup_iff_count_le_one.1 hn k
    omega
  constructor
  · intro h
    have hpos : 0 < t.rows.countP (fun r => decide (key r = k) && g r) := by omega
    obtain ⟨r, hr, hg⟩ := List.countP_pos_iff.1 hpos
    simp only [Bool.and_eq_true, decide_eq_true_eq] at hg
    exact ⟨r, hg.1 ▸ find?_of_mem hr, hg.2⟩
  · rintro ⟨r, hr, hg⟩
    have hpos : 0 < t.rows.countP (fun r => decide (key r = k) && g r) :=
      List.countP_pos_iff.2 ⟨r, find?_mem hr, by simp [find?_key hr, hg]⟩
    omega

end Table

end Store
