import JobProcessor.Codec.JsonRoundTrip
import JobProcessor.Store.Ordered
import Mathlib.Data.List.Lex
import Mathlib.Data.List.Perm.Basic

/-! Values up to the order of the members of their objects, and the text that is one
and the same for all of them: the one with the keys sorted. -/

namespace Codec.Json

open Unicode Store

mutual

/-- The same JSON value: equal but for the order of members, at every level. -/
inductive Alike : Value → Value → Prop
  | null : Alike .null .null
  | bool (b : Bool) : Alike (.bool b) (.bool b)
  | int (i : Int) : Alike (.int i) (.int i)
  | float (t : Text) : Alike (.float t) (.float t)
  | str (s : Text) : Alike (.str s) (.str s)
  | arr {xs ys : List Value} : AlikeItems xs ys → Alike (.arr xs) (.arr ys)
  | obj {ms ms₁ ms' : List (Text × Value)} : ms.Perm ms₁ → AlikeMembers ms₁ ms' →
    Alike (.obj ms) (.obj ms')

inductive AlikeItems : List Value → List Value → Prop
  | nil : AlikeItems [] []
  | cons {v w : Value} {vs ws : List Value} : Alike v w → AlikeItems vs ws →
    AlikeItems (v :: vs) (w :: ws)

inductive AlikeMembers : List (Text × Value) → List (Text × Value) → Prop
  | nil : AlikeMembers [] []
  | cons {k : Text} {v w : Value} {ms ms' : List (Text × Value)} : Alike v w →
    AlikeMembers ms ms' → AlikeMembers ((k, v) :: ms) ((k, w) :: ms')

end

theorem Alike.str_eq {s s' : Text} (h : Alike (.str s) (.str s')) : s = s' := by
  cases h
  rfl

mutual

/-- The members of every object by their keys, which are compared by code points. -/
def Value.sorted : Value → Value
  | .arr xs => .arr (sortedItems xs)
  | .obj ms => .obj (orderBy Prod.fst (sortedMembers ms))
  | .null => .null
  | .bool b => .bool b
  | .int i => .int i
  | .float t => .float t
  | .str s => .str s

def sortedItems : List Value → List Value
  | [] => []
  | v :: vs => v.sorted :: sortedItems vs

def sortedMembers : List (Text × Value) → List (Text × Value)
  | [] => []
  | (k, v) :: ms => (k, v.sorted) :: sortedMembers ms

end

theorem sortedItems_eq (xs : List Value) : sortedItems xs = xs.map Value.sorted := by
  induction xs with
  | nil => rfl
  | cons v vs ih => rw [sortedItems, ih, List.map_cons]

theorem sortedMembers_eq (ms : List (Text × Value)) :
    sortedMembers ms = ms.map fun m => (m.1, m.2.sorted) := by
  induction ms with
  | nil => rfl
  | cons m ms ih => rw [sortedMembers, ih, List.map_cons]

theorem keys_sortedMembers (ms : List (Text × Value)) :
    (sortedMembers ms).map Prod.fst = ms.map Prod.fst := by
  rw [sortedMembers_eq, List.map_map]
  rfl

theorem sound_sorted (v : Value) (hv : v.Sound) : v.sorted.Sound := by
  induction v using Value.ind with
  | null | bool | int | float | str => exact hv
  | arr xs ih =>
    have hxs := (soundItems_iff xs).1 hv
    refine (soundItems_iff _).2 fun y hy => ?_
    rw [sortedItems_eq] at hy
    obtain ⟨x, hx, rfl⟩ := List.mem_map.1 hy
    exact ih x hx (hxs x hx)
  | obj ms ih =>
    have hms := (soundMembers_iff ms).1 hv.2
    have hperm := perm_orderBy Prod.fst (sortedMembers ms)
    refine ⟨?_, (soundMembers_iff _).2 fun m hm => ?_⟩
    · rw [(hperm.map Prod.fst).nodup_iff, keys_sortedMembers]
      exact hv.1
    · rw [mem_orderBy, sortedMembers_eq] at hm
      obtain ⟨m', hm', rfl⟩ := List.mem_map.1 hm
      exact ⟨(hms m' hm').1, ih m' hm' (hms m' hm').2⟩

/-! ### One text for values that are alike -/

theorem alikeItems_of_sorted {xs ys : List Value}
    (ih : ∀ x ∈ xs, ∀ w : Value, x.sorted = w.sorted → Alike x w)
    (h : xs.map Value.sorted = ys.map Value.sorted) : AlikeItems xs ys := by
  induction xs generalizing ys with
  | nil =>
    rw [List.map_nil, eq_comm, List.map_eq_nil_iff] at h
    subst h
    exact .nil
  | cons x xs ihs =>
    cases ys with
    | nil => cases h
    | cons y ys =>
      simp only [List.map_cons, List.cons.injEq] at h
      exact .cons (ih x List.mem_cons_self y h.1)
        (ihs (fun z hz => ih z (List.mem_cons_of_mem x hz)) h.2)

theorem alikeMembers_of_sorted {ms ms' : List (Text × Value)}
    (ih : ∀ m ∈ ms, ∀ w : Value, m.2.sorted = w.sorted → Alike m.2 w)
    (h : ms.map (fun m => (m.1, m.2.sorted)) = ms'.map fun m => (m.1, m.2.sorted)) :
    AlikeMembers ms ms' := by
  induction ms generalizing ms' with
  | nil =>
    rw [List.map_nil, eq_comm, List.map_eq_nil_iff] at h
    subst h
    exact .nil
  | cons m ms ihs =>
    cases ms' with
    | nil => cases h
    | cons m' ms' =>
      obtain ⟨k, v⟩ := m
      obtain ⟨k', w⟩ := m'
      simp only [List.map_cons, List.cons.injEq, Prod.mk.injEq] at h
      obtain ⟨⟨rfl, hv⟩, hrest⟩ := h
      exact .cons (ih (k, v) List.mem_cons_self w hv)
        (ihs (fun z hz => ih z (List.mem_cons_of_mem _ hz)) hrest)

/-- Lists with permuted images: one of them can be permuted to have the other's image. -/
theorem perm_of_map_perm {α β : Type} {f : α → β} {l l' : List α} (h : (l.map f).Perm (l'.map f)) :
    ∃ l₁, l.Perm l₁ ∧ l₁.map f = l'.map f := by
  have hself : List.Forall₂ (fun b a => b = f a) (l.map f) l := by
    rw [List.forall₂_map_left_iff]
    exact List.forall₂_same.2 fun _ _ => rfl
  obtain ⟨l₁, himage, hperm⟩ := List.perm_comp_forall₂ h.symm hself
  refine ⟨l₁, hperm.symm, ?_⟩
  have hmap : List.Forall₂ Eq (l₁.map f) (l'.map f) := by
    rw [List.forall₂_map_left_iff]
    exact (himage.imp fun _ _ h => h.symm).flip
  exact List.forall₂_eq_eq_eq ▸ hmap

theorem alike_of_sorted (v w : Value) (h : v.sorted = w.sorted) : Alike v w := by
  induction v using Value.ind generalizing w with
  | null => cases w <;> simp only [Value.sorted, reduceCtorEq] at h; exact .null
  | bool b =>
    cases w <;> simp only [Value.sorted, reduceCtorEq, Value.bool.injEq] at h
    exact h ▸ .bool b
  | int i =>
    cases w <;> simp only [Value.sorted, reduceCtorEq, Value.int.injEq] at h
    exact h ▸ .int i
  | float t =>
    cases w <;> simp only [Value.sorted, reduceCtorEq, Value.float.injEq] at h
    exact h ▸ .float t
  | str s =>
    cases w <;> simp only [Value.sorted, reduceCtorEq, Value.str.injEq] at h
    exact h ▸ .str s
  | arr xs ih =>
    cases w <;> simp only [Value.sorted, reduceCtorEq, Value.arr.injEq, sortedItems_eq] at h
    exact .arr (alikeItems_of_sorted ih h)
  | obj ms ih =>
    cases w <;> simp only [Value.sorted, reduceCtorEq, Value.obj.injEq] at h
    rename_i ms'
    -- the sorted members are permutations of the members with sorted values
    have hperm : (sortedMembers ms).Perm (sortedMembers ms') :=
      (perm_orderBy Prod.fst _).symm.trans (h ▸ perm_orderBy Prod.fst _)
    rw [sortedMembers_eq, sortedMembers_eq] at hperm
    obtain ⟨ms₁, hp, himage⟩ := perm_of_map_perm hperm
    exact .obj hp (alikeMembers_of_sorted (fun m hm => ih m (hp.mem_iff.2 hm)) himage)

theorem sortedItems_of_alike {xs ys : List Value}
    (ih : ∀ x ∈ xs, ∀ w : Value, Alike x w → x.sorted = w.sorted) (h : AlikeItems xs ys) :
    sortedItems xs = sortedItems ys := by
  induction xs generalizing ys with
  | nil => cases h; rfl
  | cons x xs ihs =>
    cases h with
    | cons hx hxs =>
      rw [sortedItems, sortedItems, ih x List.mem_cons_self _ hx,
        ihs (fun z hz => ih z (List.mem_cons_of_mem x hz)) hxs]

theorem sortedMembers_of_alike {ms ms' : List (Text × Value)}
    (ih : ∀ m ∈ ms, ∀ w : Value, Alike m.2 w → m.2.sorted = w.sorted) (h : AlikeMembers ms ms') :
    sortedMembers ms = sortedMembers ms' := by
  induction ms generalizing ms' with
  | nil => cases h; rfl
  | cons m ms ihs =>
    cases h with
    | cons hv hms =>
      rw [sortedMembers, sortedMembers, ih _ List.mem_cons_self _ hv,
        ihs (fun z hz => ih z (List.mem_cons_of_mem _ hz)) hms]

theorem sorted_of_alike (v w : Value) (hv : v.Sound) (h : Alike v w) : v.sorted = w.sorted := by
  induction v using Value.ind generalizing w with
  | null | bool | int | float | str => cases h; rfl
  | arr xs ih =>
    cases h with
    | arr hitems =>
      have hxs := (soundItems_iff xs).1 hv
      rw [Value.sorted, Value.sorted,
        sortedItems_of_alike (fun x hx w => ih x hx w (hxs x hx)) hitems]
  | obj ms ih =>
    cases h with
    | @obj _ ms₁ _ hperm hmembers =>
      have hms := (soundMembers_iff ms).1 hv.2
      have hsorted := sortedMembers_of_alike
        (fun m hm w => ih m (hperm.mem_iff.2 hm) w (hms m (hperm.mem_iff.2 hm)).2) hmembers
      have hpermuted : (sortedMembers ms).Perm (sortedMembers ms₁) := by
        rw [sortedMembers_eq, sortedMembers_eq]
        exact hperm.map _
      rw [Value.sorted, Value.sorted, ← hsorted,
        orderBy_perm hpermuted (by rw [keys_sortedMembers]; exact hv.1)]

/-- The text with sorted keys is the same exactly for values that are alike. -/
theorem dumps_sorted_iff {gap : Text} (hg : ∀ c ∈ gap, isSpace c = true) {v w : Value}
    (hv : v.Sound) (hw : w.Sound) :
    dumps gap v.sorted = dumps gap w.sorted ↔ Alike v w := by
  constructor
  · intro h
    have hread := congrArg loads h
    rw [loads_dumps hg (sound_sorted v hv), loads_dumps hg (sound_sorted w hw),
      Option.some.injEq] at hread
    exact alike_of_sorted v w hread
  · intro h
    rw [sorted_of_alike v w hv h]

end Codec.Json
