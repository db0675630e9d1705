import Mathlib.Data.List.Basic
import Mathlib.Order.Lattice

/-! Keyset pagination. An ordered list is read a page at a time: a request names the last
key it was given, and is brought what stands behind that key. The list may be another one
at every request. -/

namespace Store.Keyset

variable {α κ : Type} [LinearOrder κ]

/-- A key at which a bound has arrived. No bound has arrived nowhere. -/
def Passed (b : Option κ) (v : κ) : Prop := ∃ u, b = some u ∧ v ≤ u

/-- What stands behind a bound. -/
def rest (key : α → κ) (b : Option κ) (xs : List α) : List α := xs.filter fun x => b.all (· < key x)

/-- A page of `limit` rows at most, and the bound for the next one if there are more rows. -/
def page (key : α → κ) (limit : Nat) (xs : List α) (b : Option κ) : List α × Option κ :=
  if limit < (rest key b xs).length then
    ((rest key b xs).take limit, ((rest key b xs).take limit).getLast?.map key)
  else (rest key b xs, none)

section Walk

variable (key : α → κ) (limit : Nat) (xs : Nat → List α)

/-- The bound of request `n`, which reads `xs n`; `none` when an earlier one got the last
page. -/
def bound : Nat → Option (Option κ)
  | 0 => some none
  | n + 1 => (bound n).bind fun b => (page key limit (xs n) b).2.map some

def rows (n : Nat) : List α := (bound key limit xs n).elim [] fun b => (page key limit (xs n) b).1

def read : Nat → List α
  | 0 => []
  | n + 1 => read n ++ rows key limit xs n

end Walk

variable {key : α → κ} {limit : Nat}

theorem not_passed {b : Option κ} {v : κ} : ¬ Passed b v ↔ b.all (· < v) = true := by
  cases b <;> simp [Passed]

theorem mem_rest {b : Option κ} {l : List α} {x : α} :
    x ∈ rest key b l ↔ x ∈ l ∧ ¬ Passed b (key x) := by
  rw [rest, List.mem_filter, not_passed]

/-! ### One page -/

section Page

variable {l : List α} {b : Option κ}

theorem page_last (h : (rest key b l).length ≤ limit) : page key limit l b = (rest key b l, none) :=
  if_neg (Nat.not_lt.2 h)

/-- Any other page is full, and the next bound parts the list behind it. -/
theorem page_more (hs : l.Pairwise fun a b => key a < key b) (hl : 1 ≤ limit)
    (h : limit < (rest key b l).length) : ∃ x ∈ (rest key b l).take limit,
    page key limit l b = ((rest key b l).take limit, some (key x)) ∧
    (∀ y ∈ (rest key b l).take limit, key y ≤ key x) ∧
    ∀ y ∈ (rest key b l).drop limit, key x < key y := by
  have hsorted : (rest key b l).Pairwise fun a b => key a < key b := hs.filter _
  have hne : (rest key b l).take limit ≠ [] := by
    intro hnil
    have hlen := congrArg List.length hnil
    rw [List.length_take, List.length_nil] at hlen
    omega
  have hlast := List.dropLast_append_getLast hne
  refine ⟨((rest key b l).take limit).getLast hne, List.getLast_mem hne, ?_, ?_, ?_⟩
  · rw [page, if_pos h, List.getLast?_eq_some_getLast hne, Option.map_some]
  · intro y hy
    have htake : ((rest key b l).take limit).Pairwise fun a b => key a < key b :=
      hsorted.sublist (List.take_sublist _ _)
    rw [← hlast, List.pairwise_append] at htake
    rw [← hlast, List.mem_append, List.mem_singleton] at hy
    rcases hy with hy | rfl
    · exact (htake.2.2 y hy _ List.mem_cons_self).le
    · exact le_rfl
  · intro y hy
    rw [← List.take_append_drop limit (rest key b l), List.pairwise_append] at hsorted
    exact hsorted.2.2 _ (List.getLast_mem hne) y hy

theorem rest_next {x : α} (hx : x ∈ (rest key b l).take limit)
    (hle : ∀ y ∈ (rest key b l).take limit, key y ≤ key x)
    (hlt : ∀ y ∈ (rest key b l).drop limit, key x < key y) :
    rest key (some (key x)) l = (rest key b l).drop limit := by
  have hnot := (mem_rest.1 (List.mem_of_mem_take hx)).2
  have hnarrow : rest key (some (key x)) l = rest key (some (key x)) (rest key b l) := by
    rw [rest, rest, rest, List.filter_filter]
    apply List.filter_congr
    intro y _
    cases b with
    | none => simp
    | some u =>
      have hux : u < key x := by simpa [Passed] using hnot
      simpa using fun h : key x < key y => hux.trans h
  have htake : rest key (some (key x)) ((rest key b l).take limit) = [] := by
    rw [rest, List.filter_eq_nil_iff]
    intro y hy
    simpa using hle y hy
  have hdrop : rest key (some (key x)) ((rest key b l).drop limit) = (rest key b l).drop limit := by
    rw [rest, List.filter_eq_self]
    intro y hy
    simpa using hlt y hy
  calc rest key (some (key x)) l
      = rest key (some (key x)) (rest key b l) := hnarrow
    _ = rest key (some (key x)) ((rest key b l).take limit ++ (rest key b l).drop limit) := by
      rw [List.take_append_drop]
    _ = rest key (some (key x)) ((rest key b l).take limit) ++
        rest key (some (key x)) ((rest key b l).drop limit) := List.filter_append ..
    _ = (rest key b l).drop limit := by rw [htake, hdrop, List.nil_append]

end Page

/-! ### The walk -/

section Run

variable {xs : Nat → List α}

theorem mem_rows {n : Nat} {x : α} (hx : x ∈ rows key limit xs n) :
    ∃ b, bound key limit xs n = some b ∧ x ∈ rest key b (xs n) := by
  cases hb : bound key limit xs n with
  | none => simp [rows, hb] at hx
  | some b =>
    refine ⟨b, rfl, ?_⟩
    rw [rows, hb, Option.elim_some, page] at hx
    split at hx
    · exact List.mem_of_mem_take hx
    · exact hx

variable (hs : ∀ n, (xs n).Pairwise fun a b => key a < key b) (hl : 1 ≤ limit)

include hs hl

/-- What request `n` finds behind its bound `b`, and leaves behind the next one. -/
theorem request_cases {n : Nat} {b : Option κ} (hb : bound key limit xs n = some b) :
    (limit < (rest key b (xs n)).length ∧ ∃ u, bound key limit xs (n + 1) = some (some u) ∧
      rows key limit xs n = (rest key b (xs n)).take limit ∧
      (∀ x ∈ rows key limit xs n, key x ≤ u) ∧ (∀ v, Passed b v → v < u) ∧
      rest key (some u) (xs n) = (rest key b (xs n)).drop limit) ∨
    (rest key b (xs n)).length ≤ limit ∧ bound key limit xs (n + 1) = none ∧
      rows key limit xs n = rest key b (xs n) := by
  by_cases hlen : limit < (rest key b (xs n)).length
  · obtain ⟨x, hx, hpage, hle, hlt⟩ := page_more (hs n) hl hlen
    have hrows : rows key limit xs n = (rest key b (xs n)).take limit := by
      rw [rows, hb, Option.elim_some, hpage]
    refine Or.inl ⟨hlen, key x, ?_, hrows, hrows ▸ hle, ?_, rest_next hx hle hlt⟩
    · rw [bound, hb, Option.bind_some, hpage, Option.map_some]
    · rintro v ⟨u, rfl, hv⟩
      have hnot := (mem_rest.1 (List.mem_of_mem_take hx)).2
      exact lt_of_not_ge fun hxv => hnot ⟨u, rfl, hxv.trans hv⟩
  · have hpage := page_last (Nat.not_lt.1 hlen)
    refine Or.inr ⟨Nat.not_lt.1 hlen, ?_, ?_⟩
    · rw [bound, hb, Option.bind_some, hpage, Option.map_none]
    · rw [rows, hb, Option.elim_some, hpage]

theorem rows_sorted (n : Nat) : (rows key limit xs n).Pairwise fun a b => key a < key b := by
  cases hb : bound key limit xs n with
  | none => simp [rows, hb]
  | some b =>
    rcases request_cases hs hl hb with ⟨-, u, -, hrows, -⟩ | ⟨-, -, hrows⟩
    · rw [hrows]
      exact ((hs n).filter _).sublist (List.take_sublist _ _)
    · rw [hrows]
      exact (hs n).filter _

/-- The next bound has arrived at everything that was read. -/
theorem read_passed {n : Nat} {b : Option κ} (hb : bound key limit xs n = some b) :
    ∀ x ∈ read key limit xs n, Passed b (key x) := by
  induction n generalizing b with
  | zero => simp [read]
  | succ n ih =>
    intro x hx
    rw [bound] at hb
    obtain ⟨b₀, hb₀, hnext⟩ := Option.bind_eq_some_iff.1 hb
    rcases request_cases hs hl hb₀ with ⟨-, u, hu, -, hle, hpassed, -⟩ | ⟨-, hnone, -⟩
    · obtain rfl : some u = b := by
        rw [bound, hb₀, Option.bind_some, hnext] at hu
        exact (Option.some.inj hu).symm
      rw [read, List.mem_append] at hx
      rcases hx with hx | hx
      · exact ⟨u, rfl, (hpassed _ (ih hb₀ x hx)).le⟩
      · exact ⟨u, rfl, hle x hx⟩
    · rw [bound, hb₀, Option.bind_some, hnext] at hnone
      cases hnone

/-- All pages together are in order, so nothing comes twice. -/
theorem read_sorted (n : Nat) : (read key limit xs n).Pairwise fun a b => key a < key b := by
  induction n with
  | zero => exact List.Pairwise.nil
  | succ n ih =>
    rw [read, List.pairwise_append]
    refine ⟨ih, rows_sorted hs hl n, ?_⟩
    intro x hx y hy
    obtain ⟨b, hb, hrest⟩ := mem_rows hy
    obtain ⟨u, rfl, hxu⟩ := read_passed hs hl hb x hx
    have hnot := (mem_rest.1 hrest).2
    exact lt_of_not_ge fun hyx => hnot ⟨u, rfl, hyx.trans hxu⟩

/-- A key that every request found is read when the bound arrives at it. -/
theorem read_complete {n : Nat} {b : Option κ} (hb : bound key limit xs n = some b) {v : κ}
    (hv : Passed b v) (hthere : ∀ j < n, ∃ x ∈ xs j, key x = v) :
    ∃ x ∈ read key limit xs n, key x = v := by
  induction n generalizing b with
  | zero =>
    obtain rfl : none = b := Option.some.inj hb
    obtain ⟨u, hu, -⟩ := hv
    cases hu
  | succ n ih =>
    rw [bound] at hb
    obtain ⟨b₀, hb₀, hnext⟩ := Option.bind_eq_some_iff.1 hb
    rcases request_cases hs hl hb₀ with ⟨-, u, hu, hrows, -, -, hleft⟩ | ⟨-, hnone, -⟩
    · obtain rfl : some u = b := by
        rw [bound, hb₀, Option.bind_some, hnext] at hu
        exact (Option.some.inj hu).symm
      by_cases hbefore : Passed b₀ v
      · obtain ⟨x, hx, hkey⟩ := ih hb₀ hbefore fun j hj => hthere j (by omega)
        exact ⟨x, List.mem_append_left _ hx, hkey⟩
      · obtain ⟨x, hx, rfl⟩ := hthere n (by omega)
        have hrest : x ∈ rest key b₀ (xs n) := mem_rest.2 ⟨hx, hbefore⟩
        rw [← List.take_append_drop limit (rest key b₀ (xs n)), List.mem_append, ← hrows,
          ← hleft] at hrest
        rcases hrest with hrest | hrest
        · exact ⟨x, List.mem_append_right _ hrest, rfl⟩
        · exact absurd hv (mem_rest.1 hrest).2
    · rw [bound, hb₀, Option.bind_some, hnext] at hnone
      cases hnone

theorem read_all {n : Nat} {b : Option κ} (hb : bound key limit xs n = some b)
    (hend : bound key limit xs (n + 1) = none) {v : κ}
    (hthere : ∀ j ≤ n, ∃ x ∈ xs j, key x = v) : ∃ x ∈ read key limit xs (n + 1), key x = v := by
  by_cases hbefore : Passed b v
  · obtain ⟨x, hx, hkey⟩ := read_complete hs hl hb hbefore fun j hj => hthere j (by omega)
    exact ⟨x, List.mem_append_left _ hx, hkey⟩
  · obtain ⟨x, hx, rfl⟩ := hthere n le_rfl
    rcases request_cases hs hl hb with ⟨-, u, hu, -⟩ | ⟨-, -, hrows⟩
    · rw [hend] at hu
      cases hu
    · exact ⟨x, List.mem_append_right _ (hrows ▸ mem_rest.2 ⟨hx, hbefore⟩), rfl⟩

theorem rows_full {n : Nat} {b : Option κ} (hb : bound key limit xs (n + 1) = some b) :
    (rows key limit xs n).length = limit := by
  have hsome := hb
  rw [bound] at hsome
  obtain ⟨b₀, hb₀, -⟩ := Option.bind_eq_some_iff.1 hsome
  rcases request_cases hs hl hb₀ with ⟨hlen, u, -, hrows, -⟩ | ⟨-, hnone, -⟩
  · rw [hrows, List.length_take]
    omega
  · rw [hb] at hnone
    cases hnone

/-- Once the list stands still, the walk ends with the page that holds the last row: no
empty page follows, unless nothing was left to begin with. -/
theorem bound_ends {c n : Nat} {b : Option κ} (hb : bound key limit xs n = some b)
    (hstill : ∀ m ≥ n, xs m = xs n) (hc : (rest key b (xs n)).length = c) :
    bound key limit xs (n + (c - 1) / limit) ≠ none ∧
      bound key limit xs (n + (c - 1) / limit + 1) = none := by
  induction c using Nat.strong_induction_on generalizing n b with
  | _ c ih =>
    rcases request_cases hs hl hb with ⟨hlen, u, hu, -, -, -, hleft⟩ | ⟨hlen, hnone, -⟩
    · have hstill' : ∀ m ≥ n + 1, xs m = xs (n + 1) := fun m hm =>
        (hstill m (by omega)).trans (hstill (n + 1) (by omega)).symm
      have hleft' : (rest key (some u) (xs (n + 1))).length = c - limit := by
        rw [hstill (n + 1) (by omega), hleft, List.length_drop, hc]
      have hpages : (c - 1) / limit = (c - limit - 1) / limit + 1 := by
        have hsplit : c - 1 = c - limit - 1 + limit := by omega
        rw [hsplit, Nat.add_div_right _ hl]
      have hrest := ih (c - limit) (by omega) hu hstill' hleft'
      have hidx : n + (c - 1) / limit = n + 1 + (c - limit - 1) / limit := by omega
      rw [hidx]
      exact hrest
    · have hzero : (c - 1) / limit = 0 := Nat.div_eq_of_lt (by omega)
      rw [hzero, Nat.add_zero, hb]
      exact ⟨by simp, hnone⟩

end Run

end Store.Keyset
