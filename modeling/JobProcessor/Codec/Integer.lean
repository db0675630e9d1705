import JobProcessor.Codec.Uuid

/-! `int(value)` of a byte string, in base ten. -/

namespace Codec.Integer

open Unicode Uuid

/-- The most digits that `int` reads, leading zeros among them. -/
def maxStrDigits : Nat := 4300

/-- Digits with single underscores between them: `n` is the number read from `count`
digits, and `under` tells that a digit must follow. -/
def readDecimal (n count : Nat) (under : Bool) : List Nat → Option (Nat × Nat)
  | [] => if under then none else some (n, count)
  | c :: t =>
    if c = 95 then if under then none else readDecimal n count true t
    else if isDigit c then readDecimal (n * 10 + (c - 48)) (count + 1) false t
    else none

/-- `int(value)`; `none` is the `ValueError`. -/
def ofBytes (value : List Nat) : Option Int :=
  let t := strip isSpace value
  let digits := if t.head? = some 43 ∨ t.head? = some 45 then t.tail else t
  (readDecimal 0 0 true digits).bind fun r =>
    if maxStrDigits < r.2 then none
    else some (if t.head? = some 45 then -(r.1 : Int) else r.1)

theorem readDecimal_digits (n count : Nat) {t : List Nat} (h : ∀ c ∈ t, isDigit c = true) :
    readDecimal n count false t =
      some (t.foldl (fun n d => n * 10 + (d - 48)) n, count + t.length) := by
  induction t generalizing n count with
  | nil => rfl
  | cons c t ih =>
    have hc := h c List.mem_cons_self
    have hne : c ≠ 95 := by
      simp only [isDigit, Bool.and_eq_true, decide_eq_true_eq] at hc
      omega
    rw [readDecimal, if_neg hne, if_pos hc, ih _ _ fun d hd => h d (List.mem_cons_of_mem c hd),
      List.foldl_cons, List.length_cons, Nat.add_assoc, Nat.add_comm 1]

/-- A number as HTTP writes it is read as the number it is. -/
theorem ofBytes_digits {t : List Nat} (hne : t ≠ []) (h : ∀ c ∈ t, isDigit c = true)
    (hlen : t.length ≤ maxStrDigits) : ofBytes t = some (digitsValue t : Int) := by
  have hrange : ∀ c ∈ t, 48 ≤ c ∧ c ≤ 57 := fun c hc => by
    simpa only [isDigit, Bool.and_eq_true, decide_eq_true_eq] using h c hc
  have hstrip : strip isSpace t = t := by
    apply strip_eq
    intro c hc
    have hc := hrange c hc
    simp only [isSpace, Bool.or_eq_false_iff, Bool.and_eq_false_iff, decide_eq_false_iff_not]
    omega
  have hsign : ∀ c, c = 43 ∨ c = 45 → t.head? ≠ some c := by
    intro c hc hhead
    have hmem := hrange c (List.mem_of_mem_head? hhead)
    omega
  have hread : readDecimal 0 0 true t = some (digitsValue t, t.length) := by
    cases t with
    | nil => exact absurd rfl hne
    | cons c t =>
      have hc := h c List.mem_cons_self
      have hu : c ≠ 95 := by
        have := hrange c List.mem_cons_self
        omega
      rw [readDecimal, if_neg hu, if_pos hc,
        readDecimal_digits _ _ fun d hd => h d (List.mem_cons_of_mem c hd), digitsValue,
        List.foldl_cons, List.length_cons, Nat.zero_add, Nat.add_comm]
  have hplus := hsign 43 (Or.inl rfl)
  have hminus := hsign 45 (Or.inr rfl)
  simp [ofBytes, hstrip, hplus, hminus, hread, Nat.not_lt.2 hlen]

end Codec.Integer
