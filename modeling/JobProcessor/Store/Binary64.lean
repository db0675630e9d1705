import Mathlib.Algebra.Group.Nat.Defs
import Mathlib.Data.Nat.Log
import Mathlib.Tactic.Linarith
import Mathlib.Tactic.Ring

/-! Rounding of quotients to binary64, to nearest with ties to even. Only quotients
below `2 ^ 53` occur, whose last place is at most one, so that a rounded value is
`m / 2 ^ t` with natural numbers `m` and `t`; exponents are unbounded below. -/

namespace Binary64

/-- The integer nearest to `p / q`, the even one of two. -/
def nearest (p q : Nat) : Nat :=
  if 2 * (p % q) < q ∨ 2 * (p % q) = q ∧ p / q % 2 = 0 then p / q else p / q + 1

/-- The `t` with `2 ^ 52 ≤ p / q * 2 ^ t < 2 ^ 53`. -/
def scale (p q : Nat) : Nat :=
  let t := 52 + q.log2 - p.log2
  if q * 2 ^ 52 ≤ p * 2 ^ t then t else t + 1

/-- A nonnegative value `m / 2 ^ t`. -/
structure Value where
  m : Nat
  t : Nat
deriving DecidableEq, Repr

/-- `p / q`, rounded. -/
def quot (p q : Nat) : Value := ⟨nearest (p * 2 ^ scale p q) q, scale p q⟩

/-- `x * k`, rounded. -/
def Value.mul (x : Value) (k : Nat) : Value := quot (x.m * k) (2 ^ x.t)

def Value.toNat (x : Value) : Nat := x.m / 2 ^ x.t

/-- Rounding does not pass an integer. -/
theorem nearest_le {p q b : Nat} (h : p ≤ b * q) : nearest p q ≤ b := by
  rcases Nat.eq_zero_or_pos q with rfl | hq
  · have hp : p = 0 := by simpa using h
    simp [nearest, hp]
  · have hdiv : p / q ≤ b := Nat.div_le_of_le_mul (by rwa [Nat.mul_comm] at h)
    unfold nearest
    split
    · exact hdiv
    · rename_i hno
      by_contra hlt
      have hb : p / q = b := by omega
      have hsum := Nat.div_add_mod p q
      have hzero : p % q = 0 := by
        rw [hb, Nat.mul_comm] at hsum
        omega
      exact hno (.inl (by omega))

theorem quot_le {p q b : Nat} (h : p ≤ b * q) : (quot p q).m ≤ b * 2 ^ (quot p q).t := by
  apply nearest_le
  calc p * 2 ^ scale p q ≤ b * q * 2 ^ scale p q := Nat.mul_le_mul_right _ h
    _ = b * 2 ^ scale p q * q := by rw [Nat.mul_right_comm]

theorem Value.mul_le {x : Value} {k b : Nat} (h : x.m ≤ b * 2 ^ x.t) :
    (x.mul k).m ≤ b * k * 2 ^ (x.mul k).t := by
  apply quot_le
  calc x.m * k ≤ b * 2 ^ x.t * k := Nat.mul_le_mul_right _ h
    _ = b * k * 2 ^ x.t := by rw [Nat.mul_right_comm]

theorem Value.toNat_le {x : Value} {b : Nat} (h : x.m ≤ b * 2 ^ x.t) : x.toNat ≤ b :=
  Nat.div_le_of_le_mul (by rwa [Nat.mul_comm] at h)

/-! ### Rounding is monotone -/

theorem nearest_mul_right (a : Nat) {q : Nat} (hq : 0 < q) : nearest (a * q) q = a := by
  simp [nearest, hq]

theorem div_le_nearest (p q : Nat) : p / q ≤ nearest p q := by
  unfold nearest
  split <;> omega

theorem nearest_le_div_succ (p q : Nat) : nearest p q ≤ p / q + 1 := by
  unfold nearest
  split <;> omega

theorem nearest_mono {p q p' q' : Nat} (hq : 0 < q) (hq' : 0 < q') (h : p * q' ≤ p' * q) :
    nearest p q ≤ nearest p' q' := by
  have hdiv : p / q ≤ p' / q' := by
    rw [Nat.le_div_iff_mul_le hq']
    refine Nat.le_of_mul_le_mul_right ?_ hq
    calc p / q * q' * q = p / q * q * q' := Nat.mul_right_comm _ _ _
      _ ≤ p * q' := Nat.mul_le_mul_right _ (Nat.div_mul_le_self p q)
      _ ≤ p' * q := h
  rcases Nat.lt_or_eq_of_le hdiv with hlt | heq
  · calc nearest p q ≤ p / q + 1 := nearest_le_div_succ p q
      _ ≤ p' / q' := hlt
      _ ≤ nearest p' q' := div_le_nearest p' q'
  · -- one integer part: the remainders decide, and they are ordered alike
    have hrem : p % q * q' ≤ p' % q' * q := by
      have hp := Nat.div_add_mod p q
      have hp' := Nat.div_add_mod p' q'
      rw [← hp, ← hp', heq] at h
      nlinarith
    unfold nearest
    rw [heq]
    split
    · split <;> omega
    · rename_i hup
      rw [if_neg]
      intro hdown
      apply hup
      rcases hdown with hdown | ⟨htie, heven⟩
      · left
        nlinarith
      · rcases Nat.lt_trichotomy (2 * (p % q)) q with hlt | htie' | hgt
        · exact .inl hlt
        · exact .inr ⟨htie', heven⟩
        · exfalso
          nlinarith

theorem scale_spec {p q : Nat} (hp : 0 < p) (hq : 0 < q) (h : p < 2 ^ 52 * q) :
    q * 2 ^ 52 ≤ p * 2 ^ scale p q ∧ p * 2 ^ scale p q < q * 2 ^ 53 := by
  have hpl := Nat.log2_self_le hp.ne'
  have hpu := Nat.lt_log2_self (n := p)
  have hql := Nat.log2_self_le hq.ne'
  have hqu := Nat.lt_log2_self (n := q)
  have hlog : p.log2 ≤ 52 + q.log2 := by
    have hlt : 2 ^ p.log2 < 2 ^ (52 + (q.log2 + 1)) := by
      calc 2 ^ p.log2 ≤ p := hpl
        _ < 2 ^ 52 * q := h
        _ ≤ 2 ^ 52 * 2 ^ (q.log2 + 1) := Nat.mul_le_mul_left _ hqu.le
        _ = 2 ^ (52 + (q.log2 + 1)) := (Nat.pow_add _ _ _).symm
    have := (Nat.pow_lt_pow_iff_right (by decide)).1 hlt
    omega
  have hexp : p.log2 + (52 + q.log2 - p.log2) = 52 + q.log2 := by omega
  have hlow : q * 2 ^ 52 < 2 * (p * 2 ^ (52 + q.log2 - p.log2)) := by
    calc q * 2 ^ 52 < 2 ^ (q.log2 + 1) * 2 ^ 52 := Nat.mul_lt_mul_of_pos_right hqu (by decide)
      _ = 2 * 2 ^ (52 + q.log2) := by ring
      _ = 2 * (2 ^ p.log2 * 2 ^ (52 + q.log2 - p.log2)) := by rw [← Nat.pow_add, hexp]
      _ ≤ 2 * (p * 2 ^ (52 + q.log2 - p.log2)) :=
        Nat.mul_le_mul_left _ (Nat.mul_le_mul_right _ hpl)
  have hhigh : p * 2 ^ (52 + q.log2 - p.log2) < q * 2 ^ 53 := by
    calc p * 2 ^ (52 + q.log2 - p.log2)
        < 2 ^ (p.log2 + 1) * 2 ^ (52 + q.log2 - p.log2) :=
          Nat.mul_lt_mul_of_pos_right hpu (Nat.two_pow_pos _)
      _ = 2 ^ (p.log2 + (52 + q.log2 - p.log2)) * 2 := by ring
      _ = 2 ^ q.log2 * 2 ^ 53 := by rw [hexp]; ring
      _ ≤ q * 2 ^ 53 := Nat.mul_le_mul_right _ hql
  simp only [scale]
  generalize 52 + q.log2 - p.log2 = t at *
  split
  · rename_i hle
    exact ⟨hle, hhigh⟩
  · rename_i hlt
    rw [Nat.pow_succ 2 t]
    constructor <;> nlinarith

def Value.Le (x y : Value) : Prop := x.m * 2 ^ y.t ≤ y.m * 2 ^ x.t

theorem scale_anti {p q p' q' : Nat} (hp : 0 < p) (hq : 0 < q) (hq' : 0 < q')
    (h : p * q' ≤ p' * q) (hb : p' < 2 ^ 52 * q') : scale p' q' ≤ scale p q := by
  have hp' : 0 < p' := by nlinarith
  have hbp : p < 2 ^ 52 * q := by
    refine Nat.lt_of_mul_lt_mul_right (a := q') ?_
    nlinarith
  obtain ⟨hlow, -⟩ := scale_spec hp hq hbp
  obtain ⟨-, hhigh⟩ := scale_spec hp' hq' hb
  by_contra hlt
  have hpow : 2 ^ (scale p q + 1) ≤ 2 ^ scale p' q' := Nat.pow_le_pow_right (by decide) (by omega)
  have hchain : q * q' * 2 ^ 53 < q * q' * 2 ^ 53 := by
    calc q * q' * 2 ^ 53 = q * 2 ^ 52 * (q' * 2) := by ring
      _ ≤ p * 2 ^ scale p q * (q' * 2) := Nat.mul_le_mul_right _ hlow
      _ = p * q' * 2 ^ (scale p q + 1) := by ring
      _ ≤ p' * q * 2 ^ scale p' q' := Nat.mul_le_mul h hpow
      _ = p' * 2 ^ scale p' q' * q := by ring
      _ < q' * 2 ^ 53 * q := Nat.mul_lt_mul_of_pos_right hhigh hq
      _ = q * q' * 2 ^ 53 := by ring
  exact lt_irrefl _ hchain

theorem quot_mono {p q p' q' : Nat} (hq : 0 < q) (hq' : 0 < q') (h : p * q' ≤ p' * q)
    (hb : p' < 2 ^ 52 * q') : (quot p q).Le (quot p' q') := by
  rcases Nat.eq_zero_or_pos p with rfl | hp
  · simp [Value.Le, quot, nearest, hq]
  have hp' : 0 < p' := by nlinarith
  have hbp : p < 2 ^ 52 * q := by
    refine Nat.lt_of_mul_lt_mul_right (a := q') ?_
    nlinarith
  have hanti := scale_anti hp hq hq' h hb
  unfold Value.Le quot
  rcases Nat.lt_or_eq_of_le hanti with hlt | heq
  · -- another binade: a power of two lies between the two
    have hle : nearest (p * 2 ^ scale p q) q ≤ 2 ^ 53 := by
      refine nearest_le ?_
      have := (scale_spec hp hq hbp).2
      linarith
    have hge : 2 ^ 52 ≤ nearest (p' * 2 ^ scale p' q') q' := by
      refine le_trans ?_ (div_le_nearest _ _)
      rw [Nat.le_div_iff_mul_le hq']
      have := (scale_spec hp' hq' hb).1
      linarith
    calc nearest (p * 2 ^ scale p q) q * 2 ^ scale p' q'
        ≤ 2 ^ 53 * 2 ^ scale p' q' := Nat.mul_le_mul_right _ hle
      _ = 2 ^ 52 * 2 ^ (scale p' q' + 1) := by ring
      _ ≤ nearest (p' * 2 ^ scale p' q') q' * 2 ^ scale p q :=
        Nat.mul_le_mul hge (Nat.pow_le_pow_right (by decide) (by omega))
  · rw [heq]
    refine Nat.mul_le_mul_right _ (nearest_mono hq hq' ?_)
    calc p * 2 ^ scale p q * q' = p * q' * 2 ^ scale p q := by ring
      _ ≤ p' * q * 2 ^ scale p q := Nat.mul_le_mul_right _ h
      _ = p' * 2 ^ scale p q * q := by ring

theorem Value.mul_mono {x y : Value} (h : x.Le y) {k : Nat} (hb : y.m * k < 2 ^ 52 * 2 ^ y.t) :
    (x.mul k).Le (y.mul k) := by
  refine quot_mono (Nat.two_pow_pos _) (Nat.two_pow_pos _) ?_ hb
  calc x.m * k * 2 ^ y.t = x.m * 2 ^ y.t * k := Nat.mul_right_comm _ _ _
    _ ≤ y.m * 2 ^ x.t * k := Nat.mul_le_mul_right _ h
    _ = y.m * k * 2 ^ x.t := Nat.mul_right_comm _ _ _

theorem Value.toNat_mono {x y : Value} (h : x.Le y) : x.toNat ≤ y.toNat := by
  unfold Value.toNat
  rw [Nat.le_div_iff_mul_le (Nat.two_pow_pos _)]
  refine Nat.le_of_mul_le_mul_right ?_ (Nat.two_pow_pos x.t)
  calc x.m / 2 ^ x.t * 2 ^ y.t * 2 ^ x.t = x.m / 2 ^ x.t * 2 ^ x.t * 2 ^ y.t :=
        Nat.mul_right_comm _ _ _
    _ ≤ x.m * 2 ^ y.t := Nat.mul_le_mul_right _ (Nat.div_mul_le_self _ _)
    _ ≤ y.m * 2 ^ x.t := h

/-- An integer is its own rounding. -/
theorem quot_mul_right (a : Nat) {q : Nat} (hq : 0 < q) :
    (quot (a * q) q).m = a * 2 ^ (quot (a * q) q).t := by
  simp only [quot]
  rw [Nat.mul_right_comm]
  exact nearest_mul_right _ hq

/-- An integer times an integer is exact. -/
theorem Value.mul_toNat {x : Value} {a : Nat} (k : Nat) (h : x.m = a * 2 ^ x.t) :
    (x.mul k).toNat = a * k := by
  have hm : x.m * k = a * k * 2 ^ x.t := by rw [h, Nat.mul_right_comm]
  unfold Value.toNat Value.mul
  rw [hm, quot_mul_right _ (Nat.two_pow_pos _)]
  exact Nat.mul_div_cancel _ (Nat.two_pow_pos _)

end Binary64

