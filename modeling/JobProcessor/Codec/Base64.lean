import Mathlib.Data.Nat.Init

/-! Base64 with the URL-safe alphabet, as `base64.urlsafe_b64encode` writes it and
`base64.urlsafe_b64decode` reads it. Characters and bytes are natural numbers. The
reader is the lenient one: it passes over every character outside the alphabet, and
takes the two characters of the plain alphabet as well. -/

namespace Codec.Base64

def pad : Nat := 61

def symbol (s : Nat) : Nat :=
  if s < 26 then 65 + s else if s < 52 then 71 + s else if s < 62 then s - 4
  else if s = 62 then 45 else 95

def sextet (c : Nat) : Option Nat :=
  if 65 ≤ c ∧ c ≤ 90 then some (c - 65)
  else if 97 ≤ c ∧ c ≤ 122 then some (c - 71)
  else if 48 ≤ c ∧ c ≤ 57 then some (c + 4)
  else if c = 43 ∨ c = 45 then some 62
  else if c = 47 ∨ c = 95 then some 63
  else none

def encode : List Nat → List Nat
  | [] => []
  | [a] => [symbol (a / 4), symbol (a % 4 * 16), pad, pad]
  | [a, b] => [symbol (a / 4), symbol (a % 4 * 16 + b / 16), symbol (b % 16 * 4), pad]
  | a :: b :: c :: rest =>
    symbol (a / 4) :: symbol (a % 4 * 16 + b / 16) :: symbol (b % 16 * 4 + c / 64) ::
      symbol (c % 64) :: encode rest

/-- The loop of `binascii.a2b_base64`: `pos` characters of a quad are read, `left` holds
the bits not written out yet, and `pads` padding characters came last. A complete
padding ends the input; `none` is the `binascii.Error` for an incomplete quad. -/
def decodeFrom (pos left pads : Nat) : List Nat → Option (List Nat)
  | [] => if pos = 0 then some [] else none
  | c :: cs =>
    if c = pad then
      if 2 ≤ pos then
        if 4 ≤ pos + (pads + 1) then some [] else decodeFrom pos left (pads + 1) cs
      else decodeFrom pos left pads cs
    else
      match sextet c with
      | none => decodeFrom pos left pads cs
      | some s =>
        match pos with
        | 0 => decodeFrom 1 s 0 cs
        | 1 => (decodeFrom 2 (s % 16) 0 cs).map (List.cons (left * 4 + s / 16))
        | 2 => (decodeFrom 3 (s % 4) 0 cs).map (List.cons (left * 16 + s / 4))
        | _ => (decodeFrom 0 0 0 cs).map (List.cons (left * 64 + s))

def decode (cs : List Nat) : Option (List Nat) := decodeFrom 0 0 0 cs

theorem sextet_symbol : ∀ s < 64, sextet (symbol s) = some s := by decide

theorem symbol_ne_pad : ∀ s < 64, symbol s ≠ pad := by decide

theorem symbol_lt : ∀ s < 64, symbol s < 128 := by decide

variable {s left pads : Nat} {cs : List Nat}

theorem decodeFrom_zero (h : s < 64) :
    decodeFrom 0 left pads (symbol s :: cs) = decodeFrom 1 s 0 cs := by
  simp [decodeFrom, symbol_ne_pad s h, sextet_symbol s h]

theorem decodeFrom_one (h : s < 64) :
    decodeFrom 1 left pads (symbol s :: cs) =
      (decodeFrom 2 (s % 16) 0 cs).map (List.cons (left * 4 + s / 16)) := by
  simp [decodeFrom, symbol_ne_pad s h, sextet_symbol s h]

theorem decodeFrom_two (h : s < 64) :
    decodeFrom 2 left pads (symbol s :: cs) =
      (decodeFrom 3 (s % 4) 0 cs).map (List.cons (left * 16 + s / 4)) := by
  simp [decodeFrom, symbol_ne_pad s h, sextet_symbol s h]

theorem decodeFrom_three (h : s < 64) :
    decodeFrom 3 left pads (symbol s :: cs) =
      (decodeFrom 0 0 0 cs).map (List.cons (left * 64 + s)) := by
  simp [decodeFrom, symbol_ne_pad s h, sextet_symbol s h]

theorem decode_encode (bs : List Nat) (h : ∀ b ∈ bs, b < 256) : decode (encode bs) = some bs := by
  unfold decode
  induction bs using encode.induct with
  | case1 => rfl
  | case2 a =>
    have ha : a < 256 := h a (by simp)
    rw [encode, decodeFrom_zero (by omega), decodeFrom_one (by omega)]
    simp [decodeFrom, pad]
    omega
  | case3 a b =>
    have ha : a < 256 := h a (by simp)
    have hb : b < 256 := h b (by simp)
    rw [encode, decodeFrom_zero (by omega), decodeFrom_one (by omega), decodeFrom_two (by omega)]
    simp [decodeFrom, pad]
    omega
  | case4 a b c rest ih =>
    have ha : a < 256 := h a (by simp)
    have hb : b < 256 := h b (by simp)
    have hc : c < 256 := h c (by simp)
    have hrest := ih fun x hx => h x (by simp [hx])
    rw [encode, decodeFrom_zero (by omega), decodeFrom_one (by omega), decodeFrom_two (by omega),
      decodeFrom_three (by omega), hrest]
    simp
    omega

theorem encode_lt (bs : List Nat) (h : ∀ b ∈ bs, b < 256) : ∀ c ∈ encode bs, c < 128 := by
  induction bs using encode.induct with
  | case1 => simp [encode]
  | case2 a =>
    have ha : a < 256 := h a (by simp)
    have h1 := symbol_lt (a / 4) (by omega)
    have h2 := symbol_lt (a % 4 * 16) (by omega)
    simp [encode, pad, h1, h2]
  | case3 a b =>
    have ha : a < 256 := h a (by simp)
    have hb : b < 256 := h b (by simp)
    have h1 := symbol_lt (a / 4) (by omega)
    have h2 := symbol_lt (a % 4 * 16 + b / 16) (by omega)
    have h3 := symbol_lt (b % 16 * 4) (by omega)
    simp [encode, pad, h1, h2, h3]
  | case4 a b c rest ih =>
    have ha : a < 256 := h a (by simp)
    have hb : b < 256 := h b (by simp)
    have hc : c < 256 := h c (by simp)
    have h1 := symbol_lt (a / 4) (by omega)
    have h2 := symbol_lt (a % 4 * 16 + b / 16) (by omega)
    have h3 := symbol_lt (b % 16 * 4 + c / 64) (by omega)
    have h4 := symbol_lt (c % 64) (by omega)
    have hrest := ih fun x hx => h x (by simp [hx])
    simpa [encode, h1, h2, h3, h4] using hrest

end Codec.Base64
