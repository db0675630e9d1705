import Mathlib.Data.Nat.Init

/-! Texts as lists of code points, and their byte forms. A text may hold surrogates, as
a Python string may: the decoders are those of `bytes.decode(…, 'surrogatepass')`. -/

namespace Codec.Unicode

/-- The code points of a string. -/
abbrev Text := List Nat

def isHigh (c : Nat) : Bool := 0xD800 ≤ c && c < 0xDC00

def isLow (c : Nat) : Bool := 0xDC00 ≤ c && c < 0xE000

def isSurrogate (c : Nat) : Bool := 0xD800 ≤ c && c < 0xE000

def joinPair (hi lo : Nat) : Nat := 0x10000 + (hi - 0xD800) * 0x400 + (lo - 0xDC00)

def ofString (s : String) : Text := s.toList.map Char.toNat

/-! ### Digits -/

def isDigit (c : Nat) : Bool := 48 ≤ c && c ≤ 57

def digitsValue (ds : Text) : Nat := ds.foldl (fun n d => n * 10 + (d - 48)) 0

def hexValue (c : Nat) : Option Nat :=
  if 48 ≤ c ∧ c ≤ 57 then some (c - 48)
  else if 97 ≤ c ∧ c ≤ 102 then some (c - 87)
  else if 65 ≤ c ∧ c ≤ 70 then some (c - 55)
  else none

def hexDigit (d : Nat) : Nat := if d < 10 then 48 + d else 87 + d

theorem hexValue_hexDigit : ∀ d < 16, hexValue (hexDigit d) = some d := by decide

theorem hexDigit_lt : ∀ d < 16, hexDigit d < 128 := by decide

/-! ### Bytes of a text -/

def utf8 (c : Nat) : List Nat :=
  if c < 0x80 then [c]
  else if c < 0x800 then [0xC0 + c / 64, 0x80 + c % 64]
  else if c < 0x10000 then [0xE0 + c / 4096, 0x80 + c / 64 % 64, 0x80 + c % 64]
  else [0xF0 + c / 262144, 0x80 + c / 4096 % 64, 0x80 + c / 64 % 64, 0x80 + c % 64]

def encodeUtf8 (t : Text) : List Nat := t.flatMap utf8

/-! ### Texts of bytes -/

def isTail (b : Nat) : Bool := 0x80 ≤ b && b < 0xC0

/-- The shortest forms only; surrogates pass. -/
def decodeUtf8 : List Nat → Option Text
  | [] => some []
  | a :: rest =>
    if a < 0x80 then (decodeUtf8 rest).map (List.cons a)
    else
      match rest with
      | [] => none
      | b :: rest =>
        if !isTail b then none
        else if 0xC2 ≤ a ∧ a < 0xE0 then
          (decodeUtf8 rest).map (List.cons ((a - 0xC0) * 64 + (b - 0x80)))
        else
          match rest with
          | [] => none
          | c :: rest =>
            if !isTail c then none
            else if 0xE0 ≤ a ∧ a < 0xF0 ∧ (a = 0xE0 → 0xA0 ≤ b) then
              (decodeUtf8 rest).map
                (List.cons ((a - 0xE0) * 4096 + (b - 0x80) * 64 + (c - 0x80)))
            else
              match rest with
              | [] => none
              | d :: rest =>
                if isTail d ∧ 0xF0 ≤ a ∧ a < 0xF5 ∧ (a = 0xF0 → 0x90 ≤ b) ∧
                    (a = 0xF4 → b < 0x90) then
                  (decodeUtf8 rest).map (List.cons
                    ((a - 0xF0) * 262144 + (b - 0x80) * 4096 + (c - 0x80) * 64 + (d - 0x80)))
                else none

/-- Two bytes a unit. -/
def units16 (big : Bool) : List Nat → Option (List Nat)
  | [] => some []
  | [_] => none
  | a :: b :: rest =>
    (units16 big rest).map (List.cons (if big then a * 256 + b else b * 256 + a))

/-- Pairs are joined; a surrogate that is not of a pair passes. -/
def joinSurrogates : List Nat → Text
  | [] => []
  | [u] => [u]
  | u :: v :: rest =>
    if isHigh u && isLow v then joinPair u v :: joinSurrogates rest
    else u :: joinSurrogates (v :: rest)

def decodeUtf16 (big : Bool) (bs : List Nat) : Option Text := (units16 big bs).map joinSurrogates

def decodeUtf32 (big : Bool) : List Nat → Option Text
  | [] => some []
  | a :: b :: c :: d :: rest =>
    let u := if big then ((a * 256 + b) * 256 + c) * 256 + d else ((d * 256 + c) * 256 + b) * 256 + a
    if u < 0x110000 then (decodeUtf32 big rest).map (List.cons u) else none
  | _ => none

/-- `json.detect_encoding` followed by the decoder it names; a byte order mark is
dropped. `none` is the `UnicodeDecodeError`. -/
def decodeDetected (bs : List Nat) : Option Text :=
  if [0x00, 0x00, 0xFE, 0xFF].isPrefixOf bs then decodeUtf32 true (bs.drop 4)
  else if [0xFF, 0xFE, 0x00, 0x00].isPrefixOf bs then decodeUtf32 false (bs.drop 4)
  else if [0xFE, 0xFF].isPrefixOf bs then decodeUtf16 true (bs.drop 2)
  else if [0xFF, 0xFE].isPrefixOf bs then decodeUtf16 false (bs.drop 2)
  else if [0xEF, 0xBB, 0xBF].isPrefixOf bs then decodeUtf8 (bs.drop 3)
  else
    match bs with
    | a :: b :: c :: d :: _ =>
      if a = 0 then if b ≠ 0 then decodeUtf16 true bs else decodeUtf32 true bs
      else if b = 0 then if c ≠ 0 ∨ d ≠ 0 then decodeUtf16 false bs else decodeUtf32 false bs
      else decodeUtf8 bs
    | [a, b] =>
      if a = 0 then decodeUtf16 true bs
      else if b = 0 then decodeUtf16 false bs
      else decodeUtf8 bs
    | _ => decodeUtf8 bs

/-! ### ASCII -/

theorem encodeUtf8_ascii (t : Text) (h : ∀ c ∈ t, c < 128) : encodeUtf8 t = t := by
  induction t with
  | nil => rfl
  | cons c t ih =>
    have hc : c < 128 := h c List.mem_cons_self
    have ht := ih fun x hx => h x (List.mem_cons_of_mem c hx)
    rw [encodeUtf8, List.flatMap_cons, ← encodeUtf8, ht]
    simp [utf8, hc]

theorem decodeUtf8_ascii (t : Text) (h : ∀ c ∈ t, c < 128) : decodeUtf8 t = some t := by
  induction t with
  | nil => rfl
  | cons c t ih =>
    have hc : c < 128 := h c List.mem_cons_self
    have ht := ih fun x hx => h x (List.mem_cons_of_mem c hx)
    rw [decodeUtf8.eq_def]
    simp [hc, ht]

/-- A text of four ASCII characters or more that does not begin with NUL. -/
theorem decodeDetected_ascii {a b c d : Nat} {t : Text} (ha : a ≠ 0) (hb : b ≠ 0)
    (h : ∀ x ∈ a :: b :: c :: d :: t, x < 128) :
    decodeDetected (a :: b :: c :: d :: t) = some (a :: b :: c :: d :: t) := by
  have ha' : a < 128 := h a (by simp)
  have hno : ∀ x : Nat, 128 ≤ x → x ≠ a := fun x hx => by omega
  simp [decodeDetected, List.isPrefixOf, ha, hb, Ne.symm ha, hno 0xFF, hno 0xFE, hno 0xEF,
    decodeUtf8_ascii _ h]

/-- The characters of an ASCII text make a string. -/
def toString (t : Text) : String := String.ofList (t.map Char.ofNat)

theorem ofString_toString (t : Text) (h : ∀ c ∈ t, c < 128) : ofString (toString t) = t := by
  unfold ofString toString
  rw [String.toList_ofList, List.map_map]
  refine (List.map_congr_left fun c hc => ?_).trans (List.map_id t)
  have hc' := h c hc
  have hv : c.isValidChar := Or.inl (by omega)
  show (Char.ofNat c).toNat = c
  rw [Char.ofNat, dif_pos hv]
  rfl

end Codec.Unicode
