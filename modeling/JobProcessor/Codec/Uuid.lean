import JobProcessor.Codec.Unicode
import Mathlib.Algebra.GroupWithZero.Nat

/-! UUIDs, which are numbers of 128 bits: the text of `str(uuid)`, and the reader
`uuid.UUID(text)`, which lets pass far more than that text. -/

namespace Codec.Uuid

open Unicode

/-! ### The writer -/

/-- The lowest `k` hexadecimal digits of a number. -/
def hexPad : Nat → Nat → Text
  | 0, _ => []
  | k + 1, n => hexPad k (n / 16) ++ [hexDigit (n % 16)]

def format (u : Fin (2 ^ 128)) : Text :=
  let h := hexPad 32 u.val
  h.take 8 ++ 45 :: ((h.drop 8).take 4 ++ 45 :: ((h.drop 12).take 4 ++
    45 :: ((h.drop 16).take 4 ++ 45 :: h.drop 20)))

/-! ### The reader -/

/-- `t.replace(pat, "")`, where `skip` more characters of an occurrence are passed over. -/
def removeFrom (pat : Text) : Nat → Text → Text
  | _, [] => []
  | skip + 1, _ :: t => removeFrom pat skip t
  | 0, c :: t =>
    if pat.isPrefixOf (c :: t) then removeFrom pat (pat.length - 1) t else c :: removeFrom pat 0 t

def strip (p : Nat → Bool) (t : Text) : Text := ((t.dropWhile p).reverse.dropWhile p).reverse

/-- The zeros of the decimal digits beyond ASCII; nine digits follow each. -/
def decimalZeros : List Nat :=
  [0x660, 0x6F0, 0x7C0, 0x966, 0x9E6, 0xA66, 0xAE6, 0xB66, 0xBE6, 0xC66, 0xCE6, 0xD66, 0xDE6, 0xE50,
    0xED0, 0xF20, 0x1040, 0x1090, 0x17E0, 0x1810, 0x1946, 0x19D0, 0x1A80, 0x1A90, 0x1B50, 0x1BB0,
    0x1C40, 0x1C50, 0xA620, 0xA8D0, 0xA900, 0xA9D0, 0xA9F0, 0xAA50, 0xABF0, 0xFF10, 0x104A0, 0x10D30,
    0x11066, 0x110F0, 0x11136, 0x111D0, 0x112F0, 0x11450, 0x114D0, 0x11650, 0x116C0, 0x11730,
    0x118E0, 0x11950, 0x11C50, 0x11D50, 0x11DA0, 0x16A60, 0x16AC0, 0x16B50, 0x1D7CE, 0x1D7D8,
    0x1D7E2, 0x1D7EC, 0x1D7F6, 0x1E140, 0x1E2F0, 0x1E950, 0x1FBF0]

def isWideSpace (c : Nat) : Bool :=
  c = 0x85 || c = 0xA0 || c = 0x1680 || (0x2000 ≤ c && c ≤ 0x200A) || c = 0x2028 || c = 0x2029 ||
    c = 0x202F || c = 0x205F || c = 0x3000

/-- A character as `int` reads it: digits and spaces of any script are those of ASCII,
and what else is not ASCII is a question mark. -/
def toAscii (c : Nat) : Nat :=
  if c < 127 then c
  else if isWideSpace c then 32
  else
    match decimalZeros.find? fun z => z ≤ c ∧ c < z + 10 with
    | some z => 48 + (c - z)
    | none => 63

def isSpace (c : Nat) : Bool := c = 32 || (9 ≤ c && c ≤ 13)

/-- Digits with single underscores between them: `n` is read, and `under` tells that a
digit must follow. -/
def readHex (n : Nat) (under : Bool) : Text → Option Nat
  | [] => if under then none else some n
  | c :: t =>
    if c = 95 then if under then none else readHex n true t
    else (hexValue c).bind fun d => readHex (n * 16 + d) false t

def readPrefixed (t : Text) : Option Nat :=
  if t[0]? = some 48 ∧ (t[1]? = some 120 ∨ t[1]? = some 88) then
    let t := t.drop 2
    readHex 0 true (if t.head? = some 95 then t.tail else t)
  else readHex 0 true t

/-- `int(t, 16)` of a text that has no minus sign. -/
def intOfHex (t : Text) : Option Nat :=
  let t := strip isSpace (t.map toAscii)
  readPrefixed (if t.head? = some 43 then t.tail else t)

/-- `UUID(t)`; `none` is the `ValueError`. -/
def parse (t : Text) : Option (Fin (2 ^ 128)) :=
  -- `urn:`, `uuid:`, the braces and the dashes are dropped
  let t := removeFrom [117, 117, 105, 100, 58] 0 (removeFrom [117, 114, 110, 58] 0 t)
  let t := (strip (fun c => c = 123 || c = 125) t).filter (· ≠ 45)
  if t.length = 32 then (intOfHex t).bind fun n => if h : n < 2 ^ 128 then some ⟨n, h⟩ else none
  else none

/-! ### The round trip -/

/-- The characters of a UUID: lower-case hexadecimal digits, and dashes. -/
def Plain (c : Nat) : Prop := c = 45 ∨ 48 ≤ c ∧ c ≤ 57 ∨ 97 ≤ c ∧ c ≤ 102

theorem hexDigit_plain : ∀ d < 16, Plain (hexDigit d) ∧ hexDigit d ≠ 45 := by
  intro d hd
  unfold Plain hexDigit
  split <;> omega

theorem hexPad_plain (k n : Nat) : ∀ c ∈ hexPad k n, Plain c ∧ c ≠ 45 := by
  induction k generalizing n with
  | zero => simp [hexPad]
  | succ k ih =>
    intro c hc
    rw [hexPad, List.mem_append, List.mem_singleton] at hc
    rcases hc with hc | rfl
    · exact ih (n / 16) c hc
    · exact hexDigit_plain _ (Nat.mod_lt n (by decide))

theorem hexPad_length (k n : Nat) : (hexPad k n).length = k := by
  induction k generalizing n with
  | zero => rfl
  | succ k ih => rw [hexPad, List.length_append, ih, List.length_singleton]

theorem readHex_append (n : Nat) (under : Bool) (t : Text) {m d : Nat} (hd : d < 16)
    (h : readHex n under t = some m) : readHex n under (t ++ [hexDigit d]) = some (m * 16 + d) := by
  have hne : hexDigit d ≠ 95 := by
    have hplain := (hexDigit_plain d hd).1
    unfold Plain at hplain
    omega
  induction t generalizing n under with
  | nil =>
    cases under with
    | true => simp [readHex] at h
    | false =>
      obtain rfl : n = m := by simpa [readHex] using h
      simp [readHex, hne, hexValue_hexDigit d hd]
  | cons c t ih =>
    rw [readHex] at h
    rw [List.cons_append, readHex]
    by_cases hc : c = 95
    · rw [if_pos hc] at h ⊢
      cases under with
      | true => simp at h
      | false => exact ih n true h
    · rw [if_neg hc] at h ⊢
      obtain ⟨v, hv, hrest⟩ := Option.bind_eq_some_iff.1 h
      rw [hv]
      exact ih (n * 16 + v) false hrest

theorem readHex_hexPad (k n : Nat) : readHex 0 true (hexPad (k + 1) n) = some (n % 16 ^ (k + 1)) := by
  induction k generalizing n with
  | zero =>
    have hlt : n % 16 < 16 := Nat.mod_lt n (by decide)
    have hne : hexDigit (n % 16) ≠ 95 := by
      have hplain := (hexDigit_plain _ hlt).1
      unfold Plain at hplain
      omega
    simp [hexPad, readHex, hne, hexValue_hexDigit _ hlt]
  | succ k ih =>
    rw [hexPad, readHex_append 0 true _ (Nat.mod_lt n (by decide)) (ih (n / 16))]
    congr 1
    rw [Nat.pow_succ' (n := k + 1), Nat.mod_mul]
    omega

section Kept

variable {t : Text}

/-- A pattern with a character that is not there is not found. -/
theorem removeFrom_eq {pat : Text} {a : Nat} (hpat : pat.head? = some a) (h : a ∉ t) :
    removeFrom pat 0 t = t := by
  induction t with
  | nil => rfl
  | cons c t ih =>
    have hc : a ≠ c := fun hac => h (hac ▸ List.mem_cons_self)
    have hpre : pat.isPrefixOf (c :: t) = false := by
      cases pat with
      | nil => simp at hpat
      | cons b pat =>
        obtain rfl : b = a := by simpa using hpat
        simp [List.isPrefixOf, hc]
    rw [removeFrom, hpre, if_neg Bool.false_ne_true, ih fun hmem => h (List.mem_cons_of_mem c hmem)]

theorem dropWhile_none {p : Nat → Bool} (h : ∀ c ∈ t, p c = false) : t.dropWhile p = t := by
  cases t with
  | nil => rfl
  | cons c t => rw [List.dropWhile_cons_of_neg (by simp [h c List.mem_cons_self])]

theorem strip_eq {p : Nat → Bool} (h : ∀ c ∈ t, p c = false) : strip p t = t := by
  have hrev : ∀ c ∈ t.reverse, p c = false := fun c hc => h c (List.mem_reverse.1 hc)
  rw [strip, dropWhile_none h, dropWhile_none hrev, List.reverse_reverse]

end Kept

theorem format_plain (u : Fin (2 ^ 128)) : ∀ c ∈ format u, Plain c := by
  have hdash : Plain 45 := Or.inl rfl
  have htake : ∀ i k, ∀ c ∈ ((hexPad 32 u.val).drop i).take k, Plain c := fun i k c hc =>
    (hexPad_plain 32 u.val c (List.mem_of_mem_drop (List.mem_of_mem_take hc))).1
  intro c hc
  simp only [format, List.mem_append, List.mem_cons] at hc
  rcases hc with hc | rfl | hc | rfl | hc | rfl | hc | rfl | hc
  · exact htake 0 8 c hc
  · exact hdash
  · exact htake 8 4 c hc
  · exact hdash
  · exact htake 12 4 c hc
  · exact hdash
  · exact htake 16 4 c hc
  · exact hdash
  · exact (hexPad_plain 32 u.val c (List.mem_of_mem_drop hc)).1

theorem format_filter (u : Fin (2 ^ 128)) :
    (format u).filter (· ≠ 45) = hexPad 32 u.val := by
  have hkeep : ∀ i k, (((hexPad 32 u.val).drop i).take k).filter (fun c => decide (c ≠ 45)) =
      ((hexPad 32 u.val).drop i).take k := fun i k =>
    List.filter_eq_self.2 fun c hc => by
      simpa using (hexPad_plain 32 u.val c (List.mem_of_mem_drop (List.mem_of_mem_take hc))).2
  have hlast : ((hexPad 32 u.val).drop 20).filter (fun c => decide (c ≠ 45)) =
      (hexPad 32 u.val).drop 20 :=
    List.filter_eq_self.2 fun c hc => by
      simpa using (hexPad_plain 32 u.val c (List.mem_of_mem_drop hc)).2
  have hjoin : ∀ i k, ((hexPad 32 u.val).drop i).take k ++ (hexPad 32 u.val).drop (i + k) =
      (hexPad 32 u.val).drop i := fun i k => by
    rw [← List.drop_drop, List.take_append_drop]
  have hfirst := hkeep 0 8
  rw [List.drop_zero] at hfirst
  simp only [format, List.filter_append, List.filter_cons, ne_eq, not_true, decide_false,
    Bool.false_eq_true, if_false] at hfirst hkeep hlast ⊢
  rw [hfirst, hkeep 8 4, hkeep 12 4, hkeep 16 4, hlast, hjoin 16 4, hjoin 12 4, hjoin 8 4]
  exact List.take_append_drop 8 (hexPad 32 u.val)

theorem intOfHex_hexPad (u : Fin (2 ^ 128)) : intOfHex (hexPad 32 u.val) = some u.val := by
  have hplain : ∀ c ∈ hexPad 32 u.val, 48 ≤ c ∧ c ≤ 102 := fun c hc => by
    have h := hexPad_plain 32 u.val c hc
    unfold Plain at h
    omega
  have hascii : (hexPad 32 u.val).map toAscii = hexPad 32 u.val := by
    refine (List.map_congr_left fun c hc => ?_).trans (List.map_id _)
    have h := hplain c hc
    rw [toAscii, if_pos (by omega), id]
  have hstrip : strip isSpace (hexPad 32 u.val) = hexPad 32 u.val := by
    apply strip_eq
    intro c hc
    have h := hplain c hc
    simp only [isSpace, Bool.or_eq_false_iff, Bool.and_eq_false_iff, decide_eq_false_iff_not]
    omega
  have hsign : (hexPad 32 u.val).head? ≠ some 43 := fun h => by
    have h := hplain 43 (List.mem_of_mem_head? h)
    omega
  have hx : ¬ ((hexPad 32 u.val)[1]? = some 120 ∨ (hexPad 32 u.val)[1]? = some 88) := by
    have hdigit := hexPad_plain 32 u.val
    rintro (h | h)
    all_goals
      have h := (hdigit _ (List.mem_of_getElem? h)).1
      unfold Plain at h
      omega
  have hmod : u.val % 16 ^ 32 = u.val := Nat.mod_eq_of_lt u.isLt
  rw [intOfHex, hascii, hstrip, if_neg hsign, readPrefixed, if_neg fun h => hx h.2,
    readHex_hexPad 31, hmod]

theorem parse_format (u : Fin (2 ^ 128)) : parse (format u) = some u := by
  have hplain := format_plain u
  have hu : 117 ∉ format u := fun h => by
    have h := hplain 117 h
    unfold Plain at h
    omega
  have hstrip : strip (fun c => decide (c = 123) || decide (c = 125)) (format u) = format u := by
    apply strip_eq
    intro c hc
    have h := hplain c hc
    unfold Plain at h
    simp only [Bool.or_eq_false_iff, decide_eq_false_iff_not]
    omega
  simp only [parse]
  rw [removeFrom_eq rfl hu, removeFrom_eq rfl hu, hstrip, format_filter, hexPad_length, if_pos rfl,
    intOfHex_hexPad]
  simp

end Codec.Uuid
