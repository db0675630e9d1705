import JobProcessor.Codec.Json
import Mathlib.Data.List.TakeWhile

/-! What is written is read back: `loads (dumps gap v) = some v` for every value whose
strings have no lone surrogates, whose floats are tokens of floats and whose objects
have no key twice. -/

namespace Codec.Json

open Unicode

theorem feed_append (st : State) (a b : Text) :
    feed st (a ++ b) = (feed st a).bind fun st' => feed st' b := by
  induction a generalizing st with
  | nil => rfl
  | cons c cs ih =>
    simp only [List.cons_append, feed]
    cases step st c with
    | none => rfl
    | some st' => exact ih st'

theorem feed_cons {st st' : State} {c : Nat} (h : step st c = some st') (cs : Text) :
    feed st (c :: cs) = feed st' cs := by
  simp [feed, h]

theorem feed_trans {st st' : State} {a : Text} (h : feed st a = some st') (b : Text) :
    feed st (a ++ b) = feed st' b := by
  rw [feed_append, h]
  rfl

/-! ### Strings -/

/-- A code point that is not a surrogate. -/
def IsScalar (c : Nat) : Prop := c < 0x110000 ∧ ¬ (0xD800 ≤ c ∧ c < 0xE000)

theorem ofString_scalar (s : String) : ∀ c ∈ ofString s, IsScalar c := by
  intro c hc
  obtain ⟨ch, -, rfl⟩ := List.mem_map.1 hc
  have hv : ch.toNat < 0xD800 ∨ 0xDFFF < ch.toNat ∧ ch.toNat < 0x110000 := ch.valid
  simp only [IsScalar]
  omega

theorem step_hex (stack : List Frame) (s : Str) {d : Nat} (hd : d < 16) (count unit : Nat) :
    step ⟨stack, .hex s count unit⟩ (hexDigit d) =
      some (if count = 3 then ⟨stack, .text (s.unit (unit * 16 + d))⟩
        else ⟨stack, .hex s (count + 1) (unit * 16 + d)⟩) := by
  change (hexValue (hexDigit d)).map _ = _
  rw [hexValue_hexDigit d hd]
  rfl

theorem feed_hex4 (stack : List Frame) (s : Str) {u : Nat} (hu : u < 65536) :
    feed ⟨stack, .text s⟩ (hex4 u) = some ⟨stack, .text (s.unit u)⟩ := by
  have h1 : u / 4096 < 16 := by omega
  have h2 : u / 256 % 16 < 16 := by omega
  have h3 : u / 16 % 16 < 16 := by omega
  have h4 : u % 16 < 16 := by omega
  have hsum : (((0 * 16 + u / 4096) * 16 + u / 256 % 16) * 16 + u / 16 % 16) * 16 + u % 16 = u := by
    omega
  have hopen : feed ⟨stack, .text s⟩ [92, 117] = some ⟨stack, .hex s 0 0⟩ := rfl
  change feed _ ([92, 117] ++ _) = _
  rw [feed_trans hopen, feed_cons (step_hex _ _ h1 0 0), if_neg (by decide),
    feed_cons (step_hex _ _ h2 _ _), if_neg (by decide), feed_cons (step_hex _ _ h3 _ _),
    if_neg (by decide), feed_cons (step_hex _ _ h4 _ _), if_pos rfl, hsum]
  rfl

theorem feed_pair (stack : List Frame) (key : Bool) (acc : Text) {hi lo : Nat}
    (hhi : isHigh hi = true) (hlo : isLow lo = true) :
    feed ⟨stack, .text ⟨key, acc, false⟩⟩ (hex4 hi ++ hex4 lo) =
      some ⟨stack, .text ⟨key, acc ++ [joinPair hi lo], false⟩⟩ := by
  have h1 : hi < 65536 := by
    simp only [isHigh, Bool.and_eq_true, decide_eq_true_eq] at hhi
    omega
  have h2 : lo < 65536 := by
    simp only [isLow, Bool.and_eq_true, decide_eq_true_eq] at hlo
    omega
  rw [feed_trans (feed_hex4 _ _ h1), feed_hex4 _ _ h2]
  simp [Str.unit, hhi, hlo]

/-- The surrogates of a code point outside the basic plane. -/
theorem pair_spec {c : Nat} (h : 0x10000 ≤ c) (hc : c < 0x110000) :
    isHigh (0xD800 + (c - 0x10000) / 0x400) = true ∧
      isLow (0xDC00 + (c - 0x10000) % 0x400) = true ∧
      joinPair (0xD800 + (c - 0x10000) / 0x400) (0xDC00 + (c - 0x10000) % 0x400) = c := by
  refine ⟨?_, ?_, ?_⟩
  · unfold isHigh
    rw [Bool.and_eq_true, decide_eq_true_eq, decide_eq_true_eq]
    omega
  · unfold isLow
    rw [Bool.and_eq_true, decide_eq_true_eq, decide_eq_true_eq]
    omega
  · unfold joinPair
    omega

/-- How a character is written: by a letter, as itself, as one unit or as two. -/
theorem escape_cases (c : Nat) :
    (∃ d < 117, escape c = [92, d] ∧ unescape d = some c) ∨
    (escape c = [c] ∧ 32 ≤ c ∧ c ≤ 126 ∧ c ≠ 34 ∧ c ≠ 92) ∨
    (escape c = hex4 c ∧ c < 0x10000) ∨
    (escape c = hex4 (0xD800 + (c - 0x10000) / 0x400) ++ hex4 (0xDC00 + (c - 0x10000) % 0x400) ∧
      0x10000 ≤ c) := by
  by_cases hletter : c = 34 ∨ c = 92 ∨ c = 10 ∨ c = 13 ∨ c = 9 ∨ c = 12 ∨ c = 8
  · apply Or.inl
    rcases hletter with rfl | rfl | rfl | rfl | rfl | rfl | rfl
    · exact ⟨34, by decide, rfl, rfl⟩
    · exact ⟨92, by decide, rfl, rfl⟩
    · exact ⟨110, by decide, rfl, rfl⟩
    · exact ⟨114, by decide, rfl, rfl⟩
    · exact ⟨116, by decide, rfl, rfl⟩
    · exact ⟨102, by decide, rfl, rfl⟩
    · exact ⟨98, by decide, rfl, rfl⟩
  · apply Or.inr
    simp only [not_or] at hletter
    obtain ⟨h34, h92, h10, h13, h9, h12, h8⟩ := hletter
    rw [escape, if_neg h34, if_neg h92, if_neg h10, if_neg h13, if_neg h9, if_neg h12, if_neg h8]
    by_cases hprint : 32 ≤ c ∧ c ≤ 126
    · rw [if_pos hprint]
      exact Or.inl ⟨rfl, hprint.1, hprint.2, h34, h92⟩
    · rw [if_neg hprint]
      by_cases hbmp : c < 0x10000
      · rw [if_pos hbmp]
        exact Or.inr (Or.inl ⟨rfl, hbmp⟩)
      · rw [if_neg hbmp]
        exact Or.inr (Or.inr ⟨rfl, not_lt.1 hbmp⟩)

theorem feed_escape (stack : List Frame) (key : Bool) (acc : Text) {c : Nat} (hc : IsScalar c) :
    feed ⟨stack, .text ⟨key, acc, false⟩⟩ (escape c) =
      some ⟨stack, .text ⟨key, acc ++ [c], false⟩⟩ := by
  obtain ⟨hlt, hno⟩ := hc
  rcases escape_cases c with ⟨d, hd, heq, hun⟩ | ⟨heq, hlo, -, h34, h92⟩ | ⟨heq, hbmp⟩ | ⟨heq, hbmp⟩
  · have hopen : step ⟨stack, .text ⟨key, acc, false⟩⟩ 92 = some ⟨stack, .escape ⟨key, acc, false⟩⟩ :=
      rfl
    have hletter : step ⟨stack, .escape ⟨key, acc, false⟩⟩ d =
        some ⟨stack, .text ⟨key, acc ++ [c], false⟩⟩ := by
      simp [step, hd.ne, hun, Str.plain]
    rw [heq, feed_cons hopen, feed_cons hletter]
    rfl
  · have hplain : step ⟨stack, .text ⟨key, acc, false⟩⟩ c =
        some ⟨stack, .text ⟨key, acc ++ [c], false⟩⟩ := by
      simp [step, h34, h92, not_lt.2 hlo, Str.plain]
    rw [heq, feed_cons hplain]
    rfl
  · have hhigh : isHigh c = false := by
      simp only [isHigh, Bool.and_eq_false_iff, decide_eq_false_iff_not]
      omega
    rw [heq, feed_hex4 _ _ hbmp]
    simp [Str.unit, hhigh]
  · obtain ⟨hhi, hlo, hjoin⟩ := pair_spec hbmp hlt
    rw [heq, feed_pair _ _ _ hhi hlo, hjoin]

theorem feed_escapes (stack : List Frame) (key : Bool) (acc s : Text) (hs : ∀ c ∈ s, IsScalar c) :
    feed ⟨stack, .text ⟨key, acc, false⟩⟩ (s.flatMap escape) =
      some ⟨stack, .text ⟨key, acc ++ s, false⟩⟩ := by
  induction s generalizing acc with
  | nil => simp [feed]
  | cons c s ih =>
    rw [List.flatMap_cons, feed_trans (feed_escape _ _ _ (hs c List.mem_cons_self)),
      ih _ fun x hx => hs x (List.mem_cons_of_mem c hx), List.append_assoc]
    rfl

theorem feed_string (stack : List Frame) (key : Bool) (s : Text) (hs : ∀ c ∈ s, IsScalar c) :
    feed ⟨stack, .text ⟨key, [], false⟩⟩ (s.flatMap escape ++ [34]) =
      some (endString stack ⟨key, s, false⟩) := by
  rw [feed_trans (feed_escapes _ _ _ _ hs)]
  rfl

/-! ### Tokens -/

abbrev InToken (c : Nat) : Prop :=
  isSpace c = false ∧ c ≠ 44 ∧ c ≠ 93 ∧ c ≠ 125

theorem feed_token (stack : List Frame) (t u : Text) (hu : ∀ c ∈ u, InToken c) :
    feed ⟨stack, .token t⟩ u = some ⟨stack, .token (t ++ u)⟩ := by
  induction u generalizing t with
  | nil => simp [feed]
  | cons c u ih =>
    obtain ⟨hsp, h44, h93, h125⟩ := hu c List.mem_cons_self
    have hstep : step ⟨stack, .token t⟩ c = some ⟨stack, .token (t ++ [c])⟩ := by
      simp [step, hsp, h44, h93, h125]
    rw [feed_cons hstep, ih _ fun x hx => hu x (List.mem_cons_of_mem c hx), List.append_assoc]
    rfl

theorem feed_newToken (stack : List Frame) {c : Nat} {u : Text} (hc : InToken c) (h34 : c ≠ 34)
    (h91 : c ≠ 91) (h123 : c ≠ 123) (hu : ∀ c ∈ u, InToken c) :
    feed ⟨stack, .value⟩ (c :: u) = some ⟨stack, .token (c :: u)⟩ := by
  obtain ⟨hsp, h44, h93, h125⟩ := hc
  have hstep : step ⟨stack, .value⟩ c = some ⟨stack, .token [c]⟩ := by
    simp [step, startValue, hsp, h34, h91, h123, h44, h93, h125]
  rw [feed_cons hstep, feed_token _ _ _ hu]
  rfl

def InNumber (c : Nat) : Bool := isDigit c || c = 43 || c = 45 || c = 46 || c = 69 || c = 101

theorem InNumber.inToken {c : Nat} (h : InNumber c = true) :
    InToken c ∧ c ≠ 34 ∧ c ≠ 91 ∧ c ≠ 123 := by
  simp only [InNumber, isDigit, Bool.or_eq_true, Bool.and_eq_true, decide_eq_true_eq] at h
  simp only [InToken, isSpace, Bool.or_eq_false_iff, decide_eq_false_iff_not]
  omega

theorem feed_number (stack : List Frame) {t : Text} (hne : t ≠ [])
    (ht : ∀ c ∈ t, InNumber c = true) : feed ⟨stack, .value⟩ t = some ⟨stack, .token t⟩ := by
  cases t with
  | nil => exact absurd rfl hne
  | cons c u =>
    obtain ⟨hc, h34, h91, h123⟩ := InNumber.inToken (ht c List.mem_cons_self)
    exact feed_newToken stack hc h34 h91 h123 fun x hx =>
      (InNumber.inToken (ht x (List.mem_cons_of_mem c hx))).1

/-! ### Numbers -/

theorem decimal_ne_nil (n : Nat) : decimal n ≠ [] := by
  unfold decimal
  split
  · simp
  · simpa [Nat.digits_ne_nil_iff_ne_zero]

theorem decimal_digits (n : Nat) : ∀ c ∈ decimal n, isDigit c = true := by
  intro c hc
  unfold decimal at hc
  split at hc
  · rw [List.mem_singleton] at hc
    subst hc
    rfl
  · obtain ⟨d, hd, rfl⟩ := List.mem_map.1 hc
    have hlt : d < 10 := Nat.digits_lt_base (by decide) (List.mem_reverse.1 hd)
    simp only [isDigit, Bool.and_eq_true, decide_eq_true_eq]
    omega

theorem digitsValue_decimal (n : Nat) : digitsValue (decimal n) = n := by
  unfold decimal
  split
  · rename_i h
    subst h
    rfl
  · have hfold : ∀ L : List Nat, digitsValue (L.reverse.map (48 + ·)) = Nat.ofDigits 10 L := by
      intro L
      rw [digitsValue, List.foldl_map, List.foldl_reverse, Nat.ofDigits_eq_foldr]
      congr 1
      funext d m
      simp
      ring
    rw [hfold, Nat.ofDigits_digits]

theorem decimal_head {n : Nat} (h : (decimal n).head? = some 48) : (decimal n).tail = [] := by
  unfold decimal at h ⊢
  split
  · rfl
  · rename_i hn
    rw [if_neg hn] at h
    exfalso
    rw [List.head?_map, List.head?_reverse, Option.map_eq_some_iff] at h
    obtain ⟨d, hd, h48⟩ := h
    have hne : Nat.digits 10 n ≠ [] := Nat.digits_ne_nil_iff_ne_zero.2 hn
    rw [List.getLast?_eq_getLast_of_ne_nil hne, Option.some.injEq] at hd
    have hlast := Nat.getLast_digit_ne_zero 10 hn
    omega

theorem number_dumpInt (i : Int) : number (dumpInt i) = some (.int i) := by
  have hall := decimal_digits i.natAbs
  have htake : (decimal i.natAbs).takeWhile isDigit = decimal i.natAbs :=
    List.takeWhile_eq_self_iff.2 hall
  have hdrop : (decimal i.natAbs).dropWhile isDigit = [] := List.dropWhile_eq_nil_iff.2 hall
  have hlead : ((decimal i.natAbs).isEmpty ||
      ((decimal i.natAbs).head? = some 48 && (decimal i.natAbs).tail ≠ [])) = false := by
    simp only [Bool.or_eq_false_iff, List.isEmpty_eq_false_iff, Bool.and_eq_false_iff,
      decide_eq_false_iff_not, ne_eq, not_not]
    refine ⟨decimal_ne_nil _, ?_⟩
    by_cases h : (decimal i.natAbs).head? = some 48
    · exact .inr (decimal_head h)
    · exact .inl h
  have hhead : (decimal i.natAbs).head? ≠ some 45 := by
    intro h
    have := hall 45 (List.mem_of_head? h)
    simp [isDigit] at this
  unfold dumpInt
  split
  · rename_i hneg
    have hi : -(i.natAbs : Int) = i := by omega
    simp only [number, unsigned, List.head?_cons, if_true, List.tail_cons, htake, hdrop, hlead,
      digitsValue_decimal, hi]
    rfl
  · rename_i hneg
    have hi : (i.natAbs : Int) = i := by omega
    simp only [number, unsigned, hhead, if_false, htake, hdrop, hlead, digitsValue_decimal, hi]
    rfl

theorem isExponent_inNumber {r : Text} (h : isExponent r = true) : ∀ c ∈ r, InNumber c = true := by
  cases r with
  | nil => cases h
  | cons e r =>
    simp only [isExponent, Bool.and_eq_true, Bool.or_eq_true, decide_eq_true_eq] at h
    obtain ⟨⟨he, -⟩, hall⟩ := h
    have hr : ∀ c ∈ r, InNumber c = true := by
      intro c hc
      cases r with
      | nil => cases hc
      | cons s r =>
        by_cases hs : s = 43 ∨ s = 45
        · rcases List.mem_cons.1 hc with rfl | hc
          · rcases hs with rfl | rfl <;> rfl
          · have hd : isDigit c = true := by
              simp only [List.head?_cons, Option.some.injEq, hs, if_true, List.tail_cons,
                List.all_eq_true] at hall
              exact hall c hc
            simp [InNumber, hd]
        · have hd : isDigit c = true := by
            simp only [List.head?_cons, Option.some.injEq, hs, if_false, List.all_eq_true] at hall
            exact hall c hc
          simp [InNumber, hd]
    intro c hc
    rcases List.mem_cons.1 hc with rfl | hc
    · rcases he with rfl | rfl <;> rfl
    · exact hr c hc

theorem isDigit_inNumber {c : Nat} (h : isDigit c = true) : InNumber c = true := by
  simp [InNumber, h]

theorem span_inNumber {u : Text} (h : ∀ c ∈ u.dropWhile isDigit, InNumber c = true) :
    ∀ c ∈ u, InNumber c = true := by
  intro c hc
  rw [← List.takeWhile_append_dropWhile (p := isDigit) (l := u)] at hc
  rcases List.mem_append.1 hc with hc | hc
  · exact isDigit_inNumber (List.mem_takeWhile_imp hc)
  · exact h c hc

theorem isFraction_inNumber {r : Text} (h : isFraction r = true) : ∀ c ∈ r, InNumber c = true := by
  unfold isFraction at h
  split at h
  · rename_i r
    simp only [Bool.and_eq_true, Bool.or_eq_true] at h
    intro c hc
    rcases List.mem_cons.1 hc with rfl | hc
    · rfl
    · refine span_inNumber (u := r) ?_ c hc
      intro c hc
      rcases h.2 with he | he
      · rw [List.isEmpty_iff.1 he] at hc
        cases hc
      · exact isExponent_inNumber he c hc
  · exact isExponent_inNumber h

theorem number_inNumber {t : Text} {v : Value} (h : number t = some v) :
    t ≠ [] ∧ ∀ c ∈ t, InNumber c = true := by
  have hne : t ≠ [] := by
    rintro rfl
    cases h
  refine ⟨hne, ?_⟩
  have hu : ∀ c ∈ unsigned t, InNumber c = true := by
    apply span_inNumber
    unfold number at h
    generalize unsigned t = u at h
    dsimp only at h
    split_ifs at h with h1 h2 h3 h4
    · rw [List.isEmpty_iff.1 h2]
      simp
    · rw [List.isEmpty_iff.1 h2]
      simp
    · exact isFraction_inNumber h4
  cases t with
  | nil => exact absurd rfl hne
  | cons a t =>
    by_cases ha : a = 45
    · subst ha
      intro c hc
      rcases List.mem_cons.1 hc with rfl | hc
      · rfl
      · exact hu c hc
    · simpa [unsigned, ha] using hu

theorem scalar_number {t : Text} (h : ∀ c ∈ t, InNumber c = true) : scalar t = number t := by
  have hno : ∀ (w : List Char) (x : Nat), x ∈ word w → InNumber x = false → t ≠ word w := by
    intro w x hx hbad ht
    subst ht
    rw [h x hx] at hbad
    cases hbad
  have h1 := hno ['n', 'u', 'l', 'l'] 110 (by decide) rfl
  have h2 := hno ['t', 'r', 'u', 'e'] 116 (by decide) rfl
  have h3 := hno ['f', 'a', 'l', 's', 'e'] 102 (by decide) rfl
  have h4 := hno ['N', 'a', 'N'] 78 (by decide) rfl
  have h5 := hno ['I', 'n', 'f', 'i', 'n', 'i', 't', 'y'] 73 (by decide) rfl
  have h6 := hno ['-', 'I', 'n', 'f', 'i', 'n', 'i', 't', 'y'] 73 (by decide) rfl
  simp only [scalar, h1, h2, h3, h4, h5, h6, if_false, or_self]

/-! ### Values -/

/-- Induction over values, with the items of an array and the members of an object as
lists. -/
theorem Value.ind {P : Value → Prop} (null : P .null) (bool : ∀ b, P (.bool b))
    (int : ∀ i, P (.int i)) (float : ∀ t, P (.float t)) (str : ∀ s, P (.str s))
    (arr : ∀ xs, (∀ x ∈ xs, P x) → P (.arr xs))
    (obj : ∀ ms, (∀ m ∈ ms, P m.2) → P (.obj ms)) (v : Value) : P v :=
  @Value.rec P (fun xs => ∀ x ∈ xs, P x) (fun ms => ∀ m ∈ ms, P m.2) (fun m => P m.2)
    null bool int float str arr obj (by simp) (fun _ _ hx hxs => List.forall_mem_cons.2 ⟨hx, hxs⟩)
    (by simp) (fun _ _ hm hms => List.forall_mem_cons.2 ⟨hm, hms⟩) (fun _ _ h => h) v

mutual

/-- A value of Python: no lone surrogates, floats by a token of theirs, no key twice. -/
def Value.Sound : Value → Prop
  | .float t => number t = some (.float t)
  | .str s => ∀ c ∈ s, IsScalar c
  | .arr xs => SoundItems xs
  | .obj ms => (ms.map Prod.fst).Nodup ∧ SoundMembers ms
  | _ => True

def SoundItems : List Value → Prop
  | [] => True
  | v :: vs => v.Sound ∧ SoundItems vs

def SoundMembers : List (Text × Value) → Prop
  | [] => True
  | (k, v) :: ms => (∀ c ∈ k, IsScalar c) ∧ v.Sound ∧ SoundMembers ms

end

theorem soundItems_iff (xs : List Value) : SoundItems xs ↔ ∀ x ∈ xs, x.Sound := by
  induction xs with
  | nil => simp [SoundItems]
  | cons v vs ih => simp [SoundItems, ih]

theorem soundMembers_iff (ms : List (Text × Value)) :
    SoundMembers ms ↔ ∀ m ∈ ms, (∀ c ∈ m.1, IsScalar c) ∧ m.2.Sound := by
  induction ms with
  | nil => simp [SoundMembers]
  | cons m ms ih =>
    obtain ⟨k, v⟩ := m
    simp [SoundMembers, ih, and_assoc]

/-- The reader has taken in the value `v`, and perhaps has not noticed yet. -/
def Reached (stack : List Frame) (v : Value) (st : State) : Prop :=
  st = ⟨stack, .after v⟩ ∨ ∃ t, st = ⟨stack, .token t⟩ ∧ scalar t = some v

theorem Reached.close {stack : List Frame} {v : Value} {st : State} (h : Reached stack v st)
    {c : Nat} (hc : c = 44 ∨ c = 93 ∨ c = 125) : step st c = afterValue stack v c := by
  have hsp : isSpace c = false := by rcases hc with rfl | rfl | rfl <;> rfl
  rcases h with rfl | ⟨t, rfl, ht⟩
  · simp [step, hsp]
  · simp [step, hsp, hc, ht]

theorem Reached.finish {v : Value} {st : State} (h : Reached [] v st) :
    Json.finish st = some v := by
  rcases h with rfl | ⟨t, rfl, ht⟩
  · rfl
  · exact ht

theorem feed_gap {st : State} {gap : Text} (hg : ∀ c ∈ gap, isSpace c = true)
    (hm : st.mode = .value ∨ st.mode = .key) (t : Text) : feed st (gap ++ t) = feed st t := by
  induction gap with
  | nil => rfl
  | cons c gap ih =>
    have hc := hg c List.mem_cons_self
    have hstep : step st c = some st := by
      rcases hm with hm | hm <;> simp [step, hm, hc]
    rw [List.cons_append, feed_cons hstep, ih fun x hx => hg x (List.mem_cons_of_mem c hx)]

/-- A value begins with a character that neither is a space nor closes an array. -/
theorem dumps_cons (gap : Text) {v : Value} (hv : v.Sound) :
    ∃ c u, dumps gap v = c :: u ∧ isSpace c = false ∧ c ≠ 93 := by
  have hnum : ∀ t : Text, t ≠ [] → (∀ c ∈ t, InNumber c = true) →
      ∃ c u, t = c :: u ∧ isSpace c = false ∧ c ≠ 93 := by
    intro t hne ht
    cases t with
    | nil => exact absurd rfl hne
    | cons c u =>
      obtain ⟨⟨hsp, -, h93, -⟩, -⟩ := InNumber.inToken (ht c List.mem_cons_self)
      exact ⟨c, u, rfl, hsp, h93⟩
  cases v with
  | null => exact ⟨110, _, rfl, rfl, by decide⟩
  | bool b =>
    cases b with
    | true => exact ⟨116, _, rfl, rfl, by decide⟩
    | false => exact ⟨102, _, rfl, rfl, by decide⟩
  | int i =>
    obtain ⟨hne, hin⟩ := number_inNumber (number_dumpInt i)
    simpa only [dumps] using hnum _ hne hin
  | float t =>
    simp only [Value.Sound] at hv
    obtain ⟨hne, hin⟩ := number_inNumber hv
    simpa only [dumps] using hnum _ hne hin
  | str s => exact ⟨34, _, by simp only [dumps, dumpString]; rfl, rfl, by decide⟩
  | arr xs => exact ⟨91, _, by simp only [dumps]; rfl, rfl, by decide⟩
  | obj ms => exact ⟨123, _, by simp only [dumps]; rfl, rfl, by decide⟩

/-- The reader takes in `v`, wherever it stands. -/
def Readable (gap : Text) (v : Value) : Prop :=
  ∀ stack, ∃ st, feed ⟨stack, .value⟩ (dumps gap v) = some st ∧ Reached stack v st

theorem feed_items {gap : Text} (hg : ∀ c ∈ gap, isSpace c = true) (stack : List Frame)
    (done xs : List Value) (hne : xs ≠ []) (hxs : ∀ x ∈ xs, Readable gap x) :
    feed ⟨.arr done :: stack, .value⟩ (dumpItems gap xs ++ [93]) =
      some ⟨stack, .after (.arr (done ++ xs))⟩ := by
  induction xs generalizing done with
  | nil => exact absurd rfl hne
  | cons v vs ih =>
    obtain ⟨st, hfeed, hr⟩ := hxs v List.mem_cons_self (.arr done :: stack)
    rw [dumpItems, List.append_assoc, feed_trans hfeed]
    cases vs with
    | nil =>
      have hstep : step st 93 = some ⟨stack, .after (.arr (done ++ [v]))⟩ := by
        rw [hr.close (by simp)]
        rfl
      exact feed_cons hstep []
    | cons w ws =>
      have hstep : step st 44 = some ⟨.arr (done ++ [v]) :: stack, .value⟩ := by
        rw [hr.close (by simp)]
        rfl
      have hrest := ih (done ++ [v]) (by simp) fun x hx => hxs x (List.mem_cons_of_mem v hx)
      rw [List.append_assoc] at hrest
      rw [if_neg (by simp), List.cons_append, List.cons_append, feed_cons hstep, List.append_assoc,
        feed_gap hg (.inl rfl), hrest]
      rfl

theorem setItem_new {k : Text} {v : Value} {ms : List (Text × Value)}
    (h : k ∉ ms.map Prod.fst) : setItem k v ms = ms ++ [(k, v)] := by
  induction ms with
  | nil => rfl
  | cons m ms ih =>
    obtain ⟨k', v'⟩ := m
    simp only [List.map_cons, List.mem_cons, not_or] at h
    rw [setItem, if_neg (Ne.symm h.1), ih h.2]
    rfl

theorem feed_members {gap : Text} (hg : ∀ c ∈ gap, isSpace c = true) (stack : List Frame)
    (done ms : List (Text × Value)) (hne : ms ≠ [])
    (hnodup : ((done ++ ms).map Prod.fst).Nodup)
    (hms : ∀ m ∈ ms, (∀ c ∈ m.1, IsScalar c) ∧ Readable gap m.2) :
    feed ⟨.obj done :: stack, .key⟩ (dumpMembers gap ms ++ [125]) =
      some ⟨stack, .after (.obj (done ++ ms))⟩ := by
  induction ms generalizing done with
  | nil => exact absurd rfl hne
  | cons m ms ih =>
    obtain ⟨k, v⟩ := m
    obtain ⟨hk, hv⟩ := hms (k, v) List.mem_cons_self
    obtain ⟨st, hfeed, hr⟩ := hv (.member done k :: stack)
    have hset : setItem k v done = done ++ [(k, v)] := by
      refine setItem_new fun hmem => ?_
      rw [List.map_append, List.nodup_append] at hnodup
      exact hnodup.2.2 k hmem k (by simp) rfl
    -- the key, the colon and the value
    have hkey : feed ⟨.obj done :: stack, .key⟩ (dumpString k) =
        some ⟨.obj done :: stack, .colon k⟩ := by
      rw [dumpString, List.cons_append]
      exact feed_string (.obj done :: stack) true k hk
    have hcolon : step ⟨.obj done :: stack, .colon k⟩ 58 = some ⟨.member done k :: stack, .value⟩ :=
      rfl
    rw [dumpMembers]
    simp only [List.append_assoc, List.cons_append]
    rw [feed_trans hkey, feed_cons hcolon, feed_gap hg (.inl rfl), feed_trans hfeed]
    cases ms with
    | nil =>
      have hstep : step st 125 = some ⟨stack, .after (.obj (done ++ [(k, v)]))⟩ := by
        rw [hr.close (by simp), ← hset]
        rfl
      exact feed_cons hstep []
    | cons m ms =>
      have hstep : step st 44 = some ⟨.obj (done ++ [(k, v)]) :: stack, .key⟩ := by
        rw [hr.close (by simp), ← hset]
        rfl
      have hrest := ih (done ++ [(k, v)]) (by simp) (by simpa using hnodup)
        fun x hx => hms x (List.mem_cons_of_mem _ hx)
      rw [List.append_assoc] at hrest
      rw [if_neg (by simp), List.cons_append, feed_cons hstep, List.append_assoc,
        feed_gap hg (.inr rfl), hrest]
      rfl

theorem readable_literal (gap : Text) {v : Value} {c : Nat} {u : Text} (hd : dumps gap v = c :: u)
    (hs : scalar (c :: u) = some v) (hc : InToken c) (h34 : c ≠ 34) (h91 : c ≠ 91) (h123 : c ≠ 123)
    (hu : ∀ x ∈ u, InToken x) : Readable gap v := by
  intro stack
  refine ⟨_, ?_, .inr ⟨c :: u, rfl, hs⟩⟩
  rw [hd]
  exact feed_newToken stack hc h34 h91 h123 hu

theorem readable_number (gap : Text) {v : Value} {t : Text} (hd : dumps gap v = t)
    (ht : number t = some v) : Readable gap v := by
  intro stack
  obtain ⟨hne, hin⟩ := number_inNumber ht
  refine ⟨_, ?_, .inr ⟨t, rfl, (scalar_number hin).trans ht⟩⟩
  rw [hd]
  exact feed_number stack hne hin

theorem readable_arr {gap : Text} (hg : ∀ c ∈ gap, isSpace c = true) {xs : List Value}
    (hs : ∀ x ∈ xs, x.Sound) (hxs : ∀ x ∈ xs, Readable gap x) : Readable gap (.arr xs) := by
  intro stack
  refine ⟨⟨stack, .after (.arr xs)⟩, ?_, .inl rfl⟩
  have hopen : step ⟨stack, .value⟩ 91 = some ⟨.arr [] :: stack, .element⟩ := rfl
  rw [dumps, List.cons_append, feed_cons hopen]
  cases xs with
  | nil => rfl
  | cons v vs =>
    -- after the bracket the first item is read as any other
    obtain ⟨c, u, hd, hsp, h93⟩ := dumps_cons gap (hs v List.mem_cons_self)
    have hfirst : step ⟨.arr [] :: stack, .element⟩ c = step ⟨.arr [] :: stack, .value⟩ c := by
      simp [step, hsp, h93]
    have hitems := feed_items hg stack [] (v :: vs) (by simp) hxs
    rw [dumpItems, hd, List.append_assoc, List.cons_append, feed] at hitems ⊢
    rw [hfirst, hitems]
    rfl

theorem readable_obj {gap : Text} (hg : ∀ c ∈ gap, isSpace c = true) {ms : List (Text × Value)}
    (hnodup : (ms.map Prod.fst).Nodup)
    (hms : ∀ m ∈ ms, (∀ c ∈ m.1, IsScalar c) ∧ Readable gap m.2) : Readable gap (.obj ms) := by
  intro stack
  refine ⟨⟨stack, .after (.obj ms)⟩, ?_, .inl rfl⟩
  have hopen : step ⟨stack, .value⟩ 123 = some ⟨.obj [] :: stack, .firstKey⟩ := rfl
  rw [dumps, List.cons_append, feed_cons hopen]
  cases ms with
  | nil => rfl
  | cons m ms =>
    have hfirst : step ⟨.obj [] :: stack, .firstKey⟩ 34 = step ⟨.obj [] :: stack, .key⟩ 34 := rfl
    have hmembers := feed_members hg stack [] (m :: ms) (by simp) hnodup hms
    obtain ⟨k, v⟩ := m
    rw [dumpMembers, dumpString] at hmembers ⊢
    simp only [List.cons_append, feed] at hmembers ⊢
    rw [hfirst, hmembers]
    rfl

theorem readable {gap : Text} (hg : ∀ c ∈ gap, isSpace c = true) (v : Value) (hv : v.Sound) :
    Readable gap v := by
  induction v using Value.ind with
  | null =>
    exact readable_literal gap rfl rfl (by decide) (by decide) (by decide) (by decide) (by decide)
  | bool b =>
    cases b with
    | true =>
      exact readable_literal gap rfl rfl (by decide) (by decide) (by decide) (by decide)
        (by decide)
    | false =>
      exact readable_literal gap rfl rfl (by decide) (by decide) (by decide) (by decide)
        (by decide)
  | int i => exact readable_number gap (by rw [dumps]) (number_dumpInt i)
  | float t => exact readable_number gap (by rw [dumps]) (by simpa only [Value.Sound] using hv)
  | str s =>
    intro stack
    refine ⟨_, ?_, .inl rfl⟩
    rw [dumps, dumpString, List.cons_append]
    exact feed_string stack false s (by simpa only [Value.Sound] using hv)
  | arr xs ih =>
    have hxs := (soundItems_iff xs).1 (by simpa only [Value.Sound] using hv)
    exact readable_arr hg hxs fun x hx => ih x hx (hxs x hx)
  | obj ms ih =>
    simp only [Value.Sound] at hv
    have hms := (soundMembers_iff ms).1 hv.2
    exact readable_obj hg hv.1 fun m hm => ⟨(hms m hm).1, ih m hm (hms m hm).2⟩

/-- The reader inverts the writer. -/
theorem loads_dumps {gap : Text} (hg : ∀ c ∈ gap, isSpace c = true) {v : Value} (hv : v.Sound) :
    loads (dumps gap v) = some v := by
  obtain ⟨st, hfeed, hr⟩ := readable hg v hv []
  rw [loads, hfeed]
  exact hr.finish

/-! ### Only ASCII is written -/

theorem hex4_lt {u : Nat} (hu : u < 65536) : ∀ x ∈ hex4 u, x < 128 := by
  have h1 := hexDigit_lt (u / 4096) (by omega)
  have h2 := hexDigit_lt (u / 256 % 16) (by omega)
  have h3 := hexDigit_lt (u / 16 % 16) (by omega)
  have h4 := hexDigit_lt (u % 16) (by omega)
  simp [hex4, h1, h2, h3, h4]

theorem escape_lt {c : Nat} (hc : IsScalar c) : ∀ x ∈ escape c, x < 128 := by
  obtain ⟨hlt, -⟩ := hc
  intro x hx
  rcases escape_cases c with ⟨d, hd, heq, -⟩ | ⟨heq, -, hhi, -⟩ | ⟨heq, hbmp⟩ | ⟨heq, -⟩
  · rw [heq, List.mem_pair] at hx
    omega
  · rw [heq, List.mem_singleton] at hx
    omega
  · rw [heq] at hx
    exact hex4_lt hbmp x hx
  · rw [heq] at hx
    rcases List.mem_append.1 hx with hx | hx
    · exact hex4_lt (by omega) x hx
    · exact hex4_lt (by omega) x hx

theorem dumpString_lt {s : Text} (hs : ∀ c ∈ s, IsScalar c) : ∀ x ∈ dumpString s, x < 128 := by
  intro x hx
  simp only [dumpString, List.cons_append, List.mem_cons, List.mem_append, List.mem_flatMap,
    List.not_mem_nil, or_false] at hx
  rcases hx with rfl | ⟨c, hc, hx⟩ | rfl
  · decide
  · exact escape_lt (hs c hc) x hx
  · decide

theorem inNumber_lt {c : Nat} (h : InNumber c = true) : c < 128 := by
  simp only [InNumber, isDigit, Bool.or_eq_true, Bool.and_eq_true, decide_eq_true_eq] at h
  omega

theorem dumpItems_lt {gap : Text} (hg : ∀ c ∈ gap, c < 128) (xs : List Value)
    (hxs : ∀ v ∈ xs, ∀ x ∈ dumps gap v, x < 128) : ∀ x ∈ dumpItems gap xs, x < 128 := by
  induction xs with
  | nil => simp [dumpItems]
  | cons v vs ih =>
    have hvs := ih fun w hw => hxs w (List.mem_cons_of_mem v hw)
    intro x hx
    rw [dumpItems, List.mem_append] at hx
    rcases hx with hx | hx
    · exact hxs v List.mem_cons_self x hx
    · split at hx
      · cases hx
      · simp only [List.cons_append, List.mem_cons, List.mem_append] at hx
        rcases hx with rfl | hx | hx
        · decide
        · exact hg x hx
        · exact hvs x hx

theorem dumpMembers_lt {gap : Text} (hg : ∀ c ∈ gap, c < 128) (ms : List (Text × Value))
    (hms : ∀ m ∈ ms, (∀ c ∈ m.1, IsScalar c) ∧ ∀ x ∈ dumps gap m.2, x < 128) :
    ∀ x ∈ dumpMembers gap ms, x < 128 := by
  induction ms with
  | nil => simp [dumpMembers]
  | cons m ms ih =>
    obtain ⟨k, v⟩ := m
    obtain ⟨hk, hv⟩ := hms (k, v) List.mem_cons_self
    have hrest := ih fun w hw => hms w (List.mem_cons_of_mem _ hw)
    intro x hx
    rw [dumpMembers, List.mem_append] at hx
    rcases hx with hx | hx
    · simp only [List.append_assoc, List.cons_append, List.mem_cons, List.mem_append] at hx
      rcases hx with hx | rfl | hx | hx
      · exact dumpString_lt hk x hx
      · decide
      · exact hg x hx
      · exact hv x hx
    · split at hx
      · cases hx
      · simp only [List.cons_append, List.mem_cons, List.mem_append] at hx
        rcases hx with rfl | hx | hx
        · decide
        · exact hg x hx
        · exact hrest x hx

theorem dumps_lt {gap : Text} (hg : ∀ c ∈ gap, c < 128) (v : Value) (hv : v.Sound) :
    ∀ x ∈ dumps gap v, x < 128 := by
  have hnum : ∀ {t : Text} {u : Value}, number t = some u → ∀ x ∈ t, x < 128 := fun h x hx =>
    inNumber_lt ((number_inNumber h).2 x hx)
  induction v using Value.ind with
  | null => exact (by decide : ∀ x ∈ word ['n', 'u', 'l', 'l'], x < 128)
  | bool b =>
    cases b with
    | true => exact (by decide : ∀ x ∈ word ['t', 'r', 'u', 'e'], x < 128)
    | false => exact (by decide : ∀ x ∈ word ['f', 'a', 'l', 's', 'e'], x < 128)
  | int i => exact hnum (number_dumpInt i)
  | float t => exact hnum hv
  | str s => exact dumpString_lt hv
  | arr xs ih =>
    have hxs := (soundItems_iff xs).1 hv
    have hitems := dumpItems_lt hg xs fun v hm => ih v hm (hxs v hm)
    intro x hx
    simp only [dumps, List.cons_append, List.mem_cons, List.mem_append, List.not_mem_nil,
      or_false] at hx
    rcases hx with rfl | hx | rfl
    · decide
    · exact hitems x hx
    · decide
  | obj ms ih =>
    have hms := (soundMembers_iff ms).1 hv.2
    have hmembers := dumpMembers_lt hg ms fun m hm => ⟨(hms m hm).1, ih m hm (hms m hm).2⟩
    intro x hx
    simp only [dumps, List.cons_append, List.mem_cons, List.mem_append, List.not_mem_nil,
      or_false] at hx
    rcases hx with rfl | hx | rfl
    · decide
    · exact hmembers x hx
    · decide

end Codec.Json
