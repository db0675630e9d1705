import JobProcessor.Codec.Unicode
import Mathlib.Algebra.GroupWithZero.Nat
import Mathlib.Algebra.Order.Group.Int

/-! Points in time as `datetime.datetime` has them, their ISO 8601 text, and the reader
of such texts, `datetime.fromisoformat`. The reader is that of CPython 3.11, with what
it lets pass beyond the standard. -/

namespace Codec.Datetime

open Unicode

/-! ### The calendar -/

def isLeap (year : Nat) : Bool := year % 4 = 0 && (year % 100 ≠ 0 || year % 400 = 0)

def daysInMonth (year month : Nat) : Nat :=
  if month = 2 then if isLeap year then 29 else 28
  else if month = 4 ∨ month = 6 ∨ month = 9 ∨ month = 11 then 30
  else 31

/-- The number of the first day of a year, 1 January of the year 1 being 1. -/
def firstOfYear (year : Nat) : Nat :=
  (year - 1) * 365 + (year - 1) / 4 - (year - 1) / 100 + (year - 1) / 400 + 1

def daysBeforeMonth (year month : Nat) : Nat :=
  ((List.range (month - 1)).map fun m => daysInMonth year (m + 1)).sum

/-- `_ord2ymd`: the date of a day number. -/
def dateOfOrdinal (n : Nat) : Nat × Nat × Nat :=
  let n := n - 1
  let n400 := n / 146097
  let n := n % 146097
  let n100 := n / 36524
  let n := n % 36524
  let n4 := n / 1461
  let n := n % 1461
  let n1 := n / 365
  let n := n % 365
  let year := n400 * 400 + 1 + n100 * 100 + n4 * 4 + n1
  if n1 = 4 ∨ n100 = 4 then (year - 1, 12, 31)
  else
    -- the estimate of the month is at most one too large
    let month := (n + 50) / 32
    let month := if n < daysBeforeMonth year month then month - 1 else month
    (year, month, n - daysBeforeMonth year month + 1)

/-- `_isoweek_to_gregorian`: the date of a day of a week of the ISO year. -/
def dateOfWeek (year week day : Nat) : Option (Nat × Nat × Nat) :=
  let first := firstOfYear year
  let weeks := if first % 7 = 4 ∨ first % 7 = 3 ∧ isLeap year then 53 else 52
  if 1 ≤ year ∧ year ≤ 9999 ∧ 1 ≤ week ∧ week ≤ weeks ∧ 1 ≤ day ∧ day ≤ 7 then
    let weekday := (first + 6) % 7
    let monday := if 3 < weekday then first + 7 - weekday else first - weekday
    some (dateOfOrdinal (monday + (week - 1) * 7 + (day - 1)))
  else none

/-! ### Points in time -/

/-- The fields of a `datetime`; the offset from UTC is in microseconds, and none for a
naive one. -/
structure Fields where
  year : Nat
  month : Nat
  day : Nat
  hour : Nat
  minute : Nat
  second : Nat
  microsecond : Nat
  offset : Option Int
deriving DecidableEq, Repr

def dayLength : Nat := 86400000000

/-- What the constructor of `datetime` and that of its `timezone` accept. -/
def Fields.ok (f : Fields) : Bool :=
  1 ≤ f.year && f.year ≤ 9999 && 1 ≤ f.month && f.month ≤ 12 && 1 ≤ f.day &&
  f.day ≤ daysInMonth f.year f.month && f.hour < 24 && f.minute < 60 && f.second < 60 &&
  f.microsecond < 1000000 && f.offset.all fun o => o.natAbs < dayLength

structure DateTime where
  fields : Fields
  ok : fields.ok = true
deriving DecidableEq

/-- The constructor; `none` is its `ValueError`. -/
def DateTime.make (f : Fields) : Option DateTime := if h : f.ok = true then some ⟨f, h⟩ else none

def DateTime.aware (d : DateTime) : Bool := d.fields.offset.isSome

/-! ### The writer -/

def pad2 (n : Nat) : Text := [48 + n / 10, 48 + n % 10]

def pad4 (n : Nat) : Text := pad2 (n / 100) ++ pad2 (n % 100)

def pad6 (n : Nat) : Text := pad2 (n / 10000) ++ pad4 (n % 10000)

/-- The fraction of a second, unless it is zero. -/
def showFraction (microsecond : Nat) : Text := if microsecond = 0 then [] else 46 :: pad6 microsecond

/-- `_format_offset`. -/
def showOffset (offset : Int) : Text :=
  let n := offset.natAbs
  let sign := if offset < 0 then 45 else 43
  let seconds := n / 1000000 % 60
  let microsecond := n % 1000000
  sign :: pad2 (n / 3600000000) ++ 58 :: pad2 (n / 60000000 % 60) ++
    if seconds = 0 ∧ microsecond = 0 then [] else 58 :: pad2 seconds ++ showFraction microsecond

def isoformat (d : DateTime) : Text :=
  let f := d.fields
  pad4 f.year ++ 45 :: pad2 f.month ++ 45 :: pad2 f.day ++ 84 :: pad2 f.hour ++ 58 :: pad2 f.minute ++
    58 :: pad2 f.second ++ showFraction f.microsecond ++ (f.offset.map showOffset).getD []

/-! ### The reader -/

/-- A number of exactly `k` digits, and what follows. -/
def digits (k : Nat) (t : Text) : Option (Nat × Text) :=
  if (t.take k).length = k ∧ (t.take k).all isDigit then
    some (digitsValue (t.take k), t.drop k)
  else none

/-- The dash between two numbers, where the first two had one. -/
def dash (sep : Bool) (t : Text) : Option Text :=
  if sep then if t.head? = some 45 then some t.tail else none else some t

/-- `_find_isoformat_datetime_separator`, for at least seven characters. -/
def findSeparator (s : Text) : Option Nat :=
  if s.length = 7 then some 7
  else if s[4]? = some 45 then
    if s[5]? = some 87 then
      if s[8]? = some 45 then
        if s.length = 9 then none
        else if s[10]?.any isDigit then some 8
        else some 10
      else some 8
    else some 10
  else if s[4]? = some 87 then
    let idx := 7 + ((s.drop 7).takeWhile isDigit).length
    if idx < 9 then some idx else if idx % 2 = 0 then some 7 else some 8
  else some 8

/-- `_parse_isoformat_date`: a day of a month or of a week. -/
def parseDate (d : Text) : Option (Nat × Nat × Nat) := do
  let (year, r) ← digits 4 d
  let sep : Bool := r.head? = some 45
  let r ← dash sep r
  if r.head? = some 87 then do
    let (week, r) ← digits 2 r.tail
    if r.isEmpty then dateOfWeek year week 1
    else do
      let r ← dash sep r
      let (day, r) ← digits 1 r
      if r.isEmpty then dateOfWeek year week day else none
  else do
    let (month, r) ← digits 2 r
    let r ← dash sep r
    let (day, r) ← digits 2 r
    if r.isEmpty then some (year, month, day) else none

/-- A fraction of a second at `t`, in microseconds; more than six digits are cut off.
With it, whether something is left before the end, which `next` follows. -/
def parseFraction (next : Bool) (t : Text) : Option (Nat × Bool) := do
  let k := min 6 t.length
  let (n, r) ← digits k t
  some (n * 10 ^ (6 - k),
    match r.dropWhile isDigit with
    | [] => next
    | c :: _ => c ≠ 0)

/-- `parse_hh_mm_ss_ff`: up to `count` numbers of two digits, with colons if there is one
after the first, and a fraction. A last character that belongs to nothing is passed
over, and only reported. -/
def parseClock (next : Bool) : Nat → Option Bool → List Nat → Text → Option (List Nat × Nat × Bool)
  | 0, _, vals, t => (parseFraction next t).map fun f => (vals, f.1, f.2)
  | count + 1, sep, vals, t => do
    let (n, r) ← digits 2 t
    let vals := vals ++ [n]
    match r with
    | [] => some (vals, 0, next)
    | [c] => some (vals, 0, c ≠ 0)
    | c :: r' =>
      let sep := sep.getD (c = 58)
      if sep ∧ c = 58 then parseClock next count (some sep) vals r'
      else if c = 46 ∨ c = 44 then (parseFraction next r').map fun f => (vals, f.1, f.2)
      else if !sep then parseClock next count (some sep) vals (c :: r')
      else none

def isZone (c : Nat) : Bool := c = 43 || c = 45 || c = 90

/-- An offset in microseconds. One of less than a second is taken for UTC, whatever its
fraction (`tzinfo_from_isoformat_results`). -/
def makeOffset (negative : Bool) (vals : List Nat) (us : Nat) : Int :=
  let seconds := (vals.getD 0 0 * 60 + vals.getD 1 0) * 60 + vals.getD 2 0
  if seconds = 0 then 0
  else if negative then -((seconds * 1000000 + us : Nat) : Int) else (seconds * 1000000 + us : Nat)

/-- `parse_isoformat_time`: the numbers of the clock, the fraction, and the offset if
there is one. -/
def parseTime (t : Text) : Option (List Nat × Nat × Option Int) := do
  let zone := t.dropWhile fun c => !isZone c
  let (vals, us, more) ← parseClock (!zone.isEmpty) 3 none [] (t.takeWhile fun c => !isZone c)
  match zone with
  | [] => if more then none else some (vals, us, none)
  | c :: z =>
    if c = 90 then if z.head?.all (· = 0) then some (vals, us, some 0) else none
    else do
      let (offset, offsetUs, more) ← parseClock false 3 none [] z
      if more then none else some (vals, us, some (makeOffset (c = 45) offset offsetUs))

/-- `_sanitize_isoformat_str`: a surrogate may stand where a separator can be. -/
def sanitize (s : Text) : Text :=
  match [7, 8, 10].find? fun i => s[i]?.any isSurrogate with
  | some i => s.set i 84
  | none => s

/-- The bytes of the character between the date and the time, by the first of them. -/
def separatorLength (b : Nat) : Nat :=
  if b < 0x80 then 1 else if b < 0xE0 then 2 else if b < 0xF0 then 3 else 4

/-- `datetime.fromisoformat` of a string; `none` is the `ValueError`. The text is read
as its bytes in UTF-8. -/
def fromisoformat (s : Text) : Option DateTime :=
  if s.length < 7 ∨ (sanitize s).any isSurrogate then none
  else do
    let bs := encodeUtf8 (sanitize s)
    let loc ← findSeparator bs
    let (year, month, day) ← parseDate (bs.take loc)
    match bs.drop loc with
    | [] => DateTime.make ⟨year, month, day, 0, 0, 0, 0, none⟩
    | b :: rest =>
      let (vals, us, offset) ← parseTime (rest.drop (separatorLength b - 1))
      DateTime.make ⟨year, month, day, vals.getD 0 0, vals.getD 1 0, vals.getD 2 0, us, offset⟩

/-! ### The round trip -/

theorem isDigit_pad {n : Nat} (h : n < 10) : isDigit (48 + n) = true := by
  simp only [isDigit, Bool.and_eq_true, decide_eq_true_eq]
  omega

theorem digits_pad2 {n : Nat} (h : n < 100) (t : Text) : digits 2 (pad2 n ++ t) = some (n, t) := by
  have h1 := isDigit_pad (n := n / 10) (by omega)
  have h2 := isDigit_pad (n := n % 10) (by omega)
  simp [digits, pad2, h1, h2, digitsValue]
  omega

theorem digits_pad4 {n : Nat} (h : n < 10000) (t : Text) : digits 4 (pad4 n ++ t) = some (n, t) := by
  have h1 := isDigit_pad (n := n / 100 / 10) (by omega)
  have h2 := isDigit_pad (n := n / 100 % 10) (by omega)
  have h3 := isDigit_pad (n := n % 100 / 10) (by omega)
  have h4 := isDigit_pad (n := n % 100 % 10) (by omega)
  simp [digits, pad4, pad2, h1, h2, h3, h4, digitsValue, - Nat.mod_mod_of_dvd]
  omega

theorem digits_pad6 {n : Nat} (h : n < 1000000) (t : Text) :
    digits 6 (pad6 n ++ t) = some (n, t) := by
  have h1 := isDigit_pad (n := n / 10000 / 10) (by omega)
  have h2 := isDigit_pad (n := n / 10000 % 10) (by omega)
  have h3 := isDigit_pad (n := n % 10000 / 100 / 10) (by omega)
  have h4 := isDigit_pad (n := n % 10000 / 100 % 10) (by omega)
  have h5 := isDigit_pad (n := n % 10000 % 100 / 10) (by omega)
  have h6 := isDigit_pad (n := n % 10000 % 100 % 10) (by omega)
  simp [digits, pad6, pad4, pad2, h1, h2, h3, h4, h5, h6, digitsValue, - Nat.mod_mod_of_dvd]
  omega

theorem parseDate_pad {year month day : Nat} (hy : year < 10000) (hm : month < 100) (hd : day < 100) :
    parseDate (pad4 year ++ 45 :: (pad2 month ++ 45 :: pad2 day)) = some (year, month, day) := by
  have hday := digits_pad2 hd []
  have hne : ¬ 48 + month / 10 = 87 := by omega
  rw [List.append_nil] at hday
  rw [parseDate, digits_pad4 hy]
  simp [dash, digits_pad2 hm, hday]
  simp [pad2, hne]

theorem parseFraction_pad (next : Bool) {us : Nat} (h : us < 1000000) :
    parseFraction next (pad6 us) = some (us, next) := by
  have hus := digits_pad6 h []
  rw [List.append_nil] at hus
  have hlen : (pad6 us).length = 6 := rfl
  simp [parseFraction, hlen, hus]

section Clock

variable (next : Bool) {k n : Nat} {sep : Option Bool} {vals : List Nat}

theorem parseClock_end (hn : n < 100) :
    parseClock next (k + 1) sep vals (pad2 n) = some (vals ++ [n], 0, next) := by
  have hlast := digits_pad2 hn []
  rw [List.append_nil] at hlast
  simp [parseClock, hlast]

theorem parseClock_colon (hn : n < 100) (hsep : sep ≠ some false) {c : Nat} {t : Text} :
    parseClock next (k + 1) sep vals (pad2 n ++ 58 :: c :: t) =
      parseClock next k (some true) (vals ++ [n]) (c :: t) := by
  have hget : sep.getD true = true := by
    cases sep with
    | none => rfl
    | some b => simpa using hsep
  rw [parseClock, digits_pad2 hn]
  simp [hget]

theorem parseClock_fraction (hn : n < 100) {us : Nat} (hus : us < 1000000) :
    parseClock next (k + 1) sep vals (pad2 n ++ 46 :: pad6 us) = some (vals ++ [n], us, next) := by
  have hcons : pad6 us = (48 + us / 10000 / 10) :: (pad6 us).tail := rfl
  have hread := parseFraction_pad next hus
  rw [hcons] at hread ⊢
  rw [parseClock, digits_pad2 hn]
  simp [hread]

theorem parseClock_minutes {h m : Nat} (hh : h < 100) (hm : m < 100) :
    parseClock next 3 none [] (pad2 h ++ 58 :: pad2 m) = some ([h, m], 0, next) :=
  (parseClock_colon next hh (by simp)).trans (parseClock_end next hm)

theorem parseClock_seconds {h m s us : Nat} (hh : h < 100) (hm : m < 100) (hs : s < 100)
    (hus : us < 1000000) :
    parseClock next 3 none [] (pad2 h ++ 58 :: (pad2 m ++ 58 :: (pad2 s ++ showFraction us))) =
      some ([h, m, s], us, next) := by
  refine (parseClock_colon next hh (by simp)).trans ((parseClock_colon next hm (by simp)).trans ?_)
  show parseClock next 1 (some true) [h, m] (pad2 s ++ showFraction us) = _
  unfold showFraction
  split
  case isTrue h0 =>
    subst h0
    rw [List.append_nil]
    exact parseClock_end next hs
  case isFalse => exact parseClock_fraction next hs hus

end Clock

/-- The characters of a number, of a fraction and of a clock. -/
def Plain (c : Nat) : Prop := c = 46 ∨ 48 ≤ c ∧ c ≤ 58

theorem plain_pad2 {n : Nat} (h : n < 100) : ∀ c ∈ pad2 n, Plain c := by
  intro c hc
  simp only [pad2, List.mem_cons, List.not_mem_nil, or_false] at hc
  unfold Plain
  omega

theorem plain_pad4 {n : Nat} (h : n < 10000) : ∀ c ∈ pad4 n, Plain c := by
  intro c hc
  rcases List.mem_append.1 hc with hc | hc
  · exact plain_pad2 (by omega) c hc
  · exact plain_pad2 (by omega) c hc

theorem plain_fraction {us : Nat} (h : us < 1000000) : ∀ c ∈ showFraction us, Plain c := by
  intro c hc
  unfold showFraction at hc
  split at hc
  case isTrue => simp at hc
  case isFalse =>
    rcases List.mem_cons.1 hc with rfl | hc
    · exact Or.inl rfl
    rcases List.mem_append.1 hc with hc | hc
    · exact plain_pad2 (by omega) c hc
    · exact plain_pad4 (by omega) c hc

def showClock (f : Fields) : Text :=
  pad2 f.hour ++ 58 :: (pad2 f.minute ++ 58 :: (pad2 f.second ++ showFraction f.microsecond))

section Ok

variable {f : Fields} (hf : f.ok = true)

include hf

theorem bounds : f.year < 10000 ∧ f.month < 100 ∧ f.day < 100 ∧ f.hour < 100 ∧ f.minute < 100 ∧
    f.second < 100 ∧ f.microsecond < 1000000 := by
  have hdays : daysInMonth f.year f.month ≤ 31 := by
    unfold daysInMonth
    repeat' split
    all_goals omega
  simp only [Fields.ok, Bool.and_eq_true, decide_eq_true_eq] at hf
  omega

theorem plain_clock : ∀ c ∈ showClock f, Plain c := by
  obtain ⟨-, -, -, hh, hm, hs, hus⟩ := bounds hf
  intro c hc
  simp only [showClock, List.mem_append, List.mem_cons] at hc
  have hcolon : Plain 58 := Or.inr (by decide)
  rcases hc with hc | rfl | hc | rfl | hc | hc
  · exact plain_pad2 hh c hc
  · exact hcolon
  · exact plain_pad2 hm c hc
  · exact hcolon
  · exact plain_pad2 hs c hc
  · exact plain_fraction hus c hc

theorem offset_lt {o : Int} (ho : f.offset = some o) : o.natAbs < 86400000000 := by
  simp only [Fields.ok, Bool.and_eq_true, ho, Option.all_some, decide_eq_true_eq, dayLength] at hf
  exact of_decide_eq_true hf.2

end Ok

/-- What is read of an offset: less than a second is lost. -/
def readOffset (o : Int) : Int := if o.natAbs < 1000000 then 0 else o

theorem clock_total (n : Nat) :
    (n / 3600000000 * 60 + n / 60000000 % 60) * 60 + n / 1000000 % 60 = n / 1000000 := by
  have hminutes : n / 60000000 = n / 1000000 / 60 := by rw [Nat.div_div_eq_div_mul]
  have hhours : n / 3600000000 = n / 1000000 / 60 / 60 := by
    rw [Nat.div_div_eq_div_mul, Nat.div_div_eq_div_mul]
  omega

theorem makeOffset_eq (o : Int) : makeOffset (o < 0)
    [o.natAbs / 3600000000, o.natAbs / 60000000 % 60, o.natAbs / 1000000 % 60]
    (o.natAbs % 1000000) = readOffset o := by
  have hwhole : o.natAbs / 1000000 * 1000000 + o.natAbs % 1000000 = o.natAbs := by
    rw [Nat.mul_comm]
    exact Nat.div_add_mod _ _
  simp only [makeOffset, List.getD_cons_zero, List.getD_cons_succ, clock_total, hwhole, readOffset,
    decide_eq_true_eq]
  by_cases hsmall : o.natAbs < 1000000
  · rw [if_pos hsmall, if_pos (Nat.div_eq_of_lt hsmall)]
  · rw [if_neg hsmall, if_neg fun h => hsmall (by omega)]
    split <;> omega

def showZone (n : Nat) : Text :=
  pad2 (n / 3600000000) ++ 58 :: (pad2 (n / 60000000 % 60) ++
    if n / 1000000 % 60 = 0 ∧ n % 1000000 = 0 then []
    else 58 :: (pad2 (n / 1000000 % 60) ++ showFraction (n % 1000000)))

theorem showOffset_eq (o : Int) :
    showOffset o = (if o < 0 then 45 else 43) :: showZone o.natAbs := by
  simp [showOffset, showZone]

theorem parseClock_zone {o : Int} (ho : o.natAbs < 86400000000) : ∃ vals us,
    parseClock false 3 none [] (showZone o.natAbs) = some (vals, us, false) ∧
    makeOffset (o < 0) vals us = readOffset o := by
  have hh : o.natAbs / 3600000000 < 100 := Nat.div_lt_of_lt_mul (by omega)
  have hm : o.natAbs / 60000000 % 60 < 100 := (Nat.mod_lt _ (by decide)).trans (by decide)
  have hs : o.natAbs / 1000000 % 60 < 100 := (Nat.mod_lt _ (by decide)).trans (by decide)
  have hus : o.natAbs % 1000000 < 1000000 := Nat.mod_lt _ (by decide)
  have hmake := makeOffset_eq o
  unfold showZone
  by_cases h0 : o.natAbs / 1000000 % 60 = 0 ∧ o.natAbs % 1000000 = 0
  · rw [if_pos h0, List.append_nil]
    rw [h0.1, h0.2] at hmake
    exact ⟨_, _, parseClock_minutes false hh hm, hmake⟩
  · rw [if_neg h0]
    exact ⟨_, _, parseClock_seconds false hh hm hs hus, hmake⟩

theorem parseTime_clock {f : Fields} (hf : f.ok = true) :
    parseTime (showClock f ++ (f.offset.map showOffset).getD []) =
      some ([f.hour, f.minute, f.second], f.microsecond, f.offset.map readOffset) := by
  obtain ⟨-, -, -, hh, hm, hs, hus⟩ := bounds hf
  have hplain : ∀ c ∈ showClock f, (!isZone c) = true := by
    intro c hc
    have h := plain_clock hf c hc
    unfold Plain at h
    simp only [isZone, Bool.not_eq_true', Bool.or_eq_false_iff, decide_eq_false_iff_not]
    omega
  have hclock := fun next => parseClock_seconds next hh hm hs hus
  cases ho : f.offset with
  | none =>
    have hall : (showClock f ++ []).takeWhile (fun c => !isZone c) = showClock f ++ [] :=
      List.takeWhile_append_of_pos hplain
    have hnil : (showClock f ++ []).dropWhile (fun c => !isZone c) = [] :=
      List.dropWhile_append_of_pos hplain
    simp only [parseTime, Option.map_none, Option.getD_none, hall, hnil]
    simp [showClock, hclock]
  | some o =>
    obtain ⟨vals, us, hread, hmake⟩ := parseClock_zone (offset_lt hf ho)
    have hsign : isZone (if o < 0 then 45 else 43) = true := by split <;> rfl
    have hz : (if o < 0 then 45 else 43) ≠ 90 := by split <;> decide
    have hall : (showClock f ++ showOffset o).takeWhile (fun c => !isZone c) = showClock f := by
      rw [List.takeWhile_append_of_pos hplain, showOffset_eq,
        List.takeWhile_cons_of_neg (by simp [hsign]), List.append_nil]
    have hrest : (showClock f ++ showOffset o).dropWhile (fun c => !isZone c) = showOffset o := by
      rw [List.dropWhile_append_of_pos hplain, showOffset_eq,
        List.dropWhile_cons_of_neg (by simp [hsign])]
    simp only [parseTime, Option.map_some, Option.getD_some, hall, hrest]
    rw [showOffset_eq]
    simp [showClock, hclock, hz, hread, hmake]

def showDate (f : Fields) : Text := pad4 f.year ++ 45 :: (pad2 f.month ++ 45 :: pad2 f.day)

def showTime (f : Fields) : Text := showClock f ++ (f.offset.map showOffset).getD []

theorem isoformat_eq (d : DateTime) : isoformat d = showDate d.fields ++ 84 :: showTime d.fields := by
  simp [isoformat, showDate, showTime, showClock]

theorem showOffset_lt {o : Int} (ho : o.natAbs < 86400000000) : ∀ c ∈ showOffset o, c < 128 := by
  have hplain : ∀ c, Plain c → c < 128 := fun c h => by
    unfold Plain at h
    omega
  have hh : o.natAbs / 3600000000 < 100 := Nat.div_lt_of_lt_mul (by omega)
  have hm : o.natAbs / 60000000 % 60 < 100 := (Nat.mod_lt _ (by decide)).trans (by decide)
  have hs : o.natAbs / 1000000 % 60 < 100 := (Nat.mod_lt _ (by decide)).trans (by decide)
  have hus : o.natAbs % 1000000 < 1000000 := Nat.mod_lt _ (by decide)
  intro c hc
  simp only [showOffset_eq, showZone, List.mem_cons, List.mem_append, List.mem_ite_nil_left] at hc
  rcases hc with rfl | hc | rfl | hc | ⟨-, rfl | hc | hc⟩
  · split <;> decide
  · exact hplain c (plain_pad2 hh c hc)
  · decide
  · exact hplain c (plain_pad2 hm c hc)
  · decide
  · exact hplain c (plain_pad2 hs c hc)
  · exact hplain c (plain_fraction hus c hc)

theorem isoformat_lt (d : DateTime) : ∀ c ∈ isoformat d, c < 128 := by
  obtain ⟨hy, hmo, hd, -⟩ := bounds d.ok
  have hplain : ∀ c, Plain c → c < 128 := fun c h => by
    unfold Plain at h
    omega
  intro c hc
  simp only [isoformat_eq, showDate, showTime, List.mem_append, List.mem_cons] at hc
  rcases hc with (hc | rfl | hc | rfl | hc) | rfl | hc | hc
  · exact hplain c (plain_pad4 hy c hc)
  · decide
  · exact hplain c (plain_pad2 hmo c hc)
  · decide
  · exact hplain c (plain_pad2 hd c hc)
  · decide
  · exact hplain c (plain_clock d.ok c hc)
  · cases ho : d.fields.offset with
    | none => simp [ho] at hc
    | some o =>
      rw [ho] at hc
      exact showOffset_lt (offset_lt d.ok ho) c hc

theorem sanitize_ascii {t : Text} (h : ∀ c ∈ t, c < 128) : sanitize t = t := by
  have hno : ∀ i : Nat, t[i]?.any isSurrogate = false := by
    intro i
    cases hi : t[i]? with
    | none => rfl
    | some c =>
      have hc := h c (List.mem_of_getElem? hi)
      simp only [Option.any_some, isSurrogate, Bool.and_eq_false_iff, decide_eq_false_iff_not]
      omega
  simp [sanitize, hno]

theorem fromisoformat_isoformat (d : DateTime) : fromisoformat (isoformat d) =
    DateTime.make { d.fields with offset := d.fields.offset.map readOffset } := by
  obtain ⟨hy, hmo, hd, -⟩ := bounds d.ok
  have hlt := isoformat_lt d
  have hno : (isoformat d).any isSurrogate = false := by
    rw [List.any_eq_false]
    intro c hc
    have := hlt c hc
    simp only [isSurrogate, Bool.and_eq_true, decide_eq_true_eq]
    omega
  have hdate : (showDate d.fields).length = 10 := rfl
  have hlen : 11 ≤ (isoformat d).length := by
    rw [isoformat_eq, List.length_append, List.length_cons, hdate]
    omega
  have hmonth : 48 + d.fields.month / 10 ≠ 87 := by omega
  have hloc : findSeparator (isoformat d) = some 10 := by
    rw [findSeparator, if_neg (by omega), isoformat_eq]
    simp [showDate, pad4, pad2, hmonth]
  rw [fromisoformat, sanitize_ascii hlt, hno, if_neg (by simp; omega), encodeUtf8_ascii _ hlt]
  simp only [hloc, Option.bind_eq_bind, Option.bind_some]
  rw [isoformat_eq, List.take_left' hdate, List.drop_left' hdate, showDate,
    parseDate_pad hy hmo hd]
  simp [separatorLength, showTime, parseTime_clock d.ok]

/-- The reader inverts the writer, except where the offset is under a second. -/
theorem fromisoformat_isoformat_iff (d : DateTime) : fromisoformat (isoformat d) = some d ↔
    ∀ o, d.fields.offset = some o → o = 0 ∨ 1000000 ≤ o.natAbs := by
  have hread : ∀ o : Int, readOffset o = o ↔ o = 0 ∨ 1000000 ≤ o.natAbs := by
    intro o
    unfold readOffset
    split <;> omega
  rw [fromisoformat_isoformat]
  constructor
  · intro h o ho
    unfold DateTime.make at h
    split at h
    case isTrue =>
      have hfields := congrArg (fun e : DateTime => e.fields.offset) (Option.some.inj h)
      simp only [ho, Option.map_some, Option.some.injEq] at hfields
      exact (hread o).1 hfields
    case isFalse => simp at h
  · intro h
    have hsame : d.fields.offset.map readOffset = d.fields.offset := by
      cases ho : d.fields.offset with
      | none => rfl
      | some o => rw [Option.map_some, (hread o).2 (h o ho)]
    rw [hsame]
    exact dif_pos d.ok

end Codec.Datetime
