import JobProcessor.Codec.Unicode
import Mathlib.Data.Nat.Digits.Lemmas

/-! JSON texts, as `json.loads` reads them and `json.dumps` writes them with ASCII
escapes. The reader is a machine that takes one character at a time and keeps the
enclosing arrays and objects on a stack, so it needs no bound on the depth. -/

namespace Codec.Json

open Unicode

/-- A value. An object is a dict: no key twice. A float is its token. -/
inductive Value where
  | null
  | bool (b : Bool)
  | int (i : Int)
  | float (token : Text)
  | str (s : Text)
  | arr (xs : List Value)
  | obj (members : List (Text × Value))

/-! ### Scalars -/

def word (cs : List Char) : Text := cs.map Char.toNat

def isSpace (c : Nat) : Bool := c = 32 || c = 9 || c = 10 || c = 13

/-- `[eE][-+]?\d+`. -/
def isExponent : Text → Bool
  | c :: r =>
    let r := if r.head? = some 43 ∨ r.head? = some 45 then r.tail else r
    (c = 101 || c = 69) && !r.isEmpty && r.all isDigit
  | [] => false

/-- `(\.\d+)?([eE][-+]?\d+)?`, not empty. -/
def isFraction : Text → Bool
  | 46 :: r =>
    !(r.takeWhile isDigit).isEmpty &&
      ((r.dropWhile isDigit).isEmpty || isExponent (r.dropWhile isDigit))
  | r => isExponent r

def unsigned (t : Text) : Text := if t.head? = some 45 then t.tail else t

/-- `-?(0|[1-9]\d*)` and a fraction: an int without, a float with one. -/
def number (t : Text) : Option Value :=
  let whole := (unsigned t).takeWhile isDigit
  let rest := (unsigned t).dropWhile isDigit
  if whole.isEmpty || (whole.head? = some 48 && whole.tail ≠ []) then none
  else if rest.isEmpty then
    some (.int (if t.head? = some 45 then -(digitsValue whole : Int) else digitsValue whole))
  else if isFraction rest then some (.float t)
  else none

/-- The value of a token: a literal, one of the three tokens for non-finite floats, or
a number. -/
def scalar (t : Text) : Option Value :=
  if t = word ['n', 'u', 'l', 'l'] then some .null
  else if t = word ['t', 'r', 'u', 'e'] then some (.bool true)
  else if t = word ['f', 'a', 'l', 's', 'e'] then some (.bool false)
  else if t = word ['N', 'a', 'N'] ∨ t = word ['I', 'n', 'f', 'i', 'n', 'i', 't', 'y'] ∨
      t = word ['-', 'I', 'n', 'f', 'i', 'n', 'i', 't', 'y'] then
    some (.float t)
  else number t

/-! ### The reader -/

/-- A string being read: whether it is a key, what is read, and whether that ends with
a high surrogate that was escaped. -/
structure Str where
  key : Bool
  acc : Text
  high : Bool

def Str.plain (s : Str) (c : Nat) : Str := ⟨s.key, s.acc ++ [c], false⟩

/-- An escaped unit: a low surrogate is joined to an escaped high one before it. -/
def Str.unit (s : Str) (u : Nat) : Str :=
  if s.high && isLow u then ⟨s.key, s.acc.dropLast ++ [joinPair (s.acc.getLastD 0) u], false⟩
  else ⟨s.key, s.acc ++ [u], isHigh u⟩

/-- What encloses the place of the reader. -/
inductive Frame where
  | arr (done : List Value)
  /-- An object before a key. -/
  | obj (done : List (Text × Value))
  /-- An object in the value of a key. -/
  | member (done : List (Text × Value)) (key : Text)

inductive Mode where
  /-- Before a value. -/
  | value
  /-- After `[`. -/
  | element
  /-- After the brace of an object. -/
  | firstKey
  /-- After the comma of an object. -/
  | key
  /-- After a key. -/
  | colon (k : Text)
  /-- After a value. -/
  | after (v : Value)
  | token (t : Text)
  | text (s : Str)
  /-- After a backslash. -/
  | escape (s : Str)
  /-- After `count` of the four digits of a unit. -/
  | hex (s : Str) (count unit : Nat)

structure State where
  stack : List Frame
  mode : Mode

/-- `d[k] = v`: a key that is there keeps its place. -/
def setItem (k : Text) (v : Value) : List (Text × Value) → List (Text × Value)
  | [] => [(k, v)]
  | (k', v') :: ms => if k' = k then (k', v) :: ms else (k', v') :: setItem k v ms

def getItem (k : Text) (ms : List (Text × Value)) : Option Value :=
  (ms.find? fun m => m.1 = k).map Prod.snd

/-- The character of a one-letter escape. -/
def unescape (c : Nat) : Option Nat :=
  if c = 34 ∨ c = 92 ∨ c = 47 then some c
  else if c = 98 then some 8
  else if c = 102 then some 12
  else if c = 110 then some 10
  else if c = 114 then some 13
  else if c = 116 then some 9
  else none

def startValue (stack : List Frame) (c : Nat) : Option State :=
  if c = 34 then some ⟨stack, .text ⟨false, [], false⟩⟩
  else if c = 91 then some ⟨.arr [] :: stack, .element⟩
  else if c = 123 then some ⟨.obj [] :: stack, .firstKey⟩
  else if c = 44 ∨ c = 93 ∨ c = 125 then none
  else some ⟨stack, .token [c]⟩

def afterValue (stack : List Frame) (v : Value) (c : Nat) : Option State :=
  match stack with
  | .arr done :: rest =>
    if c = 44 then some ⟨.arr (done ++ [v]) :: rest, .value⟩
    else if c = 93 then some ⟨rest, .after (.arr (done ++ [v]))⟩
    else none
  | .member done k :: rest =>
    if c = 44 then some ⟨.obj (setItem k v done) :: rest, .key⟩
    else if c = 125 then some ⟨rest, .after (.obj (setItem k v done))⟩
    else none
  | _ => none

def endString (stack : List Frame) (s : Str) : State :=
  if s.key then ⟨stack, .colon s.acc⟩ else ⟨stack, .after (.str s.acc)⟩

/-- One character; `none` is the `JSONDecodeError`. -/
def step (st : State) (c : Nat) : Option State :=
  match st.mode with
  | .value => if isSpace c then some st else startValue st.stack c
  | .element =>
    if isSpace c then some st
    else if c = 93 then some ⟨st.stack.tail, .after (.arr [])⟩
    else startValue st.stack c
  | .firstKey =>
    if isSpace c then some st
    else if c = 125 then some ⟨st.stack.tail, .after (.obj [])⟩
    else if c = 34 then some ⟨st.stack, .text ⟨true, [], false⟩⟩
    else none
  | .key =>
    if isSpace c then some st
    else if c = 34 then some ⟨st.stack, .text ⟨true, [], false⟩⟩
    else none
  | .colon k =>
    if isSpace c then some st
    else if c = 58 then
      match st.stack with
      | .obj done :: rest => some ⟨.member done k :: rest, .value⟩
      | _ => none
    else none
  | .after v => if isSpace c then some st else afterValue st.stack v c
  | .token t =>
    if isSpace c then (scalar t).map fun v => ⟨st.stack, .after v⟩
    else if c = 44 ∨ c = 93 ∨ c = 125 then (scalar t).bind fun v => afterValue st.stack v c
    else some ⟨st.stack, .token (t ++ [c])⟩
  | .text s =>
    if c = 34 then some (endString st.stack s)
    else if c = 92 then some ⟨st.stack, .escape s⟩
    else if c < 32 then none
    else some ⟨st.stack, .text (s.plain c)⟩
  | .escape s =>
    if c = 117 then some ⟨st.stack, .hex s 0 0⟩
    else (unescape c).map fun d => ⟨st.stack, .text (s.plain d)⟩
  | .hex s count unit =>
    (hexValue c).map fun d =>
      if count = 3 then ⟨st.stack, .text (s.unit (unit * 16 + d))⟩
      else ⟨st.stack, .hex s (count + 1) (unit * 16 + d)⟩

def feed (st : State) : Text → Option State
  | [] => some st
  | c :: cs => (step st c).bind fun st' => feed st' cs

/-- The value, when the text may end here. -/
def finish (st : State) : Option Value :=
  match st with
  | ⟨[], .after v⟩ => some v
  | ⟨[], .token t⟩ => scalar t
  | _ => none

/-- `json.loads` of a text. -/
def loads (t : Text) : Option Value := (feed ⟨[], .value⟩ t).bind finish

/-! ### The writer -/

def hex4 (u : Nat) : Text :=
  [92, 117, hexDigit (u / 4096), hexDigit (u / 256 % 16), hexDigit (u / 16 % 16), hexDigit (u % 16)]

def escape (c : Nat) : Text :=
  if c = 34 then [92, 34]
  else if c = 92 then [92, 92]
  else if c = 10 then [92, 110]
  else if c = 13 then [92, 114]
  else if c = 9 then [92, 116]
  else if c = 12 then [92, 102]
  else if c = 8 then [92, 98]
  else if 32 ≤ c ∧ c ≤ 126 then [c]
  else if c < 0x10000 then hex4 c
  else hex4 (0xD800 + (c - 0x10000) / 0x400) ++ hex4 (0xDC00 + (c - 0x10000) % 0x400)

def dumpString (s : Text) : Text := 34 :: s.flatMap escape ++ [34]

def decimal (n : Nat) : Text :=
  if n = 0 then [48] else (Nat.digits 10 n).reverse.map (48 + ·)

def dumpInt (i : Int) : Text := if i < 0 then 45 :: decimal i.natAbs else decimal i.natAbs

mutual

/-- `json.dumps`, with `gap` after every comma and colon. -/
def dumps (gap : Text) : Value → Text
  | .null => word ['n', 'u', 'l', 'l']
  | .bool b => if b then word ['t', 'r', 'u', 'e'] else word ['f', 'a', 'l', 's', 'e']
  | .int i => dumpInt i
  | .float t => t
  | .str s => dumpString s
  | .arr xs => 91 :: dumpItems gap xs ++ [93]
  | .obj ms => 123 :: dumpMembers gap ms ++ [125]

def dumpItems (gap : Text) : List Value → Text
  | [] => []
  | v :: vs => dumps gap v ++ if vs.isEmpty then [] else 44 :: gap ++ dumpItems gap vs

def dumpMembers (gap : Text) : List (Text × Value) → Text
  | [] => []
  | (k, v) :: ms =>
    dumpString k ++ 58 :: gap ++ dumps gap v ++
      if ms.isEmpty then [] else 44 :: gap ++ dumpMembers gap ms

end

end Codec.Json
