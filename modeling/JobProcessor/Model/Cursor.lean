import JobProcessor.Codec.Datetime
import JobProcessor.Codec.JsonRoundTrip
import JobProcessor.Codec.Base64
import JobProcessor.Codec.Uuid
import JobProcessor.Model.World

/-! `app/cursor.py`. A client's cursor has at most 512 characters, so neither the depth
of the interpreter's stack nor its bound on the digits of an int is in reach. -/

namespace JobProcessor

open Codec Codec.Unicode Codec.Json Codec.Datetime

/-- The instants of the database and the `datetime`s of the program, as the database
driver turns one into the other. -/
structure Driver where
  toDatetime : Time → DateTime
  toTime : DateTime → Time

def cursorObject (createdAt : DateTime) (jobId : Uuid) : Value :=
  .obj [(word ['c'], .str (isoformat createdAt)), (word ['i'], .str (Codec.Uuid.format jobId))]

def encodeCursor (createdAt : DateTime) (jobId : Uuid) : String :=
  Unicode.toString (Base64.encode (encodeUtf8 (dumps [32] (cursorObject createdAt jobId))))

/-- `json.loads(base64.urlsafe_b64decode(cursor.encode()))`. What these raise is a
`ValueError`: a `binascii.Error`, a `UnicodeDecodeError` or a `JSONDecodeError`. -/
def cursorData (cursor : String) : Option Value := do
  let raw ← Base64.decode (encodeUtf8 (ofString cursor))
  let text ← decodeDetected raw
  loads text

def subscript (data : Value) (key : Text) : Except Exc Value :=
  match data with
  | .obj ms => (getItem key ms).elim (.error .keyError) .ok
  | _ => .error .typeError

def datetimeFromisoformat : Value → Except Exc DateTime
  | .str s => (fromisoformat s).elim (.error .valueError) .ok
  | _ => .error .typeError

def makeUuid : Value → Except Exc Uuid
  | .str s => (Codec.Uuid.parse s).elim (.error .valueError) .ok
  -- an argument that is `None` counts as none given
  | .null => .error .typeError
  -- nothing else has a method `replace`
  | _ => .error .attributeError

/-- The body of the `try`. -/
def readCursor (cursor : String) : Except Exc (DateTime × Uuid) := do
  let data ← (cursorData cursor).elim (.error .valueError) .ok
  let createdAt ← datetimeFromisoformat (← subscript data (word ['c']))
  let jobId ← makeUuid (← subscript data (word ['i']))
  .ok (createdAt, jobId)

def decodeCursor (cursor : String) : Except Exc (DateTime × Uuid) :=
  match readCursor cursor with
  | .error .valueError => .error .valueError
  | .error .keyError => .error .valueError
  | r => r

end JobProcessor
