import JobProcessor.Codec.JsonOrder
import JobProcessor.Model.Schema

/-! `app/idempotency.py`: the bytes that `canonical_hash` gives to SHA-256. -/

namespace JobProcessor

open Codec Codec.Unicode Codec.Json

def JobType.value : JobType → Text
  | .email => word ['e', 'm', 'a', 'i', 'l']
  | .webhook => word ['w', 'e', 'b', 'h', 'o', 'o', 'k']
  | .report => word ['r', 'e', 'p', 'o', 'r', 't']
  | .batch => word ['b', 'a', 't', 'c', 'h']

namespace Json

mutual

/-- A value of the data model, for the writer of JSON texts. -/
def toValue : Json → Value
  | .null => .null
  | .bool b => .bool b
  | .int i => .int i
  | .float repr => .float (ofString repr)
  | .str s => .str (ofString s)
  | .arr xs => .arr (itemsToValue xs)
  | .obj ms => .obj (membersToValue ms)

def itemsToValue : List Json → List Value
  | [] => []
  | x :: xs => x.toValue :: itemsToValue xs

def membersToValue : List (String × Json) → List (Text × Value)
  | [] => []
  | (k, x) :: ms => (ofString k, x.toValue) :: membersToValue ms

end

end Json

/-- A payload as the request parser leaves it: an object; no key stands twice in an
object, at any level, and a float is the `repr` of a finite one. -/
structure SubmittedPayload where
  members : List (String × Json)
  sound : (Json.obj members).toValue.Sound

def SubmittedPayload.json (p : SubmittedPayload) : Json := .obj p.members

/-- `json.dumps({"type": …, "payload": …}, sort_keys=True, separators=(",", ":"))`,
encoded. -/
def canonicalBlob (jobType : JobType) (payload : Json) : List Nat :=
  encodeUtf8 (dumps []
    (Value.sorted (.obj [(word ['t', 'y', 'p', 'e'], .str jobType.value),
      (word ['p', 'a', 'y', 'l', 'o', 'a', 'd'], payload.toValue)])))

def canonicalHash (sha256 : List Nat → String) (jobType : JobType) (payload : Json) : String :=
  sha256 (canonicalBlob jobType payload)

end JobProcessor
