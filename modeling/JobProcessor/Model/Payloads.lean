import JobProcessor.Model.Worker
import Mathlib.Data.List.DropRight

/-! The payload check of `app/schemas/payloads.py`: the schema, which is pydantic's
work, and then the allowlists. -/

namespace JobProcessor

/-- The allowlists of the settings, with what comes from libraries: the adapter
`_ADAPTER.validate_python` (an exception by its type and message), the parsed fields
it puts into a payload, and Python's `lower` and `repr` of a string. -/
structure Validation where
  webhookAllowedHosts : List String := []
  emailAllowedDomains : List String := []
  adapter : JobType → Json → Except (String × String) Payload
  urlHost : Json → Option String
  emailTo : Json → String
  lower : String → String
  showRepr : String → String

/-- `s.rstrip(".")`. -/
def rstripDots (s : List Char) : List Char := s.rdropWhile (· = '.')

def stripDots (s : List Char) : List Char := (rstripDots s).dropWhile (· = '.')

/-- `s.rsplit("@", 1)[1]`; `none` is the `IndexError`. -/
def afterAt (s : List Char) : Option (List Char) :=
  if '@' ∈ s then some (s.rtakeWhile (· ≠ '@')) else none

namespace Validation

variable (v : Validation)

def hostAllowed (host : String) (allowed : List String) : Bool :=
  let host := rstripDots (v.lower host).toList
  allowed.any fun entry =>
    let entry := stripDots (v.lower entry).toList
    host = entry || ('.' :: entry).isSuffixOf host

/-- `_check_policy` of one item. -/
def checkItem : PayloadItem → Except PayloadExc Unit
  | .webhook payload =>
    let host := (v.urlHost payload).getD ""
    if v.hostAllowed host v.webhookAllowedHosts then .ok ()
    else .error (.policy ("webhook host " ++ v.showRepr host ++ " is not allowlisted"))
  | .email payload =>
    match afterAt (v.emailTo payload).toList with
    | none => .error (.invalid "IndexError" "list index out of range")
    | some text =>
      let domain := v.lower (String.ofList text)
      if domain ∈ v.emailAllowedDomains.map v.lower then .ok ()
      else .error (.policy ("email domain " ++ v.showRepr domain ++ " is not allowlisted"))
  | .report _ => .ok ()

def checkPolicy : Payload → Except PayloadExc Unit
  | .item i => v.checkItem i
  | .batch items => items.forM v.checkItem

def validatePayload (type : JobType) (raw : Json) : Except PayloadExc Payload :=
  match v.adapter type raw with
  | .error exc => .error (.invalid exc.1 exc.2)
  | .ok payload =>
    match v.checkPolicy payload with
    | .error exc => .error exc
    | .ok () => .ok payload

end Validation

/-- The application with the payload check under given allowlists. -/
def App.checking (app : App) (v : Validation) : App :=
  { app with validatePayload := v.validatePayload }

end JobProcessor
