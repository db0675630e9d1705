import JobProcessor.Interleave.Pool
import JobProcessor.Model.Schema
import JobProcessor.Store.Dict

/-! Authentication of a request: the token cache, the TokenReview client and
`get_current_user`. Requests are interleaved where they await the apiserver; the
methods of the cache await nothing and are atomic. -/

namespace JobProcessor.Auth

open Interleave Store

structure AuthedUser where
  id : Uuid
  name : Json

inductive Raised where
  | stopIteration | attributeError | typeError | valueError | jsonDecodeError
deriving DecidableEq, Repr

/-- Settings, and the two library functions whose inner workings do not matter here:
SHA-256 and `UUID(hex)`, which is `none` for a `ValueError`. -/
structure AuthApp where
  hashToken : String → String
  uuid : String → Option Uuid
  authCacheTtlS : Time := 60000000
  maxEntries : Int := 1024
  authRequiredGroup : String := "jobprocessor-users"

/-! ### The cache -/

abbrev Entries := Dict String (Time × AuthedUser)

namespace TokenCache

def get (entries : Entries) (now : Time) (tokenHash : String) : Entries × Option AuthedUser :=
  match entries.get? tokenHash with
  | none => (entries, none)
  | some (expiresAt, user) =>
    if expiresAt ≤ now then (entries.erase tokenHash, none) else (entries, some user)

/-- The `while` loop of `_evict`, at most `fuel` rounds; `none` if it has not ended by
then. -/
def evictLoop (max : Int) : Nat → Entries → Option (Entries × Except Raised Unit)
  | fuel, entries =>
    if max ≤ entries.size then
      match fuel with
      | 0 => none
      | fuel + 1 =>
        match entries.oldest? with
        | none => some (entries, .error .stopIteration)
        | some key => evictLoop max fuel (entries.erase key)
    else some (entries, .ok ())

def evict (max : Int) (fuel : Nat) (now : Time) (entries : Entries) :
    Option (Entries × Except Raised Unit) :=
  evictLoop max fuel (entries.filter fun e => !decide (e.2.1 ≤ now))

/-- `put`; the clock is read at `now₁` by `_evict` and at `now₂` for the expiry. -/
def put (ttl : Time) (max : Int) (fuel : Nat) (now₁ now₂ : Time) (tokenHash : String)
    (user : AuthedUser) (entries : Entries) : Option (Entries × Except Raised Unit) :=
  if ttl ≤ 0 then some (entries, .ok ())
  else if (entries.get? tokenHash).isNone ∧ max ≤ entries.size then
    match evict max fuel now₁ entries with
    | some (entries, .ok ()) => some (entries.set tokenHash (now₂ + ttl, user), .ok ())
    | stopped => stopped
  else some (entries.set tokenHash (now₂ + ttl, user), .ok ())

end TokenCache

/-! ### The world of the API process -/

structure HttpResponse where
  statusCode : Nat
  json : Option Json

inductive AuthOp where
  | cacheGet (tokenHash : String)
  | cachePut (tokenHash : String) (user : AuthedUser)
  /-- POST a TokenReview of the user's token. -/
  | post (userToken : String)
  /-- `self._sa_token = self._read_sa_token()`. -/
  | readSaToken

@[reducible] def AuthOp.Res : AuthOp → Type
  | .cacheGet _ => Option AuthedUser
  | .cachePut _ _ => Except Raised Unit
  | .post _ => Except String HttpResponse
  | .readSaToken => Unit

structure AuthWorld where
  clock : Time
  entries : Entries
  saToken : Option String

/-- What the outside decides: the time that passes before an action and between the two
clock readings of `put`, the token file, and the answer of the apiserver, which sees
the user's token and ours (an `httpx.HTTPError` is kept by its type). -/
structure AuthEnv where
  elapsed : Nat := 0
  evicting : Nat := 0
  saTokenFile : Option String := none
  answer : String → Option String → Except String HttpResponse := fun _ _ => .error "ConnectError"

/-- One atomic action. The eviction of `n` entries ends within `n` rounds. -/
def exec (auth : AuthApp) (o : AuthOp) (e : AuthEnv) (w₀ : AuthWorld) :
    Option (AuthWorld × o.Res) :=
  let w := { w₀ with clock := w₀.clock + e.elapsed }
  match o with
  | .cacheGet tokenHash =>
    let r := TokenCache.get w.entries w.clock tokenHash
    some ({ w with entries := r.1 }, r.2)
  | .cachePut tokenHash user =>
    (TokenCache.put auth.authCacheTtlS auth.maxEntries w.entries.size w.clock
      (w.clock + e.evicting) tokenHash user w.entries).map fun r =>
        ({ w with clock := w.clock + e.evicting, entries := r.1 }, r.2)
  | .post userToken => some (w, e.answer userToken w.saToken)
  | .readSaToken => some ({ w with saToken := e.saTokenFile }, ())

abbrev AuthPrg := Prog AuthOp AuthOp.Res

abbrev act (o : AuthOp) : AuthPrg o.Res := Prog.op o

/-! ### Reading the answer of the apiserver -/

/-- `value.get(key)` of a dict, `none` when the key is missing. A repeated key keeps its
last value. -/
def getKey (key : String) : Json → Except Raised (Option Json)
  | .obj members => .ok ((members.reverse.find? fun m => m.1 = key).map Prod.snd)
  | _ => .error .attributeError

def truthy : Json → Bool
  | .null => false
  | .bool b => b
  | .int i => i ≠ 0
  | .float repr => repr ≠ "0.0" && repr ≠ "-0.0"
  | .str s => s ≠ ""
  | .arr xs => !xs.isEmpty
  | .obj members => !members.isEmpty

def tuple : Json → Except Raised (List Json)
  | .arr xs => .ok xs
  | .str s => .ok (s.toList.map fun c => .str (String.singleton c))
  | .obj members => .ok ((members.map Prod.fst).eraseDups.map .str)
  | _ => .error .typeError

structure ReviewedUser where
  uid : Json
  username : Json
  groups : List Json

inductive ReviewExc where
  | tokenReviewUnavailable (message : String)
  | raised (exc : Raised)

/-- The user of an authenticated TokenReview, `none` for a rejected token. -/
def reviewedUser (body : Json) : Except Raised (Option ReviewedUser) := do
  let status := (← getKey "status" body).getD (.obj [])
  let authenticated := (← getKey "authenticated" status).getD .null
  if !truthy authenticated then return none
  let user := (← getKey "user" status).getD (.obj [])
  let uid := (← getKey "uid" user).getD (.str "")
  let username := (← getKey "username" user).getD (.str "")
  let groups ← tuple ((← getKey "groups" user).getD (.arr []))
  return some ⟨uid, username, groups⟩

/-- The part of `review` after the last answer. -/
def readReview (resp : HttpResponse) : Except ReviewExc (Option ReviewedUser) :=
  if resp.statusCode = 401 then
    .error (.tokenReviewUnavailable "apiserver rejected ServiceAccount token")
  else if 300 ≤ resp.statusCode then
    .error (.tokenReviewUnavailable ("tokenreview status " ++ toString resp.statusCode))
  else
    match resp.json.map reviewedUser with
    | none => .error (.raised .jsonDecodeError)
    | some (.error exc) => .error (.raised exc)
    | some (.ok user) => .ok user

/-- `TokenReviewer.review`: a 401 means a stale credential of ours, and is tried once
more with the token file read again. -/
def review (userToken : String) : AuthPrg (Except ReviewExc (Option ReviewedUser)) := do
  let resp : Except String HttpResponse ← act (.post userToken)
  match resp with
  | .error type => pure (.error (.tokenReviewUnavailable type))
  | .ok resp =>
    if resp.statusCode = 401 then do
      act .readSaToken
      let resp : Except String HttpResponse ← act (.post userToken)
      match resp with
      | .error type => pure (.error (.tokenReviewUnavailable type))
      | .ok resp => pure (readReview resp)
    else pure (readReview resp)

/-! ### The dependency of the routes -/

/-- `UUID(uid)` of any JSON value. -/
def parseUid (auth : AuthApp) : Json → Except Raised Uuid
  | .str s => (auth.uuid s).elim (.error .valueError) .ok
  | .null => .error .typeError
  | _ => .error .attributeError

def inGroup (group : String) (groups : List Json) : Bool :=
  groups.any fun g => match g with
    | .str s => s = group
    | _ => false

inductive AuthExc where
  | httpException (statusCode : Nat) (detail : String)
  | raised (exc : Raised)

/-- `get_current_user`; no credentials means that there was no bearer token. -/
def getCurrentUser (auth : AuthApp) (credentials : Option String) :
    AuthPrg (Except AuthExc AuthedUser) :=
  match credentials with
  | none => pure (.error (.httpException 401 "missing bearer token"))
  | some token => do
    let tokenHash := auth.hashToken token
    let user : Option AuthedUser ← act (.cacheGet tokenHash)
    match user with
    | some user => pure (.ok user)
    | none =>
      match ← review token with
      | .error (.tokenReviewUnavailable _) =>
        pure (.error (.httpException 503 "authentication unavailable"))
      | .error (.raised exc) => pure (.error (.raised exc))
      | .ok none => pure (.error (.httpException 401 "invalid token"))
      | .ok (some reviewed) =>
        if !inGroup auth.authRequiredGroup reviewed.groups then
          pure (.error (.httpException 403 "not a member of the required group"))
        else
          match parseUid auth reviewed.uid with
          | .error .valueError => pure (.error (.httpException 401 "invalid token"))
          | .error exc => pure (.error (.raised exc))
          | .ok uid => do
            let user : AuthedUser := ⟨uid, reviewed.username⟩
            let stored : Except Raised Unit ← act (.cachePut tokenHash user)
            match stored with
            | .error exc => pure (.error (.raised exc))
            | .ok () => pure (.ok user)

/-- Requests with their credentials, any number of them, from an empty cache. -/
def authSystem (auth : AuthApp) (start : Time) (saToken : Option String) :
    Sys AuthWorld AuthOp AuthOp.Res AuthEnv (Option String) (Except AuthExc AuthedUser) where
  init := ⟨start, .empty, saToken⟩
  exec := exec auth
  body := getCurrentUser auth
  forks _ := none
  allows _ _ := true

abbrev AuthEv := Event AuthOp AuthOp.Res (Option String) (Except AuthExc AuthedUser)

abbrev AuthCfg := Config AuthWorld AuthOp AuthOp.Res (Option String) (Except AuthExc AuthedUser)

end JobProcessor.Auth
