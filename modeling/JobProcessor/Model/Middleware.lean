import JobProcessor.Codec.Integer
import JobProcessor.Codec.Json
import JobProcessor.Interleave.Stream

/-! `app/api/middleware.py`: the limit on the size of a request's body. An application
is a program that receives messages from the server, sends messages to it, and does
whatever else it does. -/

namespace JobProcessor

open Codec Codec.Unicode Codec.Json Interleave

/-! ### Messages -/

inductive InboundType where
  | httpRequest
  | httpDisconnect
  | other (name : String)
deriving DecidableEq

/-- A message from `receive`; the two keys of a request may be missing. -/
structure Inbound where
  type : InboundType
  body : Option (List Nat)
  moreBody : Option Bool

abbrev Headers := List (List Nat × List Nat)

inductive Outbound where
  | httpResponseStart (status : Nat) (headers : Headers)
  | httpResponseBody (body : List Nat) (moreBody : Option Bool)
  | other (name : String)

inductive ScopeType where
  | http
  | websocket
  | lifespan
deriving DecidableEq

structure Scope where
  type : ScopeType
  headers : Headers

/-! ### Applications -/

/-- What an application does besides receiving. -/
inductive AsgiOp (Op : Type) where
  | send (m : Outbound)
  | other (o : Op)

variable {Op α : Type} {Res : Op → Type}

def AsgiOp.Reply (Res : Op → Type) : AsgiOp Op → Type
  | .send _ => Unit
  | .other o => Res o

abbrev Asgi (Op : Type) (Res : Op → Type) (α : Type) : Type :=
  Stream.Reader Inbound (AsgiOp Op) (AsgiOp.Reply Res) α

def receive : Asgi Op Res Inbound := .act .read fun m => .pure m

def send (m : Outbound) : Asgi Op Res Unit := .act (.other (.send m)) fun _ => .pure ()

/-! ### The middleware -/

def contentLength : List Nat := ofString "content-length"

/-- `json.dumps({"detail": "request body too large"}).encode()`. -/
def tooLargeDetail : List Nat :=
  encodeUtf8 (dumps [32] (.obj [(ofString "detail", .str (ofString "request body too large"))]))

def send413 : Asgi Op Res Unit := do
  send (.httpResponseStart 413 [(ofString "content-type", ofString "application/json"),
    (contentLength, decimal tooLargeDetail.length)])
  send (.httpResponseBody tooLargeDetail none)

/-- The loop over the headers: whether it gets to a length over the limit. A value that
`int` does not read is passed over. -/
def declaredTooLarge (maxBytes : Nat) : Headers → Bool
  | [] => false
  | (name, value) :: headers =>
    if name = contentLength then
      match Integer.ofBytes value with
      | some n => if (maxBytes : Int) < n then true else declaredTooLarge maxBytes headers
      | none => declaredTooLarge maxBytes headers
    else declaredTooLarge maxBytes headers

/-- How the loop over the messages ends, if it does. -/
inductive Buffered where
  | tooLarge
  | complete (messages : List Inbound)
  | waiting

/-- The loop over the messages; it has received `buffered`, with `total` bytes. -/
def bufferBody (maxBytes : Nat) : Nat → List Inbound → Nat → Asgi Op Res Buffered
  | 0, _, _ => pure .waiting
  | fuel + 1, buffered, total => do
    let message : Inbound ← receive
    if message.type ≠ .httpRequest then pure (.complete (buffered ++ [message]))
    else
      let total := total + (message.body.getD []).length
      if maxBytes < total then pure .tooLarge
      else if !message.moreBody.getD false then pure (.complete (buffered ++ [message]))
      else bufferBody maxBytes fuel (buffered ++ [message]) total

/-- An application that is called with `replay_receive`: a message of the queue while
there is one, then the server's. -/
def replayReceive (queue : List Inbound) (p : Asgi Op Res α) : Asgi Op Res α := Stream.replay queue p

/-- How a call of the middleware ends: with a 413, or with what the application returns. -/
inductive Limited (α : Type) where
  | rejected
  | called (a : α)
  | waiting

/-- What follows the loop over the messages. -/
def afterBuffering (app : Scope → Asgi Op Res α) (scope : Scope) : Buffered → Asgi Op Res (Limited α)
  | .tooLarge => do
    send413
    pure .rejected
  | .complete queue => do
    let a ← replayReceive queue (app scope)
    pure (.called a)
  | .waiting => pure .waiting

def bodySizeLimit (maxBytes fuel : Nat) (app : Scope → Asgi Op Res α) (scope : Scope) :
    Asgi Op Res (Limited α) :=
  if scope.type ≠ .http then do
    let a ← app scope
    pure (.called a)
  else if declaredTooLarge maxBytes scope.headers then do
    send413
    pure .rejected
  else do
    let buffered : Buffered ← bufferBody maxBytes fuel [] 0
    afterBuffering app scope buffered

/-! ### The server -/

/-- What was sent, and the world of everything else. -/
structure Wire (W : Type) where
  sent : List Outbound
  world : W

def execAsgi {W : Type} (other : (o : Op) → W → W × Res o) :
    (o : AsgiOp Op) → Wire W → Wire W × AsgiOp.Reply Res o
  | .send m, s => (⟨s.sent ++ [m], s.world⟩, ())
  | .other o, s => (⟨s.sent, (other o s.world).1⟩, (other o s.world).2)

/-- Run an application on a server whose call `i` of `receive` returns `messages i`. -/
def serve {W : Type} (messages : Nat → Inbound) (other : (o : Op) → W → W × Res o)
    (p : Asgi Op Res α) (w : W) : α × Stream.At (Wire W) :=
  Stream.run messages (execAsgi other) p ⟨0, [], w⟩

end JobProcessor
