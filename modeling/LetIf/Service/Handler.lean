/-
The compiler as a service. Sources are posted to be checked, evaluated, compiled or run; compiled
modules may be kept in a store, which makes answers faster and never different.
-/
import LetIf.Cache.Key
import LetIf.Cache.Store
import LetIf.Service.Message

namespace LetIf.Service

open Cache (Job Database)

/-- A result: its text, and its media type if it is told. -/
structure Answer where
  mediaType? : Option Text
  body : Text
  deriving DecidableEq, Repr

/-- A module to be kept, under its key. -/
structure Entry where
  key : Text
  module : Text
  deriving DecidableEq, Repr

/-- Compiles a source, unless the module is known. A module that was not known is to be kept. -/
def compile [Json.Replacement] (target : Target) (known : Text → Option Text) (rq : Request) (src : Text) :
    Except Refusal (Answer × Option Entry) := do
  let format ← rq.format
  let target ← rq.target target
  let key := Job.key ⟨src, format.name, target.strategy.name, target.name⟩
  match known key with
  | some module => return (⟨some format.mediaType, module⟩, none)
  | none =>
    let m ← (Program.compile target src).mapError .ofProgram
    let module ← (format.encode m).mapError .defect
    return (⟨some format.mediaType, module⟩, some ⟨key, module⟩)

/-- What is answered to a source that was posted. -/
def perform [Engine.Runtime] [Json.Replacement] (target : Target) (known : Text → Option Text) (rq : Request)
    (src : Text) : Except Refusal (Answer × Option Entry) :=
  match Task.ofRoute? rq.route with
  | some .check => do
    let typed ← (Program.check src).mapError .ofProgram
    return (⟨none, typed.model.kind.name⟩, none)
  | some .eval => do
    let (v, _) ← (Program.eval src).mapError .ofProgram
    return (⟨none, v.text⟩, none)
  | some .compile => compile target known rq src
  | some .run => do
    let n ← (Program.run (← rq.target target) src).mapError .ofRun
    return (⟨none, Text.ofInt n.toInt⟩, none)
  | none => .error .notFound

/-- All that comes of a request. -/
structure Reply where
  response : Response
  fresh? : Option Entry
  /-- The buffer, which other requests may use now. -/
  buffer : Buffer

/-- The headers of a response whose text may be of a media type. -/
def Request.replyHeaders (rq : Request) : Option Text → List (Text × Text)
  | some mediaType => rq.crossOrigin ++ [(Text.ofString "Content-Type", mediaType)]
  | none => rq.crossOrigin

/-- The response to what was found, or to a refusal. -/
def Request.respond (rq : Request) : Except Refusal (Answer × Option Entry) → Response
  | .ok (a, _) => ⟨200, rq.replyHeaders a.mediaType?, a.body⟩
  | .error r => ⟨r.status, rq.replyHeaders r.mediaType?, r.body⟩

/-- Serves one request. Requests for permission and for a sign of life need no body; every other
one must be a post whose body fits in the buffer, which is checked before the path. -/
def reply [Engine.Runtime] [Json.Replacement] (target : Target) (known : Text → Option Text) (buffer : Buffer)
    (rq : Request) : Reply :=
  if rq.method == Text.ofString "OPTIONS" then ⟨rq.respond (.ok (⟨none, []⟩, none)), none, buffer⟩
  else if rq.method == Text.ofString "GET" && rq.route.isEmpty then
    ⟨rq.respond (.ok (⟨none, "exprc " ++ Program.version⟩, none)), none, buffer⟩
  else if rq.method != Text.ofString "POST" then
    ⟨rq.respond (.error .methodNotAllowed), none, buffer⟩
  else
    let payload := Payload.read buffer rq.body
    let result :=
      if payload.complete then perform target known rq payload.bytes else .error .tooLarge
    let fresh? := match result with
      | .ok (_, fresh?) => fresh?
      | .error _ => none
    ⟨rq.respond result, fresh?, payload.wiped⟩

section Stores

variable {D : Type} [Database D]

/-- What a store knows of a key; a store that cannot be read knows nothing. -/
def known (store : Option D) (key : Text) : Option Text :=
  match store with
  | none => none
  | some s =>
    match Cache.get s key with
    | .ok module? => module?
    | .error _ => none

/-- A store with a module entered, as far as it can be written. -/
def keep (store : Option D) (fresh? : Option Entry) : Option D :=
  match store, fresh? with
  | some s, some e => some (Cache.put s e.key e.module).2
  | store, _ => store

/-- Serves one request with a store: the response, the store and the buffer after it. -/
def handle [Engine.Runtime] [Json.Replacement] (target : Target) (store : Option D) (buffer : Buffer)
    (rq : Request) : Response × Option D × Buffer :=
  let r := reply target (known store) buffer rq
  (r.response, keep store r.fresh?, r.buffer)

end Stores

end LetIf.Service
