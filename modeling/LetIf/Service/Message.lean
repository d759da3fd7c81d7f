/-
Requests and responses, and the headers that say how a request wants its source compiled.
-/
import LetIf.Format
import LetIf.Path
import LetIf.Program
import LetIf.Service.Payload

namespace LetIf.Service

structure Request where
  method : Text
  path : Text
  headers : List (Text × Text)
  body : List Chunk
  deriving DecidableEq, Repr

structure Response where
  status : Nat
  headers : List (Text × Text)
  body : Text
  deriving DecidableEq, Repr

/-! ## Headers -/

/-- The value of a header, whose name is matched in any case; nothing if it is not there. -/
def Request.header (rq : Request) (name : Text) : Text :=
  ((rq.headers.find? fun h => Text.lowerAscii h.1 == Text.lowerAscii name).map (·.2)).getD []

def formatHeader : Text := "X-Exprc-Codec"

def strategyHeader : Text := "X-Exprc-Strategy"

/-- What lets a page of any origin ask: the headers and methods it names are allowed. -/
def Request.crossOrigin (rq : Request) : List (Text × Text) :=
  [("Access-Control-Allow-Headers", rq.header "Access-Control-Request-Headers"),
    ("Access-Control-Allow-Methods", rq.header "Access-Control-Request-Method"),
    ("Access-Control-Allow-Origin", "*")]

/-! ## Refusals -/

/-- Why a request is not served. -/
inductive Refusal where
  | methodNotAllowed
  | notFound
  | tooLarge
  | unknownFormat
  | unknownStrategy (name : Text)
  | source (e : SourceError)
  | call (e : Engine.CallError)
  | defect (d : Defect)
  deriving DecidableEq

namespace Refusal

def status : Refusal → Nat
  | .methodNotAllowed => 405
  | .notFound => 404
  | .tooLarge => 413
  | .unknownFormat => 400
  | .unknownStrategy _ => 400
  | .source _ => 422
  | .call _ => 500
  | .defect _ => 500

/-- What is said of a refusal. Of defects only those with a report of their own are told. -/
def body : Refusal → Text
  | .methodNotAllowed => []
  | .notFound => []
  | .tooLarge => "source exceeds " ++ Text.ofNat limit ++ " bytes"
  | .unknownFormat =>
    "invalid codec requested (" ++ formatHeader ++ " header). available codecs: " ++ Format.names
  | .unknownStrategy name =>
    "invalid strategy requested (" ++ strategyHeader ++ " header): " ++ Strategy.unknownName name
  | .source e => e.report.text
  | .call e => e.message
  | .defect (.internal e) => e.report.text
  | .defect _ => []

/-- The media type of what is said; only reports on a source have one. -/
def mediaType? : Refusal → Option Text
  | .source _ => some "text/plain; charset=utf-8"
  | _ => none

def ofProgram : Program.Failure → Refusal
  | .refused e => .source e
  | .defect d => .defect d

def ofRun : Program.RunFailure → Refusal
  | .compiling f => ofProgram f
  | .calling e => .call e

end Refusal

/-! ## What is asked for -/

/-- What a source may be posted for. -/
inductive Task where
  | check
  | eval
  | compile
  | run
  deriving DecidableEq, Repr

/-- The path of a request without slashes at its ends. -/
def Request.route (rq : Request) : Text := Text.trimBoth (· == Path.slash) (Path.clean rq.path)

def Task.ofRoute? (t : Text) : Option Task :=
  if t == Text.ofString "check" then some .check
  else if t == Text.ofString "eval" then some .eval
  else if t == Text.ofString "compile" then some .compile
  else if t == Text.ofString "run" then some .run
  else none

/-- The format that a request names, WebAssembly if it names none. -/
def Request.format (rq : Request) : Except Refusal Format :=
  let name := rq.header formatHeader
  if name.isEmpty then .ok .wasm
  else match Format.ofName? name with
    | some f => .ok f
    | none => .error .unknownFormat

/-- The target of a request: the default one, but with the strategy that the request names. -/
def Request.target (rq : Request) (default : Target) : Except Refusal Target :=
  let target := { default with name := default.exportName }
  let name := rq.header strategyHeader
  if name.isEmpty then .ok target
  else match Strategy.ofName? name with
    | some strategy => .ok { target with strategy }
    | none => .error (.unknownStrategy name)

end LetIf.Service
