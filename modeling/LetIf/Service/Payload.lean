/-
Bodies of requests. A body arrives in chunks of any size and is collected in a buffer, which is
wiped and used again after the request. Bodies that do not fit in the buffer are recognised, so
none is ever cut short.
-/
import LetIf.Text.Basic

namespace LetIf.Service

/-- The most bytes a source may have, and the size of every buffer. -/
def limit : Nat := 65536

structure Buffer where
  bytes : Text
  length_bytes : bytes.length = limit

namespace Buffer

def fresh : Buffer := ⟨List.replicate limit 0, by simp⟩

/-- Overwrites the bytes from `start` on; what does not fit is lost. -/
def write (b : Buffer) (start : Nat) (t : Text) : Buffer where
  bytes := (b.bytes.take start ++ t ++ b.bytes.drop (start + t.length)).take limit
  length_bytes := by
    have := b.length_bytes
    simp only [List.length_take, List.length_append, List.length_drop]
    omega

end Buffer

/-- One step in the arrival of a body: some bytes, none perhaps, and whether they are the last,
be it because the body is complete or because it broke off. -/
structure Chunk where
  bytes : Text
  last : Bool
  deriving DecidableEq, Repr

/-- What has arrived of a body. -/
structure Payload where
  buffer : Buffer
  filled : Nat
  /-- Whether the buffer holds all of the body. -/
  complete : Bool

namespace Payload

/-- Collects chunks behind the first `filled` bytes of a buffer. -/
def collect (b : Buffer) (filled : Nat) : List Chunk → Payload
  | [] => ⟨b, filled, true⟩
  | c :: rest =>
    let b := b.write filled (c.bytes.take (limit - filled))
    if limit < filled + c.bytes.length then ⟨b, limit, false⟩
    else if c.last then ⟨b, filled + c.bytes.length, true⟩
    else collect b (filled + c.bytes.length) rest

/-- Collects a body. -/
def read (b : Buffer) (body : List Chunk) : Payload := collect b 0 body

def bytes (p : Payload) : Text := p.buffer.bytes.take p.filled

/-- The buffer with what was collected wiped. -/
def wiped (p : Payload) : Buffer := p.buffer.write 0 (List.replicate p.filled 0)

end Payload

end LetIf.Service
