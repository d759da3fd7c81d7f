/-
Keys of the cache. A key stands for all that decides what a compilation gives: the format, the
strategy, the name of the export and the source. It is their digest by BLAKE2b, of 32 bytes. There a
message is absorbed in blocks of 128 bytes, each of which is mixed into a chain of eight words; the
last block is padded with zeros and marked.
-/
import LetIf.Text.Basic

namespace LetIf.Cache

/-! ## Digests -/

namespace Blake2b

/-- The state that blocks are absorbed into. -/
abbrev Chain := Vector UInt64 8

/-- Sixteen words: a block of the message, or the working state of one compression. -/
abbrev Words := Vector UInt64 16

def blockSize : Nat := 128

/-- The fractional parts of the square roots of the first eight primes. -/
def start : Chain :=
  #v[0x6a09e667f3bcc908, 0xbb67ae8584caa73b, 0x3c6ef372fe94f82b, 0xa54ff53a5f1d36f1,
    0x510e527fade682d1, 0x9b05688c2b3e6c1f, 0x1f83d9abfb41bd6b, 0x5be0cd19137e2179]

/-- The order in which the words of a block enter each of the twelve rounds. -/
def schedule : List (Vector (Fin 16) 16) :=
  [#v[0, 1, 2, 3, 4, 5, 6, 7, 8, 9, 10, 11, 12, 13, 14, 15],
    #v[14, 10, 4, 8, 9, 15, 13, 6, 1, 12, 0, 2, 11, 7, 5, 3],
    #v[11, 8, 12, 0, 5, 2, 15, 13, 10, 14, 3, 6, 7, 1, 9, 4],
    #v[7, 9, 3, 1, 13, 12, 11, 14, 2, 6, 5, 10, 4, 0, 15, 8],
    #v[9, 0, 5, 7, 2, 4, 10, 15, 14, 1, 11, 12, 6, 8, 3, 13],
    #v[2, 12, 6, 10, 0, 11, 8, 3, 4, 13, 7, 5, 15, 14, 1, 9],
    #v[12, 5, 1, 15, 14, 13, 4, 10, 0, 7, 6, 3, 9, 2, 8, 11],
    #v[13, 11, 7, 14, 12, 1, 3, 9, 5, 0, 15, 4, 8, 6, 2, 10],
    #v[6, 15, 14, 9, 11, 3, 0, 8, 12, 2, 13, 7, 1, 4, 10, 5],
    #v[10, 2, 8, 4, 7, 6, 1, 5, 15, 11, 9, 14, 3, 12, 13, 0],
    #v[0, 1, 2, 3, 4, 5, 6, 7, 8, 9, 10, 11, 12, 13, 14, 15],
    #v[14, 10, 4, 8, 9, 15, 13, 6, 1, 12, 0, 2, 11, 7, 5, 3]]

def rotateRight (w n : UInt64) : UInt64 := (w >>> n) ||| (w <<< (64 - n))

/-- Mixes two words of a block into four words of the working state. -/
def mix (v : Words) (a b c d : Fin 16) (x y : UInt64) : Words :=
  let va := v[a] + v[b] + x
  let vd := rotateRight (v[d] ^^^ va) 32
  let vc := v[c] + vd
  let vb := rotateRight (v[b] ^^^ vc) 24
  let va := va + vb + y
  let vd := rotateRight (vd ^^^ va) 16
  let vc := vc + vd
  let vb := rotateRight (vb ^^^ vc) 63
  (((v.set a.val va a.isLt).set b.val vb b.isLt).set c.val vc c.isLt).set d.val vd d.isLt

/-- Columns first, then diagonals. -/
def round (m : Words) (v : Words) (s : Vector (Fin 16) 16) : Words :=
  let v := mix v 0 4 8 12 m[s[0]] m[s[1]]
  let v := mix v 1 5 9 13 m[s[2]] m[s[3]]
  let v := mix v 2 6 10 14 m[s[4]] m[s[5]]
  let v := mix v 3 7 11 15 m[s[6]] m[s[7]]
  let v := mix v 0 5 10 15 m[s[8]] m[s[9]]
  let v := mix v 1 6 11 12 m[s[10]] m[s[11]]
  let v := mix v 2 7 8 13 m[s[12]] m[s[13]]
  mix v 3 4 9 14 m[s[14]] m[s[15]]

/-- The working state before the first round: the chain and the start values, with the number of
bytes absorbed and the mark of the last block mixed in. -/
def working (h : Chain) (absorbed : Nat) (last : Bool) : Words :=
  let v := h ++ start
  let v := v.set 12 (v[12] ^^^ absorbed.toUInt64)
  let v := v.set 13 (v[13] ^^^ (absorbed / Bits.span 64).toUInt64)
  if last then v.set 14 (v[14] ^^^ 0xffffffffffffffff) else v

def compress (h : Chain) (block : Words) (absorbed : Nat) (last : Bool) : Chain :=
  let v := schedule.foldl (round block) (working h absorbed last)
  .ofFn fun i => h[i] ^^^ v[i.val] ^^^ v[i.val + 8]

/-- The word of at most eight bytes, the first of them the least significant. -/
def word (bytes : Text) : UInt64 := bytes.foldr (fun b w => w <<< 8 ||| b.toUInt64) 0

def wordBytes (w : UInt64) : Text :=
  (List.range 8).map fun i => (w >>> (8 * i.toUInt64)).toUInt8

/-- The words of a block, padded with zeros. -/
def block (bytes : Text) : Words := .ofFn fun i => word ((bytes.drop (8 * i.val)).take 8)

/-- Absorbs the rest of a message of which `absorbed` bytes are in the chain. -/
def absorb (h : Chain) (absorbed : Nat) (data : Text) : Chain :=
  let here := data.take blockSize
  match _rest : data.drop blockSize with
  | [] => compress h (block here) (absorbed + here.length) true
  | b :: more =>
    absorb (compress h (block here) (absorbed + blockSize) false) (absorbed + blockSize)
      (b :: more)
termination_by data.length
decreasing_by
  have := congrArg List.length _rest
  simp only [List.length_drop, List.length_cons, blockSize] at this ⊢
  omega

/-- The digest of a message. The chain starts with the digest's size and the shape of the tree,
which is a single node, mixed into its first word. -/
def digest (data : Text) : Text :=
  let h := absorb (start.set 0 (start[0] ^^^ 0x01010020)) 0 data
  (h.toList.take 4).flatMap wordBytes

end Blake2b

/-! ## Keys -/

/-- A compilation whose result may be kept. -/
structure Job where
  source : Text
  format : Text
  strategy : Text
  name : Text
  deriving DecidableEq, Repr

/-- A length as four bytes, the most significant first; what is beyond 32 bits is lost. -/
def lengthBytes (n : Nat) : Text :=
  [(n / Bits.span 24).toUInt8, (n / Bits.span 16).toUInt8, (n / Bits.span 8).toUInt8, n.toUInt8]

/-- A text behind its length. -/
def framed (t : Text) : Text := lengthBytes t.length ++ t

/-- The bytes that are hashed: the parts one after another, each behind its length, so that no
contents of a part can move the border to the next. -/
def Job.material (j : Job) : Text :=
  framed j.format ++ framed j.strategy ++ framed j.name ++ framed j.source

def Job.key (j : Job) : Text := Blake2b.digest j.material

end LetIf.Cache
