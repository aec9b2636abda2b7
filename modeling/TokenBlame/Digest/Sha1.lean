/-
# TokenBlame.Digest.Sha1 -- the digest that names objects

SHA-1 of FIPS 180-4: the message is padded with one set bit, zeros and its length to
whole blocks of sixteen words, and every block is mixed into five words of state in
eighty rounds.
-/
import TokenBlame.Text.Utf8
import TokenBlame.Text.Pieces

set_option autoImplicit false

namespace TokenBlame.Sha1

/-! ## Words -/

/-- Rotate a word to the left by `n` bits, `0 < n < 32`. -/
def rotate (n : UInt32) (word : UInt32) : UInt32 :=
  (word <<< n) ||| (word >>> (32 - n))

/-- The word of four bytes, the first one most significant. -/
def wordOfBytes (bytes : Bytes) : UInt32 :=
  bytes.foldl (fun word b => (word <<< 8) ||| b.toUInt32) 0

/-- The four bytes of a word, the most significant one first. -/
def bytesOfWord (word : UInt32) : Bytes :=
  [(word >>> 24).toUInt8, (word >>> 16).toUInt8, (word >>> 8).toUInt8, word.toUInt8]

/-! ## Padding -/

/-- `count` bytes of a number, the most significant one first. -/
def bigEndian (count : Nat) (n : Nat) : Bytes :=
  (List.range count).reverse.map fun i => UInt8.ofNat (n >>> (8 * i))

/-- The message with the bytes that fill its last block. -/
def pad (message : Bytes) : Bytes :=
  message ++ 0x80 :: List.replicate ((119 - message.length % 64) % 64) 0 ++
    bigEndian 8 (8 * message.length)

/-! ## Rounds -/

/-- The five words that are carried from block to block. -/
structure State where
  a : UInt32
  b : UInt32
  c : UInt32
  d : UInt32
  e : UInt32
  deriving DecidableEq, Repr

/-- The state before the first block. -/
def start : State :=
  ⟨0x67452301, 0xEFCDAB89, 0x98BADCFE, 0x10325476, 0xC3D2E1F0⟩

/-- The word that follows in the schedule, the words before it given last first. -/
def nextWord (words : List UInt32) : UInt32 :=
  rotate 1 (words.getD 2 0 ^^^ words.getD 7 0 ^^^ words.getD 13 0 ^^^ words.getD 15 0)

/-- `count` more words of the schedule in front of those before them. -/
def extend : Nat → List UInt32 → List UInt32
  | 0, words => words
  | count + 1, words => extend count (nextWord words :: words)

/-- The eighty words of a block. -/
def schedule (block : List UInt32) : List UInt32 :=
  (extend 64 block.reverse).reverse

/-- The function and the constant of round `t`. -/
def mixing (t : Nat) (b c d : UInt32) : UInt32 :=
  if t < 20 then ((b &&& c) ||| (~~~b &&& d)) + 0x5A827999
  else if t < 40 then (b ^^^ c ^^^ d) + 0x6ED9EBA1
  else if t < 60 then ((b &&& c) ||| (b &&& d) ||| (c &&& d)) + 0x8F1BBCDC
  else (b ^^^ c ^^^ d) + 0xCA62C1D6

/-- Round `t` with its word of the schedule. -/
def round (s : State) (word : UInt32) (t : Nat) : State :=
  ⟨rotate 5 s.a + mixing t s.b s.c s.d + s.e + word, s.a, rotate 30 s.b, s.c, s.d⟩

/-- Mix a block of sixteen words into the state. -/
def absorb (s : State) (block : List UInt32) : State :=
  let r := (schedule block).zipIdx.foldl (fun r (word, t) => round r word t) s
  ⟨s.a + r.a, s.b + r.b, s.c + r.c, s.d + r.d, s.e + r.e⟩

/-- The twenty bytes of the digest of a message. -/
def digest (message : Bytes) : Bytes :=
  let words := (Pieces.chunksOf 4 (pad message)).map wordOfBytes
  let s := (Pieces.chunksOf 16 words).foldl absorb start
  [s.a, s.b, s.c, s.d, s.e].flatMap bytesOfWord

end TokenBlame.Sha1
