/-
# TokenBlame.Text.Utf8 -- byte strings and the characters they spell

A blob, a path and a commit message are byte strings.  A byte string need not be
text: `decode` reads it from left to right as UTF-8 and reports, in order, every
character and every malformed run.  A malformed run is as long as it can be while
it is still the beginning of some character, so `[0xE6, 0x97]` is one run and
`[0xFF, 0xFE]` is two.

* `decodeLossy` shows each malformed run as one replacement character;
* `decode?` accepts a byte string only when no run is malformed;
* `encode` is the byte string of a text.

The reader keeps at most one unfinished character (`Pending`): how many
continuation bytes it still owes, and which bytes the next one may be.  The bounds
on the second byte are what refuses overlong forms and surrogates.
-/

set_option autoImplicit false

namespace TokenBlame

/-- A string of bytes. -/
abbrev Bytes := List UInt8

namespace Utf8

/-! ## Writing -/

/-- The bytes of one character: one, two, three or four of them by its code point. -/
def encodeChar (c : Char) : Bytes :=
  let n := c.toNat
  if n < 0x80 then [UInt8.ofNat n]
  else if n < 0x800 then [UInt8.ofNat (0xC0 + n / 0x40), UInt8.ofNat (0x80 + n % 0x40)]
  else if n < 0x10000 then
    [UInt8.ofNat (0xE0 + n / 0x1000), UInt8.ofNat (0x80 + n / 0x40 % 0x40),
      UInt8.ofNat (0x80 + n % 0x40)]
  else
    [UInt8.ofNat (0xF0 + n / 0x40000), UInt8.ofNat (0x80 + n / 0x1000 % 0x40),
      UInt8.ofNat (0x80 + n / 0x40 % 0x40), UInt8.ofNat (0x80 + n % 0x40)]

/-- The bytes of a text, character by character. -/
def encodeChars (text : List Char) : Bytes :=
  text.flatMap encodeChar

/-- The byte string of a text. -/
def encode (text : String) : Bytes :=
  encodeChars text.toList

/-! ## Reading -/

/-- A character of which some bytes have been read. -/
structure Pending where
  /-- Continuation bytes still owed, at least one. -/
  owed : Nat
  /-- The least byte that may come next. -/
  low : Nat
  /-- The greatest byte that may come next. -/
  high : Nat
  /-- The bits read so far. -/
  value : Nat
  deriving DecidableEq, Repr

/-- Read the byte `b` between two characters: what it completes and what it begins. -/
def readFirst (b : Nat) : List (Option Char) × Option Pending :=
  if b < 0x80 then ([some (Char.ofNat b)], none)
  else if 0xC2 ≤ b ∧ b ≤ 0xDF then ([], some ⟨1, 0x80, 0xBF, b - 0xC0⟩)
  else if b = 0xE0 then ([], some ⟨2, 0xA0, 0xBF, 0⟩)
  else if b = 0xED then ([], some ⟨2, 0x80, 0x9F, 0xD⟩)
  else if 0xE1 ≤ b ∧ b ≤ 0xEF then ([], some ⟨2, 0x80, 0xBF, b - 0xE0⟩)
  else if b = 0xF0 then ([], some ⟨3, 0x90, 0xBF, 0⟩)
  else if 0xF1 ≤ b ∧ b ≤ 0xF3 then ([], some ⟨3, 0x80, 0xBF, b - 0xF0⟩)
  else if b = 0xF4 then ([], some ⟨3, 0x80, 0x8F, 4⟩)
  else ([none], none)

/-- Read the byte `b` after the unfinished character `p`.  A byte that cannot continue
it ends a malformed run, and is then read as a first byte. -/
def readNext (p : Pending) (b : Nat) : List (Option Char) × Option Pending :=
  if p.low ≤ b ∧ b ≤ p.high then
    let value := p.value * 0x40 + (b - 0x80)
    if p.owed ≤ 1 then ([some (Char.ofNat value)], none)
    else ([], some ⟨p.owed - 1, 0x80, 0xBF, value⟩)
  else
    let (found, next) := readFirst b
    (none :: found, next)

/-- Read one byte from either state. -/
def read (state : Option Pending) (b : Nat) : List (Option Char) × Option Pending :=
  match state with
  | none => readFirst b
  | some p => readNext p b

/-- Read the rest of a byte string, `found` holding what was read before, last first. -/
def decodeFrom (found : List (Option Char)) (state : Option Pending) : Bytes → List (Option Char)
  | [] => (if state.isSome then none :: found else found).reverse
  | b :: rest =>
      decodeFrom ((read state b.toNat).1.reverse ++ found) (read state b.toNat).2 rest

/-- The characters of a byte string in order, `none` standing for a malformed run. -/
def decode (bytes : Bytes) : List (Option Char) :=
  decodeFrom [] none bytes

/-- What a malformed run is shown as. -/
def replacement : Char := '\uFFFD'

/-- The characters of a byte string, malformed runs shown as replacement characters. -/
def decodeLossyChars (bytes : Bytes) : List Char :=
  (decode bytes).map (·.getD replacement)

/-- The text of a byte string, malformed runs shown as replacement characters. -/
def decodeLossy (bytes : Bytes) : String :=
  String.ofList (decodeLossyChars bytes)

/-- The text of a byte string that is well-formed throughout. -/
def decode? (bytes : Bytes) : Option String :=
  let found := decode bytes
  if found.all Option.isSome then some (String.ofList (found.filterMap id)) else none

end Utf8

end TokenBlame
