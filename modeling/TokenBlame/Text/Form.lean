/-
# TokenBlame.Text.Form -- names and values in a query

The encoding `application/x-www-form-urlencoded`.  Writing keeps letters, digits
and `* - . _`, writes a space as a plus sign and every other byte as a percent sign
and two upper-case digits.  Reading is total: a percent sign without two digits
behind it stands for itself, and malformed UTF-8 is shown as replacement characters.
-/
import TokenBlame.Text.Numeral
import TokenBlame.Text.Pieces

set_option autoImplicit false

namespace TokenBlame.Form

/-! ## Writing -/

/-- A byte that is written as itself. -/
def isPlain (b : UInt8) : Bool :=
  (0x30 ≤ b && b ≤ 0x39) || (0x41 ≤ b && b ≤ 0x5A) || (0x61 ≤ b && b ≤ 0x7A) ||
    b == 0x2A || b == 0x2D || b == 0x2E || b == 0x5F

/-- A byte as a percent sign and two digits. -/
def percent (b : UInt8) : List Char :=
  ['%', Numeral.hexDigitUpper (b.toNat / 16), Numeral.hexDigitUpper (b.toNat % 16)]

/-- One byte of a name or a value. -/
def encodeByte (b : UInt8) : List Char :=
  if b == 0x20 then ['+'] else if isPlain b then [Char.ofNat b.toNat] else percent b

/-- A name or a value. -/
def encode (text : String) : String :=
  String.ofList ((Utf8.encode text).flatMap encodeByte)

/-! ## Reading -/

/-- The byte that two hexadecimal digits at the front spell. -/
def escaped? : Bytes → Option UInt8
  | high :: low :: _ => do
      let h ← Numeral.hexValue? (Char.ofNat high.toNat)
      let l ← Numeral.hexValue? (Char.ofNat low.toNat)
      return UInt8.ofNat (h * 16 + l)
  | _ => none

/-- Undo the percent signs and the plus signs of a byte string. -/
def decodeBytes : Bytes → Bytes
  | [] => []
  | b :: rest =>
      if b == 0x2B then 0x20 :: decodeBytes rest
      else if b == 0x25 then
        match escaped? rest with
        | some value => value :: decodeBytes (rest.drop 2)
        | none => b :: decodeBytes rest
      else b :: decodeBytes rest
termination_by bytes => bytes.length
decreasing_by all_goals (simp only [List.length_cons, List.length_drop]; omega)

/-- A name or a value as it was meant. -/
def decode (bytes : Bytes) : String :=
  Utf8.decodeLossy (decodeBytes bytes)

/-- One `name=value`; without an equals sign the value is empty. -/
def pair (bytes : Bytes) : String × String :=
  (decode (bytes.takeWhile (· != 0x3D)), decode ((bytes.dropWhile (· != 0x3D)).drop 1))

/-- The names and values of a query in order; empty ones between two `&` are none. -/
def pairs (query : String) : List (String × String) :=
  ((Pieces.split 0x26 (Utf8.encode query)).filter (!·.isEmpty)).map pair

end TokenBlame.Form
