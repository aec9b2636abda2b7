/-
# TokenBlame.Text.Numeral -- numbers written in digits

`unsigned? bound` and `signed? low high` read a whole text as a decimal number in a
range: one sign at most, then one digit or more, and nothing else.  A plus sign is
always allowed, a minus sign only where the range is signed.  The remaining
functions write bytes and small numbers in hexadecimal and in fixed width.
-/
import TokenBlame.Text.Utf8

set_option autoImplicit false

namespace TokenBlame.Numeral

/-! ## Decimal numbers -/

/-- The value of a decimal digit. -/
def digit? (c : Char) : Option Nat :=
  if '0' ≤ c ∧ c ≤ '9' then some (c.toNat - '0'.toNat) else none

/-- The value of a non-empty run of digits. -/
def digits? (text : List Char) : Option Nat :=
  if text.isEmpty then none
  else text.foldl (fun value c => value.bind fun v => (digit? c).map (v * 10 + ·)) (some 0)

/-- A number from zero to `bound`, after a plus sign or none. -/
def unsigned? (bound : Nat) (text : List Char) : Option Nat :=
  let body := match text with
    | '+' :: rest => rest
    | _ => text
  (digits? body).filter (· ≤ bound)

/-- A number from `low` to `high`, after one sign or none. -/
def signed? (low high : Int) (text : List Char) : Option Int :=
  let value : Option Int := match text with
    | '+' :: rest => (digits? rest).map fun n => (n : Int)
    | '-' :: rest => (digits? rest).map fun n => -(n : Int)
    | _ => (digits? text).map fun n => (n : Int)
  value.filter fun v => low ≤ v && v ≤ high

/-- The greatest number of 32 bits. -/
def maxWord32 : Nat := 0xFFFFFFFF

/-- The greatest number of 64 bits. -/
def maxWord64 : Nat := 0xFFFFFFFFFFFFFFFF

/-- The least and the greatest signed number of 32 bits. -/
def range32 : Int × Int := (-0x80000000, 0x7FFFFFFF)

/-- The least and the greatest signed number of 64 bits. -/
def range64 : Int × Int := (-0x8000000000000000, 0x7FFFFFFFFFFFFFFF)

/-- A signed number of 64 bits. -/
def signed64? (text : List Char) : Option Int :=
  signed? range64.1 range64.2 text

/-- At least `width` decimal digits, zeros in front. -/
def padded (width : Nat) (n : Nat) : String :=
  let digits := Nat.toDigits 10 n
  String.ofList (List.replicate (width - digits.length) '0' ++ digits)

/-! ## Hexadecimal numbers -/

/-- The lower-case digit of a value below sixteen. -/
def hexDigit (n : Nat) : Char :=
  if n < 10 then Char.ofNat ('0'.toNat + n) else Char.ofNat ('a'.toNat + (n - 10))

/-- The upper-case digit of a value below sixteen. -/
def hexDigitUpper (n : Nat) : Char :=
  if n < 10 then Char.ofNat ('0'.toNat + n) else Char.ofNat ('A'.toNat + (n - 10))

/-- The value of a hexadecimal digit of either case. -/
def hexValue? (c : Char) : Option Nat :=
  if '0' ≤ c ∧ c ≤ '9' then some (c.toNat - '0'.toNat)
  else if 'a' ≤ c ∧ c ≤ 'f' then some (c.toNat - 'a'.toNat + 10)
  else if 'A' ≤ c ∧ c ≤ 'F' then some (c.toNat - 'A'.toNat + 10)
  else none

/-- A hexadecimal digit of either case. -/
def isHex (c : Char) : Bool :=
  (hexValue? c).isSome

/-- A hexadecimal digit, letters in lower case. -/
def isLowerHex (c : Char) : Bool :=
  ('0' ≤ c && c ≤ '9') || ('a' ≤ c && c ≤ 'f')

/-- A byte string in lower-case hexadecimal, two digits a byte. -/
def hexOfBytes (bytes : Bytes) : String :=
  String.ofList (bytes.flatMap fun b => [hexDigit (b.toNat / 16), hexDigit (b.toNat % 16)])

/-- The byte string of an even number of hexadecimal digits. -/
def bytesOfHex? : List Char → Option Bytes
  | [] => some []
  | [_] => none
  | high :: low :: rest => do
      let h ← hexValue? high
      let l ← hexValue? low
      let tail ← bytesOfHex? rest
      return UInt8.ofNat (h * 16 + l) :: tail

end TokenBlame.Numeral
