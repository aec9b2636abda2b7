/-
# TokenBlame.Json.Basic -- JSON documents

A document keeps the spelling of its numbers and strings: a number is the digits as
they stand, a string is what stands between its quotation marks.  So a document can
hold a number of any size and a string whose escapes spell no character, and only a
reader that wants the value has to decide what it is (`integer?`, `text?`).

`ofString` and `ofInt` give the canonical spelling.
-/
import TokenBlame.Text.Numeral

set_option autoImplicit false

namespace TokenBlame

/-- A JSON document, numbers and strings in their spelling. -/
inductive Json where
  | null
  | bool (value : Bool)
  | number (spelling : List Char)
  | string (spelling : List Char)
  | array (items : List Json)
  | object (members : List (List Char × Json))
  deriving Inhabited

namespace Json

/-! ## The spelling of strings -/

/-- Four hexadecimal digits of a number below 65536. -/
def hex4 (n : Nat) : List Char :=
  [Numeral.hexDigit (n / 4096 % 16), Numeral.hexDigit (n / 256 % 16),
    Numeral.hexDigit (n / 16 % 16), Numeral.hexDigit (n % 16)]

/-- A character as a string spells it: short escapes where there are some, code points
for the other control characters, everything else as it is. -/
def escape (c : Char) : List Char :=
  if c = '"' then ['\\', '"']
  else if c = '\\' then ['\\', '\\']
  else if c = '\x08' then ['\\', 'b']
  else if c = '\x0c' then ['\\', 'f']
  else if c = '\n' then ['\\', 'n']
  else if c = '\r' then ['\\', 'r']
  else if c = '\t' then ['\\', 't']
  else if c.toNat < 0x20 then '\\' :: 'u' :: hex4 c.toNat
  else [c]

/-- The string of a text. -/
def ofString (text : String) : Json :=
  .string (text.toList.flatMap escape)

/-- The value of four hexadecimal digits. -/
def hex4? (a b c d : Char) : Option Nat := do
  let a ← Numeral.hexValue? a
  let b ← Numeral.hexValue? b
  let c ← Numeral.hexValue? c
  let d ← Numeral.hexValue? d
  return ((a * 16 + b) * 16 + c) * 16 + d

/-- The character of an escape of one letter. -/
def unescape? (c : Char) : Option Char :=
  if c = '"' then some '"'
  else if c = '\\' then some '\\'
  else if c = '/' then some '/'
  else if c = 'b' then some '\x08'
  else if c = 'f' then some '\x0c'
  else if c = 'n' then some '\n'
  else if c = 'r' then some '\r'
  else if c = 't' then some '\t'
  else none

/-- The characters that a spelling stands for, `found` holding those before, last
first.  A code unit of a surrogate pair without its partner stands for none. -/
def unescapeFrom (found : List Char) : List Char → Option (List Char)
  | [] => some found.reverse
  | '\\' :: 'u' :: a :: b :: c :: d :: rest =>
      match hex4? a b c d with
      | none => none
      | some high =>
          if high < 0xD800 ∨ 0xDFFF < high then unescapeFrom (Char.ofNat high :: found) rest
          else if 0xDC00 ≤ high then none
          else
            match rest with
            | '\\' :: 'u' :: a' :: b' :: c' :: d' :: rest' =>
                match hex4? a' b' c' d' with
                | none => none
                | some low =>
                    if 0xDC00 ≤ low ∧ low ≤ 0xDFFF then
                      unescapeFrom
                        (Char.ofNat (0x10000 + (high - 0xD800) * 0x400 + (low - 0xDC00)) :: found)
                        rest'
                    else none
            | _ => none
  | '\\' :: c :: rest =>
      match unescape? c with
      | none => none
      | some plain => unescapeFrom (plain :: found) rest
  | c :: rest => unescapeFrom (c :: found) rest

/-- The text of a spelling. -/
def unescapeString? (spelling : List Char) : Option String :=
  (unescapeFrom [] spelling).map String.ofList

/-! ## Numbers -/

/-- A number without fraction and exponent. -/
def ofInt (n : Int) : Json :=
  .number (if n < 0 then '-' :: Nat.toDigits 10 n.natAbs else Nat.toDigits 10 n.natAbs)

/-- A number without fraction and exponent. -/
def ofNat (n : Nat) : Json :=
  ofInt n

/-! ## Views -/

/-- The text of a string. -/
def text? : Json → Option String
  | .string spelling => unescapeString? spelling
  | _ => none

/-- The value of a number that has neither fraction nor exponent.  `-0` has a sign that
no integer has. -/
def integer? : Json → Option Int
  | .number ('-' :: digits) =>
      ((Numeral.digits? digits).filter (· != 0)).map fun n => -(n : Int)
  | .number digits => (Numeral.digits? digits).map fun n => (n : Int)
  | _ => none

/-- The items of an array. -/
def items? : Json → Option (List Json)
  | .array items => some items
  | _ => none

/-- The texts of an array of strings. -/
def texts? (json : Json) : Option (List String) :=
  json.items?.bind fun items => items.mapM text?

/-- The members of an object whose names spell texts. -/
def members? : Json → Option (List (String × Json))
  | .object members =>
      members.mapM fun member => (unescapeString? member.1).map fun name => (name, member.2)
  | _ => none

/-- An object of named members. -/
def ofMembers (members : List (String × Json)) : Json :=
  .object (members.map fun member => (member.1.toList.flatMap escape, member.2))

/-- A text or nothing. -/
def ofString? : Option String → Json
  | none => .null
  | some text => ofString text

end Json

end TokenBlame
