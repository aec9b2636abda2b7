/-
# TokenBlame.Git.QuotedPath -- paths in lines of text

A path is written as it is when it holds plain ASCII characters only.  Otherwise it
stands in quotes: a control character with a letter of its own, a quote and a backslash
stand behind a backslash, and any other byte is a backslash and three octal digits.

`quote` writes a path in this form and `unquote?` reads it.
-/
import TokenBlame.Text.Numeral

set_option autoImplicit false

namespace TokenBlame.Git.QuotedPath

/-- The bytes that are written as a backslash and a mark, with their marks. -/
def marks : List (UInt8 × UInt8) :=
  [(0x07, 0x61), (0x08, 0x62), (0x09, 0x74), (0x0A, 0x6E), (0x0B, 0x76), (0x0C, 0x66),
    (0x0D, 0x72), (0x22, 0x22), (0x5C, 0x5C)]

/-- The backslash. -/
def escape : UInt8 := 0x5C

/-- The quote. -/
def quoteMark : UInt8 := 0x22

/-! ## Writing -/

/-- A byte of a quoted path. -/
def quoteByte (b : UInt8) : Bytes :=
  match marks.lookup b with
  | some mark => [escape, mark]
  | none =>
      if 0x20 ≤ b && b < 0x7F then [b]
      else escape :: [b / 64, b / 8 % 8, b % 8].map (0x30 + ·)

/-- A path, in quotes if it holds a byte that is not a plain character. -/
def quote (path : Bytes) : Bytes :=
  let quoted := path.flatMap quoteByte
  if quoted.length = path.length then quoted else quoteMark :: quoted ++ [quoteMark]

/-- A path in this form, as text. -/
def shown (path : Bytes) : String :=
  Utf8.decodeLossy (quote path)

/-! ## Reading -/

/-- The value of an octal digit. -/
def octal? (b : UInt8) : Option UInt8 :=
  if 0x30 ≤ b && b < 0x38 then some (b - 0x30) else none

/-- The bytes up to the closing quote; nothing may follow it. -/
def unquoteRest? : Bytes → Option Bytes
  | [] => none
  | [b] => if b = quoteMark then some [] else none
  | b :: c :: rest =>
      if b = quoteMark then none
      else if b ≠ escape then (unquoteRest? (c :: rest)).map (b :: ·)
      else
        match marks.find? fun entry => entry.2 == c with
        | some (byte, _) => (unquoteRest? rest).map (byte :: ·)
        | none =>
            match rest with
            | d :: e :: rest =>
                match octal? c, octal? d, octal? e with
                | some high, some middle, some low =>
                    (unquoteRest? rest).map ((high * 64 + middle * 8 + low) :: ·)
                | _, _, _ => none
            | _ => none

/-- The path of its written form. -/
def unquote? (text : Bytes) : Option Bytes :=
  match text with
  | 0x22 :: rest => unquoteRest? rest
  | _ => some text

end TokenBlame.Git.QuotedPath
