/-
# TokenBlame.Text.Quoted -- a text between quotation marks

An error message that shows a line of input shows it quoted: between double
quotation marks, with the backslash and the double quotation mark escaped, the four
characters that have a short escape written so, and every other character that is
not printable as its code point in braces.  A single quotation mark stands for
itself.
-/
import TokenBlame.Text.Numeral
import TokenBlame.Text.Printable

set_option autoImplicit false

namespace TokenBlame.Quoted

/-- One character inside the quotation marks. -/
def escape (c : Char) : List Char :=
  if c = '\x00' then ['\\', '0']
  else if c = '\t' then ['\\', 't']
  else if c = '\n' then ['\\', 'n']
  else if c = '\r' then ['\\', 'r']
  else if c = '"' then ['\\', '"']
  else if c = '\\' then ['\\', '\\']
  else if Printable.isPrintable c then [c]
  else ['\\', 'u', '\x7b'] ++ Nat.toDigits 16 c.toNat ++ ['\x7d']

/-- A text between quotation marks. -/
def quote (text : String) : String :=
  String.ofList ('"' :: text.toList.flatMap escape ++ ['"'])

end TokenBlame.Quoted
