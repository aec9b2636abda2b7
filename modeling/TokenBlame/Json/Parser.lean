/-
# TokenBlame.Json.Parser -- reading JSON documents

The grammar of RFC 8259, strictly: no comma after the last item, no leading zero, no
raw control character in a string, nothing but white space after the document.  An
escape in a string must have the form of one; whether it spells a character is left
to `Json.text?`.

The readers return what they read and the rest of the text.  `value` counts down a
number that the length of the text bounds, since every document inside another one
takes at least one character.
-/
import TokenBlame.Json.Basic

set_option autoImplicit false

namespace TokenBlame.Json.Parser

/-- White space between the tokens of a document. -/
def isSpace (c : Char) : Bool :=
  c == ' ' || c == '\t' || c == '\n' || c == '\r'

/-- Pass over white space. -/
def skip (text : List Char) : List Char :=
  text.dropWhile isSpace

/-- A decimal digit. -/
def isDigit (c : Char) : Bool :=
  '0' ≤ c && c ≤ '9'

/-! ## Numbers -/

/-- A non-empty run of digits. -/
def digits (text : List Char) : Option (List Char × List Char) :=
  let run := text.takeWhile isDigit
  if run.isEmpty then none else some (run, text.dropWhile isDigit)

/-- The digits before the point: a zero alone, or a run that begins with another digit. -/
def whole : List Char → Option (List Char × List Char)
  | '0' :: rest =>
      match rest with
      | c :: _ => if isDigit c then none else some (['0'], rest)
      | [] => some (['0'], rest)
  | text => digits text

/-- A point and digits, if there is a point. -/
def fraction : List Char → Option (List Char × List Char)
  | '.' :: rest => (digits rest).map fun (run, rest') => ('.' :: run, rest')
  | text => some ([], text)

/-- The exponent, if there is one. -/
def exponent : List Char → Option (List Char × List Char)
  | c :: rest =>
      if c = 'e' ∨ c = 'E' then
        match rest with
        | sign :: rest' =>
            if sign = '+' ∨ sign = '-' then
              (digits rest').map fun (run, rest'') => (c :: sign :: run, rest'')
            else (digits rest).map fun (run, rest'') => (c :: run, rest'')
        | [] => none
      else some ([], c :: rest)
  | [] => some ([], [])

/-- A number without its sign. -/
def magnitude (text : List Char) : Option (List Char × List Char) := do
  let (w, text) ← whole text
  let (f, text) ← fraction text
  let (e, text) ← exponent text
  return (w ++ f ++ e, text)

/-- A number. -/
def number : List Char → Option (List Char × List Char)
  | '-' :: rest => (magnitude rest).map fun (run, rest') => ('-' :: run, rest')
  | text => magnitude text

/-! ## Strings -/

/-- The rest of a string behind its opening quotation mark, `found` holding what was
read, last first. -/
def stringFrom (found : List Char) : List Char → Option (List Char × List Char)
  | [] => none
  | '"' :: rest => some (found.reverse, rest)
  | '\\' :: 'u' :: a :: b :: c :: d :: rest =>
      if Numeral.isHex a && Numeral.isHex b && Numeral.isHex c && Numeral.isHex d then
        stringFrom (d :: c :: b :: a :: 'u' :: '\\' :: found) rest
      else none
  | '\\' :: c :: rest =>
      if (unescape? c).isSome then stringFrom (c :: '\\' :: found) rest else none
  | c :: rest => if c.toNat < 0x20 ∨ c = '\\' then none else stringFrom (c :: found) rest

/-- A string. -/
def string : List Char → Option (List Char × List Char)
  | '"' :: rest => stringFrom [] rest
  | _ => none

/-! ## Documents -/

/-- Pass over a word. -/
def word (spelling : List Char) (text : List Char) : Option (List Char) :=
  if spelling.isPrefixOf text then some (text.drop spelling.length) else none

mutual

/-- A document, white space before it allowed. -/
def value : Nat → List Char → Option (Json × List Char)
  | 0, _ => none
  | depth + 1, text =>
      match skip text with
      | '\x7b' :: rest =>
          match skip rest with
          | '\x7d' :: rest' => some (.object [], rest')
          | rest' => (members depth [] rest').map fun (found, rest'') => (.object found, rest'')
      | '[' :: rest =>
          match skip rest with
          | ']' :: rest' => some (.array [], rest')
          | rest' => (items depth [] rest').map fun (found, rest'') => (.array found, rest'')
      | '"' :: rest => (stringFrom [] rest).map fun (spelling, rest') => (.string spelling, rest')
      | 'n' :: rest => (word ['u', 'l', 'l'] rest).map fun rest' => (.null, rest')
      | 't' :: rest => (word ['r', 'u', 'e'] rest).map fun rest' => (.bool true, rest')
      | 'f' :: rest => (word ['a', 'l', 's', 'e'] rest).map fun rest' => (.bool false, rest')
      | rest => (number rest).map fun (spelling, rest') => (.number spelling, rest')

/-- The items of an array and its closing bracket, `found` holding those before, last
first. -/
def items : Nat → List Json → List Char → Option (List Json × List Char)
  | 0, _, _ => none
  | depth + 1, found, text =>
      match value depth text with
      | none => none
      | some (item, rest) =>
          match skip rest with
          | ',' :: rest' => items depth (item :: found) rest'
          | ']' :: rest' => some ((item :: found).reverse, rest')
          | _ => none

/-- The members of an object and its closing brace, `found` holding those before, last
first. -/
def members : Nat → List (List Char × Json) → List Char →
    Option (List (List Char × Json) × List Char)
  | 0, _, _ => none
  | depth + 1, found, text =>
      match string (skip text) with
      | none => none
      | some (name, rest) =>
          match skip rest with
          | ':' :: rest' =>
              match value depth rest' with
              | none => none
              | some (item, rest'') =>
                  match skip rest'' with
                  | ',' :: rest''' => members depth ((name, item) :: found) rest'''
                  | '\x7d' :: rest''' => some (((name, item) :: found).reverse, rest''')
                  | _ => none
          | _ => none

end

end Parser

/-- The document that a text spells. -/
def parse? (text : String) : Option Json :=
  match Parser.value (2 * text.toList.length + 2) text.toList with
  | some (json, rest) => if (Parser.skip rest).isEmpty then some json else none
  | none => none

end TokenBlame.Json
