/-
# TokenBlame.Json.Printer -- JSON documents as text

`compact` writes a document without any white space.  `pretty` puts every item and
every member on a line of its own, indented by two spaces for each level; an empty
array or object stays on one line.
-/
import TokenBlame.Json.Basic

set_option autoImplicit false

namespace TokenBlame.Json

/-- A spelling between quotation marks. -/
def quoted (spelling : List Char) : List Char :=
  '"' :: spelling ++ ['"']

/-! ## Without white space -/

mutual

/-- A document without white space. -/
def compactChars : Json → List Char
  | .null => ['n', 'u', 'l', 'l']
  | .bool true => ['t', 'r', 'u', 'e']
  | .bool false => ['f', 'a', 'l', 's', 'e']
  | .number spelling => spelling
  | .string spelling => quoted spelling
  | .array [] => ['[', ']']
  | .array (item :: items) => '[' :: compactChars item ++ compactItems items
  | .object [] => ['\x7b', '\x7d']
  | .object ((name, value) :: members) =>
      '\x7b' :: quoted name ++ ':' :: compactChars value ++ compactMembers members

/-- The items after the first one, and the closing bracket. -/
def compactItems : List Json → List Char
  | [] => [']']
  | item :: items => ',' :: compactChars item ++ compactItems items

/-- The members after the first one, and the closing brace. -/
def compactMembers : List (List Char × Json) → List Char
  | [] => ['\x7d']
  | (name, value) :: members =>
      ',' :: quoted name ++ ':' :: compactChars value ++ compactMembers members

end

/-- The text of a document without white space. -/
def compact (json : Json) : String :=
  String.ofList (compactChars json)

/-! ## One item on a line -/

/-- A new line at a level of nesting. -/
def newline (level : Nat) : List Char :=
  '\n' :: List.replicate (2 * level) ' '

mutual

/-- A document that stands at a level of nesting. -/
def prettyChars (level : Nat) : Json → List Char
  | .null => ['n', 'u', 'l', 'l']
  | .bool true => ['t', 'r', 'u', 'e']
  | .bool false => ['f', 'a', 'l', 's', 'e']
  | .number spelling => spelling
  | .string spelling => quoted spelling
  | .array [] => ['[', ']']
  | .array (item :: items) =>
      '[' :: newline (level + 1) ++ prettyChars (level + 1) item ++ prettyItems level items
  | .object [] => ['\x7b', '\x7d']
  | .object ((name, value) :: members) =>
      '\x7b' :: newline (level + 1) ++ quoted name ++ [':', ' '] ++
        prettyChars (level + 1) value ++ prettyMembers level members

/-- The items after the first one of an array at a level, and the closing bracket. -/
def prettyItems (level : Nat) : List Json → List Char
  | [] => newline level ++ [']']
  | item :: items =>
      ',' :: newline (level + 1) ++ prettyChars (level + 1) item ++ prettyItems level items

/-- The members after the first one of an object at a level, and the closing brace. -/
def prettyMembers (level : Nat) : List (List Char × Json) → List Char
  | [] => newline level ++ ['\x7d']
  | (name, value) :: members =>
      ',' :: newline (level + 1) ++ quoted name ++ [':', ' '] ++ prettyChars (level + 1) value ++
        prettyMembers level members

end

/-- The text of a document with one item on a line. -/
def pretty (json : Json) : String :=
  String.ofList (prettyChars 0 json)

end TokenBlame.Json
