/-
# TokenBlame.Trailer -- the line that names the source commit

The message of every destination commit ends with a paragraph that names the commit
it was made from: a marker, a space and forty lower-case hexadecimal digits.
`source?` reads the leftmost such place of a message, wherever it stands.

At signs are left out of the description, so that nobody is notified who is only
mentioned in it.
-/
import TokenBlame.Text.Numeral

set_option autoImplicit false

namespace TokenBlame.Trailer

/-- What stands before the id. -/
def marker : String := "UltraBlame original commit:"

/-- The number of digits of an id. -/
def idLength : Nat := 40

/-- The trailer that names `source`. -/
def trailer (source : String) : String :=
  marker ++ " " ++ source

/-- A description without its at signs. -/
def quiet (description : String) : String :=
  String.ofList (description.toList.filter (· != '@'))

/-- The message of the destination commit made from `source`. -/
def message (description : String) (source : String) : String :=
  quiet description ++ "\n\n" ++ trailer source

/-- The id at the front of a text that begins with a trailer. -/
def here? (text : List Char) : Option (List Char) :=
  let lead := marker.toList ++ [' ']
  if lead.isPrefixOf text then
    let id := (text.drop lead.length).take idLength
    if id.length == idLength && id.all Numeral.isLowerHex then some id else none
  else none

/-- The id of the leftmost trailer. -/
def find? : List Char → Option (List Char)
  | [] => none
  | c :: rest =>
      match here? (c :: rest) with
      | some id => some id
      | none => find? rest

/-- The source commit that a message names. -/
def source? (message : String) : Option String :=
  (find? message.toList).map String.ofList

end TokenBlame.Trailer
