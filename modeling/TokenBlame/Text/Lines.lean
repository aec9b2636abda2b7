/-
# TokenBlame.Text.Lines -- the two ways to cut a text into lines

* `cut` cuts at every newline and drops the last piece when the text ends with a
  newline.  It is how the lines of a blamed file are counted.
* `physical` also lets a carriage return before the newline go with it, and has no
  line at all for an empty text.  It is how a file is shown.

`segments` is `physical` with one more fact per line: whether a newline ended it.
-/
import TokenBlame.Text.Pieces

set_option autoImplicit false

namespace TokenBlame.Lines

/-- Cut at every newline; the empty piece behind a final newline is no line. -/
def cut (text : List Char) : List (List Char) :=
  let pieces := Pieces.split '\n' text
  if text.getLast? = some '\n' then pieces.dropLast else pieces

/-- Without one carriage return at the end. -/
def dropReturn (line : List Char) : List Char :=
  if line.getLast? = some '\r' then line.dropLast else line

/-- The lines of a piece of text, each with whether a newline ended it. -/
def segments (text : List Char) : List (List Char × Bool) :=
  let pieces := Pieces.split '\n' text
  let last := pieces.getLast?.getD []
  pieces.dropLast.map (fun piece => (dropReturn piece, true)) ++
    (if last.isEmpty then [] else [(last, false)])

/-- The lines of a text as they are shown. -/
def physical (text : List Char) : List (List Char) :=
  (segments text).map (·.1)

end TokenBlame.Lines
