/-
# TokenBlame.RelativePath -- paths that stay inside a directory

A path is a text of components between slashes.  It is safe to append to a directory
when it is not empty, does not begin with a slash and has no component `..`;
components `.` and repeated slashes do no harm.  `checked` refuses every other path
and leaves a safe one as it is.

`extension?` is what follows the last dot of the last component.
-/
import TokenBlame.Error
import TokenBlame.Text.Pieces

set_option autoImplicit false

namespace TokenBlame.RelativePath

/-- The components between the slashes, empty ones included. -/
def components (path : List Char) : List (List Char) :=
  Pieces.split '/' path

/-- Whether a path names something inside the directory it is appended to. -/
def isSafe (path : String) : Bool :=
  let chars := path.toList
  !chars.isEmpty && chars.head? != some '/' && !(components chars).contains ['.', '.']

/-- The path itself if it is safe. -/
def checked (path : String) : Except Error String :=
  if isSafe path then .ok path else .error (.invalidPath path)

/-- The last component, passing over empty ones and `.`; `..` is not a name. -/
def fileName? (path : List Char) : Option (List Char) :=
  match ((components path).filter fun c => !c.isEmpty && c != ['.']).getLast? with
  | some ['.', '.'] => none
  | name? => name?

/-- The characters behind the last dot of the last component, unless that dot is its
first character. -/
def extension? (path : List Char) : Option (List Char) :=
  (fileName? path).bind fun name =>
    let before := (name.reverse.dropWhile (· != '.')).drop 1
    if before.isEmpty then none else some (name.reverse.takeWhile (· != '.')).reverse

end TokenBlame.RelativePath
