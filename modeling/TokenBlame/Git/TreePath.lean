/-
# TokenBlame.Git.TreePath -- the places in a tree

A place is a list of names, one for each directory on the way and one for the file.
Names are byte strings.  As one byte string a path has slashes between its names.

`split` takes the names between the slashes as they are, so that a path that could
not stand in a tree keeps its faults (`isValid` tells).  `resolve` is the place a
path leads to in a file system, where empty names and `.` lead nowhere.
-/
import TokenBlame.Text.Utf8
import TokenBlame.Text.Pieces

set_option autoImplicit false

namespace TokenBlame.Git

/-- The name of a file or a directory. -/
abbrev Name := Bytes

/-- A place in a tree: names from the top. -/
abbrev TreePath := List Name

namespace TreePath

/-- The byte between two names. -/
def slash : UInt8 := 0x2F

/-- The names between the slashes of a path. -/
def split (path : Bytes) : TreePath :=
  Pieces.split slash path

/-- The path as one byte string. -/
def join (path : TreePath) : Bytes :=
  List.intercalate [slash] path

/-- The names between the slashes of a text. -/
def ofString (path : String) : TreePath :=
  split (Utf8.encode path)

/-- The path as text, malformed bytes shown as replacement characters. -/
def shown (path : TreePath) : String :=
  Utf8.decodeLossy path.join

/-- The directory that every repository keeps for itself. -/
def gitDirectory : Name := Utf8.encode ".git"

/-- A letter of ASCII in lower case. -/
def lowerByte (b : UInt8) : UInt8 :=
  if 0x41 ≤ b && b ≤ 0x5A then b + 0x20 else b

/-- Whether a name leads to the repository's own directory, on this system or on one
that passes over case, trailing dots and blanks, or what follows a colon or a
backslash, or that knows the directory by its short name. -/
def isReserved (name : Name) : Bool :=
  [gitDirectory, Utf8.encode "git~1"].any fun own =>
    own.isPrefixOf (name.map lowerByte) &&
      let rest := name.drop own.length
      rest.all (fun b => b == 0x20 || b == 0x2E) || rest.head? == some 0x3A || rest.head? == some 0x5C

/-- A name that may stand in a tree. -/
def isValidName (name : Name) : Bool :=
  !name.isEmpty && name != Utf8.encode "." && name != Utf8.encode ".." && !isReserved name

/-- A path that may stand in a tree. -/
def isValid (path : TreePath) : Bool :=
  path.all isValidName

/-- Whether a name leads anywhere in a file system. -/
def isStep (name : Name) : Bool :=
  !name.isEmpty && name != Utf8.encode "."

/-- The place that a path leads to in a file system. -/
def resolve (path : TreePath) : TreePath :=
  path.filter isStep

/-- A path without empty names and `.`, each `..` taking back the name before it; none
if there is no name before it. -/
def normalize? (path : TreePath) : Option TreePath :=
  (path.foldl (fun found name =>
    match found with
    | none => none
    | some found =>
        if !isStep name then some found
        else if name = Utf8.encode ".." then
          match found with
          | [] => none
          | _ :: rest => some rest
        else some (name :: found)) (some [])).map List.reverse

/-- Whether a path asks for a directory: it ends in a slash or in `.`. -/
def wantsDirectory (path : TreePath) : Bool :=
  match path.getLast? with
  | none => true
  | some name => !isStep name

/-- Whether `path` lies inside the directory `dir`. -/
def isInside (dir path : TreePath) : Bool :=
  dir.isPrefixOf path && dir.length < path.length

/-- The directories on the way to a path, the nearest one last. -/
def ancestors (path : TreePath) : List TreePath :=
  (List.range path.length).tail.map fun n => path.take n

/-- Order by the bytes of the whole path. -/
def bytewise (a b : TreePath) : Bool :=
  (compare a.join b.join).isLE

end TreePath

end TokenBlame.Git
