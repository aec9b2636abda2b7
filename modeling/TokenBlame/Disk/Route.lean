/-
# TokenBlame.Disk.Route -- where a path leads on disk

A path begins at the top or at a directory, and is walked name by name.  An empty name
and `.` lead nowhere, `..` leads to the directory above, and a link leads to where its
own path leads.  Everything on the way has to be a directory; at the end nothing need
stand.  No more than 40 links are followed.

`follow` is the place that names lead to.  `site` is the directory in which the last
name stands, which is then not followed.  `Route.fault?` tells of a path that is
refused as a whole.
-/
import TokenBlame.Disk.Basic
import TokenBlame.Error

set_option autoImplicit false

namespace TokenBlame.Disk

open Git

/-- The number of bytes that a name may have. -/
def maxName : Nat := 255

/-- The number of bytes that a path may have. -/
def maxPath : Nat := 4095

/-- The number of links that are followed on one way. -/
def maxLinks : Nat := 40

/-- The name that leads to the directory above. -/
def above : Name := Utf8.encode ".."

/-! ## Routes -/

/-- A path that is to be walked. -/
structure Route where
  /-- The directory where it begins. -/
  start : TreePath
  names : List Name
  /-- The text as a whole. -/
  text : Bytes

/-- The text of a place. -/
def text (place : TreePath) : Bytes :=
  place.flatMap fun name => TreePath.slash :: name

namespace Route

/-- A path that begins at the top if its text does so, and else at a directory. -/
def ofText (base : TreePath) (text : Bytes) : Route :=
  { start := if text.head? = some TreePath.slash then [] else base
    names := TreePath.split text, text }

/-- A path inside a directory. -/
def within (place : TreePath) (path : Bytes) : Route :=
  { start := place, names := TreePath.split path
    text := Disk.text place ++ TreePath.slash :: path }

/-- The directory that the last name of a path stands in. -/
def parent (route : Route) : Route :=
  let names := (TreePath.resolve route.names).dropLast
  { route with names, text := Disk.text route.start ++ TreePath.slash :: TreePath.join names }

/-- The place of a path where no link is on the way. -/
def place (route : Route) : TreePath :=
  (TreePath.resolve route.names).foldl
    (fun place name => if name = above then place.dropLast else place ++ [name]) route.start

/-- Why a path is refused before it is walked. -/
def fault? (route : Route) : Option Error :=
  if route.text.isEmpty then some .noSuchFile
  else if route.text.contains 0 then some .invalidName
  else if maxPath < route.text.length then some .nameTooLong
  else none

end Route

/-! ## Walking -/

/-- The directories on the way, the innermost first, with the names that they have; the
top is not among them. -/
abbrev Trail := List (Name × Node)

namespace Trail

/-- The place where a trail ends. -/
def place (trail : Trail) : TreePath :=
  (trail.map (·.1)).reverse

/-- The directory where a trail ends. -/
def node (disk : Disk) : Trail → Node
  | [] => disk
  | (_, node) :: _ => node

/-- The trail to a directory. -/
def leadingTo (disk : Disk) (place : TreePath) : Trail :=
  place.foldl (fun trail name =>
    match Table.lookup name (trail.node disk).entries with
    | some inner => (name, inner) :: trail
    | none => trail) []

end Trail

/-- Walk through names; `onLink` goes on from a directory behind a link. -/
def walkWith (disk : Disk) (onLink : Trail → List Name → Except Error TreePath)
    (trail : Trail) : List Name → Except Error TreePath
  | [] => .ok trail.place
  | name :: rest =>
      if !TreePath.isStep name then walkWith disk onLink trail rest
      else if name = above then walkWith disk onLink trail.tail rest
      else if maxName < name.length then .error .nameTooLong
      else
        match Table.lookup name (trail.node disk).entries with
        | some (.directory entries) =>
            walkWith disk onLink ((name, .directory entries) :: trail) rest
        | some (.file ..) =>
            if rest.isEmpty then .ok (trail.place ++ [name]) else .error .notDirectory
        | some (.link target) =>
            onLink (if target.head? = some TreePath.slash then [] else trail)
              (TreePath.split target ++ rest)
        | none => if rest.isEmpty then .ok (trail.place ++ [name]) else .error .noSuchFile

/-- Walk through names; the number tells how many ways may be gone, and so one more than
how many links may be followed. -/
def walk (disk : Disk) : Nat → Trail → List Name → Except Error TreePath
  | 0, _, _ => .error .tooManyLinks
  | ways + 1, trail, names => walkWith disk (walk disk ways) trail names

/-- The place that names lead to from a directory. -/
def follow (disk : Disk) (place : TreePath) (names : List Name) : Except Error TreePath :=
  walk disk (maxLinks + 1) (.leadingTo disk place) names

/-- The directory that names lead to. -/
def directoryAt (disk : Disk) (place : TreePath) (names : List Name) : Except Error TreePath :=
  follow disk place (names ++ [[]])

/-- What stands where a path leads. -/
def find (disk : Disk) (route : Route) : Except Error (TreePath × Node) :=
  match route.fault? with
  | some error => .error error
  | none => do
      let place ← follow disk route.start route.names
      match disk.at? place with
      | some node => return (place, node)
      | none => throw .noSuchFile

/-! ## The last name -/

/-- Where the last name of a path stands. -/
structure Site where
  directory : TreePath
  /-- The last name; it is empty where the path has none. -/
  name : Name
  /-- Whether a slash follows the name. -/
  slashed : Bool

namespace Site

/-- Whether the last name can be that of something in its directory. -/
def isPlain (site : Site) : Bool :=
  TreePath.isStep site.name && site.name != above

/-- The place of the last name. -/
def place (site : Site) : TreePath :=
  site.directory ++ [site.name]

end Site

/-- Where the last of some names stands; the name itself is not followed. -/
def site (disk : Disk) (place : TreePath) (names : List Name) : Except Error Site :=
  let behind := names.reverse.dropWhile List.isEmpty
  let name := behind.headD []
  match directoryAt disk place (behind.drop 1).reverse with
  | .error error => .error error
  | .ok directory =>
      if maxName < name.length then .error .nameTooLong
      else .ok ⟨directory, name, behind.length < names.length⟩

end TokenBlame.Disk
