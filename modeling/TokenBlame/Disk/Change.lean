/-
# TokenBlame.Disk.Change -- making and removing what stands on disk

Each change is told by a path, and an error says why it cannot be made.  Files are
written through links, and a file keeps its permissions when it is written again.
Nothing is removed through a link: the link itself is.

`makeDirectories` makes the directories on a way, and what it made stays when it fails
further on.  `prune` takes away directories from the innermost outwards as long as they
are empty.
-/
import TokenBlame.Disk.Route

set_option autoImplicit false

namespace TokenBlame.Disk

open Git

/-! ## Directories -/

/-- Go into a directory, making it if nothing is there.  `isLast` tells that no name
follows. -/
def enter (disk : Disk) (place : TreePath) (name : Name) (isLast : Bool) :
    Except Error (TreePath × Disk) :=
  if !TreePath.isStep name then .ok (place, disk)
  else if name = above then .ok (place.dropLast, disk)
  else if maxName < name.length then .error .nameTooLong
  else
    let here := place ++ [name]
    match disk.at? here with
    | some (.directory _) => .ok (here, disk)
    | some (.file ..) => .error (if isLast then .fileExists else .notDirectory)
    | some (.link _) =>
        match directoryAt disk place [name] with
        | .ok there => .ok (there, disk)
        | .error error => .error (if isLast || error == .noSuchFile then .fileExists else error)
    | none => .ok (here, disk.put here .vacant)

/-- Go into one directory after another. -/
def enterAll (disk : Disk) (place : TreePath) : List Name → Except Error TreePath × Disk
  | [] => (.ok place, disk)
  | name :: rest =>
      match enter disk place name (rest.all List.isEmpty) with
      | .error error => (.error error, disk)
      | .ok (here, next) => enterAll next here rest

/-- Whether the last name of a path is `.`. -/
def endsInDot (names : List Name) : Bool :=
  (names.reverse.dropWhile List.isEmpty).head? == some (Utf8.encode ".")

/-- Make the directories on a way.  The last of them is not made if only `.` asks for
it, but those above it are. -/
def makeDirectories (disk : Disk) (route : Route) : Except Error TreePath × Disk :=
  let look := fun (disk : Disk) => directoryAt disk route.start route.names
  match route.fault? with
  | some error => (.error error, disk)
  | none =>
      if !endsInDot route.names then enterAll disk route.start route.names
      else
        match look disk with
        | .ok place => (.ok place, disk)
        | .error error =>
            if error = .noSuchFile then
              match enterAll disk route.start route.parent.names with
              | (.error blocked, next) => (.error blocked, next)
              | (.ok _, next) => (look next, next)
            else (.error error, disk)

/-- Remove an empty directory. -/
def removeDirectory (disk : Disk) (place : TreePath) (names : List Name) : Except Error Disk := do
  let site ← site disk place names
  match disk.at? site.place with
  | some (.directory []) => return disk.erase site.place
  | some (.directory _) => throw .directoryNotEmpty
  | some _ => throw .notDirectory
  | none => throw .noSuchFile

/-- Remove directories one after the other, up to the first that cannot be removed. -/
def prune (disk : Disk) (place : TreePath) : List TreePath → Disk
  | [] => disk
  | names :: rest =>
      match removeDirectory disk place names with
      | .ok next => prune next place rest
      | .error _ => disk

/-! ## Files and links -/

/-- The place of a file that is to be written. -/
def fileAt (disk : Disk) (route : Route) : Except Error TreePath :=
  match route.fault? with
  | some error => .error error
  | none => do
      let site ← site disk route.start route.names
      if !site.isPlain || site.slashed then throw .isDirectory
      else
        let place ← follow disk site.directory [site.name]
        if (disk.at? place).any Node.isDirectory then throw .isDirectory else return place

/-- Let the file at a place have a content; a new file is executable or not. -/
def fill (disk : Disk) (place : TreePath) (content : Bytes) (executable : Bool := false) : Disk :=
  match disk.at? place with
  | some (.file _ kept) => disk.put place (.file content kept)
  | _ => disk.put place (.file content executable)

/-- Write a file. -/
def write (disk : Disk) (route : Route) (content : Bytes) (executable : Bool := false) :
    Except Error Disk :=
  (fileAt disk route).map fun place => fill disk place content executable

/-- Append to the file at a place, if one is there. -/
def append (disk : Disk) (place : TreePath) (content : Bytes) : Disk :=
  match disk.at? place with
  | some (.file before executable) => disk.put place (.file (before ++ content) executable)
  | _ => disk

/-- Remove a file or a link. -/
def remove (disk : Disk) (route : Route) : Except Error Disk :=
  match route.fault? with
  | some error => .error error
  | none => do
      let site ← site disk route.start route.names
      if !site.isPlain then throw .isDirectory
      else
        match disk.at? site.place with
        | some (.directory _) => throw .isDirectory
        | some _ => if site.slashed then throw .notDirectory else return disk.erase site.place
        | none => throw .noSuchFile

/-- Make a link to a target. -/
def makeLink (disk : Disk) (route : Route) (target : Bytes) : Except Error Disk :=
  match route.fault? with
  | some error => .error error
  | none =>
      if target.isEmpty then .error .noSuchFile
      else if maxPath < target.length then .error .nameTooLong
      else do
        let site ← site disk route.start route.names
        if !site.isPlain || (disk.at? site.place).isSome then throw .fileExists
        else if site.slashed then throw .noSuchFile
        else return disk.put site.place (.link target)

end TokenBlame.Disk
