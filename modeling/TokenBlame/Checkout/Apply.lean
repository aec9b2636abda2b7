/-
# TokenBlame.Checkout.Apply -- carrying out a checkout

First everything is removed that has to go: what stands where an entry is to be
written, and then what the index has and the snapshot has not.  Then files are written,
then links are made, and submodules, which are directories, come last.

Each removal and each entry that is written is told to the index at once.  Where the
checkout fails, disk and index stay as they are by then.
-/
import TokenBlame.Checkout.Plan
import TokenBlame.Disk.Change

set_option autoImplicit false

namespace TokenBlame.Checkout

open Git

/-- A disk and the index of a working tree on it. -/
structure Stand where
  disk : Disk
  index : Snapshot

/-! ## Failing -/

/-- What the system says of a failure, without its number. -/
def reason : Error → String
  | .io text => (text.splitOn " (os error").headD text
  | other => other.message

/-- The path of something in a working tree as a text. -/
def shownPath (top path : TreePath) : String :=
  Utf8.decodeLossy (Disk.text (top ++ path))

/-- Something could not be removed. -/
def notRemoved (top path : TreePath) (error : Error) : Error :=
  .git { area := .system, text := "could not remove '" ++ shownPath top path ++ "': " ++ reason error }

/-- A directory could not be made. -/
def notMade (top path : TreePath) : Error :=
  .git {
    kind := .alreadyExists
    area := .files
    text := "failed to make directory '" ++ shownPath top path ++ "': directory exists" }

/-- A file or a link could not be written. -/
def notWritten (top path : TreePath) (error : Error) : Error :=
  .git {
    area := .system
    text := "could not open '" ++ shownPath top path ++ "' for writing: " ++ reason error }

/-! ## Removing -/

/-- Remove the nearest file or link above a path, if there is one below `top`. -/
def unblock (disk : Disk) (top : TreePath) : List TreePath → Disk
  | [] => disk
  | names :: rest =>
      match Disk.site disk top names with
      | .error _ => unblock disk top rest
      | .ok site =>
          match disk.at? site.place with
          | some (.file ..) => disk.erase site.place
          | some (.link _) => disk.erase site.place
          | _ => unblock disk top rest

/-- Remove a path and the directories above it that this leaves empty; what is missing
or no directory is passed over. -/
def pruneUp (disk : Disk) (top : TreePath) : List TreePath → Except Error Disk
  | [] => .ok disk
  | names :: rest =>
      match Disk.removeDirectory disk top names with
      | .ok next => pruneUp next top rest
      | .error error =>
          if error == .noSuchFile || error == .notDirectory then pruneUp disk top rest
          else if error == .directoryNotEmpty then .ok disk
          else .error error

/-- Remove whatever stands at a path, and the directories that this leaves empty.  Where
a file or a link stands above the path, that is removed. -/
def clear (disk : Disk) (top path : TreePath) : Except Error Disk :=
  let upwards := (TreePath.ancestors path).reverse
  let cleared : Except Error Disk :=
    match Disk.site disk top path with
    | .ok site => .ok (disk.erase site.place)
    | .error error =>
        if error == .noSuchFile then .ok disk
        else if error == .notDirectory then .ok (unblock disk top upwards)
        else .error error
  match cleared with
  | .error error => .error error
  | .ok next => pruneUp next top (path :: upwards)

/-- Remove paths one after the other; those that are not `kept` leave the index. -/
def removeAll (top : TreePath) (stand : Stand) :
    List (TreePath × Bool) → Except Error Unit × Stand
  | [] => (.ok (), stand)
  | (path, kept) :: rest =>
      match clear stand.disk top path with
      | .error error => (.error (notRemoved top path error), stand)
      | .ok disk =>
          removeAll top { disk, index := if kept then stand.index else stand.index.erase path } rest

/-- The paths that a plan removes, and whether the index has them again soon. -/
def Plan.removed (plan : Plan) : List (TreePath × Bool) :=
  ((plan.steps.filter fun step => step.remove).map fun step =>
    (step.path, step.write && step.entry.content?.isSome)) ++
    plan.removals.map fun path => (path, false)

/-! ## Writing -/

/-- Make what an entry asks for; the directories are there. -/
def make (disk : Disk) (top path : TreePath) : Entry → Except Error Disk
  | .file content executable => disk.write (.within top path.join) content executable
  | .link target => disk.makeLink (.within top path.join) (target.takeWhile (· != 0))
  | .submodule _ => .ok disk

/-- Write an entry, with the directories above it; a submodule is a directory itself. -/
def writeEntry (top : TreePath) (stand : Stand) (path : TreePath) (entry : Entry) :
    Except Error Unit × Stand :=
  let directories := if entry.content?.isSome then path.dropLast else path
  match Disk.enterAll stand.disk top directories with
  | (.error _, disk) => (.error (notMade top directories), { stand with disk })
  | (.ok _, disk) =>
      match make disk top path entry with
      | .error error => (.error (notWritten top path error), { stand with disk })
      | .ok disk => (.ok (), { disk, index := stand.index.place path entry })

/-- Write entries one after the other. -/
def writeAll (top : TreePath) (stand : Stand) :
    List (TreePath × Entry) → Except Error Unit × Stand
  | [] => (.ok (), stand)
  | (path, entry) :: rest =>
      match writeEntry top stand path entry with
      | (.error error, next) => (.error error, next)
      | (.ok (), next) => writeAll top next rest

/-- The entries that a plan writes: files, then links, then submodules. -/
def Plan.written (plan : Plan) : List (TreePath × Entry) :=
  let entries := (plan.steps.filter fun step => step.write).map fun step => (step.path, step.entry)
  let having := fun (test : Entry → Bool) => entries.filter fun entry => test entry.2
  having Entry.isFile ++ having (fun entry => !entry.isFile && entry.content?.isSome) ++
    having fun entry => entry.content?.isNone

/-! ## The whole checkout -/

/-- Bring the working tree at `top` to a snapshot. -/
def run (top : TreePath) (stand : Stand) (snapshot : Snapshot) : Except Error Unit × Stand :=
  let plan := plan stand.index snapshot ((stand.disk.at? top).getD .vacant)
  match removeAll top stand plan.removed with
  | (.error error, next) => (.error error, next)
  | (.ok (), next) => writeAll top next plan.written

end TokenBlame.Checkout
