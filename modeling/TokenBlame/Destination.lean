/-
# TokenBlame.Destination -- the repository that holds the replayed history

A destination is a repository on a disk, and two copies of its index: the one that is
saved and the one that changes are added to (`index`).  `reopen` goes back to the saved
one.

`stage` puts a list of changes into the working tree and the index, removals first.
It refuses the whole list if a path leads out of the working tree; otherwise, where it
fails, everything up to there stays, except that the index is only saved at the end.
`commitIndex` commits the index.  `resetToHead` brings working tree and both indexes back
to the last commit.
-/
import TokenBlame.Checkout.Apply
import TokenBlame.Git.Directory
import TokenBlame.Git.History
import TokenBlame.Git.Revision
import TokenBlame.Mapping
import TokenBlame.RelativePath

set_option autoImplicit false

namespace TokenBlame

open Git

/-- A change to the working tree. -/
inductive FileChange where
  | write (path : String) (content : Bytes)
  | remove (path : String)
  deriving DecidableEq, Repr

namespace FileChange

/-- The path that is changed. -/
def path : FileChange → String
  | write path _ => path
  | remove path => path

/-- Whether a change is a removal. -/
def isRemoval : FileChange → Bool
  | write .. => false
  | remove _ => true

/-- The same changes with the removals first. -/
def removalsFirst (changes : List FileChange) : List FileChange :=
  changes.filter isRemoval ++ changes.filter fun change => !change.isRemoval

/-- The first path that leads out of the working tree, as an error. -/
def checkAll : List FileChange → Except Error Unit
  | [] => .ok ()
  | change :: rest =>
      match RelativePath.checked change.path with
      | .error error => .error error
      | .ok _ => checkAll rest

end FileChange

/-- What a repository holds. -/
structure Holding where
  repository : Repository := {}
  /-- Whether there is no working tree. -/
  bare : Bool := false
  /-- The index that is saved. -/
  saved : Snapshot := ∅
  deriving DecidableEq

instance : Inhabited Holding := ⟨{}⟩

/-- A destination repository. -/
structure Destination extends Holding where
  /-- The index that changes are added to. -/
  index : Snapshot := ∅
  /-- The disk that the repository is on. -/
  disk : Disk
  /-- The place of the repository's own directory. -/
  home : TreePath

namespace Destination

/-- The destination that holds something at a place of a disk. -/
def on (holding : Holding) (disk : Disk) (home : TreePath) : Destination :=
  { holding with index := holding.saved, disk, home }

/-- Open the repository again: the saved index counts. -/
def reopen (destination : Destination) : Destination :=
  { destination with index := destination.saved }

/-- The top of the working tree. -/
def top (destination : Destination) : TreePath :=
  destination.home.dropLast

/-- The working tree with all that stands in it. -/
def files (destination : Destination) : Disk.Node :=
  (destination.disk.at? destination.top).getD .vacant

/-- Save the index. -/
def saveIndex (destination : Destination) : Destination :=
  { destination with
    saved := destination.index
    disk := Directory.recordIndex destination.disk destination.home }

/-- Let the repository be another one, and write down what its branches name. -/
def withRepository (destination : Destination) (repository : Repository) : Destination :=
  { destination with
    repository
    disk := Directory.recordBranches destination.disk destination.home destination.bare repository }

/-! ## Staging -/

/-- The way to a path in the working tree. -/
def route (destination : Destination) (path : String) : Disk.Route :=
  .within destination.top (Utf8.encode path)

/-- What an entry would be for the node at a path; links on the way are followed. -/
def entryAt? (destination : Destination) (path : TreePath) : Option Entry :=
  match Disk.site destination.disk destination.top path with
  | .error _ => none
  | .ok site =>
      match destination.disk.at? site.place with
      | some (.file content executable) => some (.file content executable)
      | some (.link target) => some (.link target)
      | _ => none

/-- Add what stands at a path of the working tree to the index.  Its content is stored
also where the path may not stand in a tree. -/
def addToIndex (destination : Destination) (path : TreePath) : Except Error Unit × Destination :=
  match destination.entryAt? path with
  | some entry =>
      let stored :=
        { destination with repository := destination.repository.storeContent entry }
      if TreePath.isValid path then
        (.ok (), { stored with index := stored.index.place path entry })
      else (.error (.git { text := "invalid path: '" ++ path.shown ++ "'" }), stored)
  | none => (.error (.git { text := "could not read '" ++ path.shown ++ "'" }), destination)

/-- Write a file, with the directories above it, and add it to the index. -/
def write (destination : Destination) (path : String) (content : Bytes) :
    Except Error Unit × Destination :=
  let route := destination.route path
  match Disk.makeDirectories destination.disk route.parent with
  | (.error error, disk) => (.error error, { destination with disk })
  | (.ok _, disk) =>
      match disk.write route content with
      | .error error => (.error error, { destination with disk })
      | .ok disk => addToIndex { destination with disk } (TreePath.ofString path)

/-- Remove a file, with the directories that this leaves empty, and take it out of the
index.  A file that is missing is no error. -/
def remove (destination : Destination) (path : String) : Except Error Unit × Destination :=
  let names := TreePath.ofString path
  let next := { destination with index := destination.index.erase names }
  match destination.disk.remove (destination.route path) with
  | .error error => if error = .noSuchFile then (.ok (), next) else (.error error, destination)
  | .ok disk =>
      let upwards := (TreePath.ancestors (TreePath.resolve names)).reverse
      (.ok (), { next with disk := disk.prune destination.top upwards })

/-- Read the branches again if a path leads into the repository's own directory. -/
def heed (destination : Destination) (path : String) : Destination :=
  if (TreePath.resolve (TreePath.ofString path)).head? = some TreePath.gitDirectory then
    { destination with
      repository := Directory.readBranches destination.disk destination.home
        destination.repository }
  else destination

/-- Make one change to the working tree and the index. -/
def apply (destination : Destination) (change : FileChange) : Except Error Unit × Destination :=
  let (result, next) := match change with
    | .write path content => destination.write path content
    | .remove path => destination.remove path
  (result, next.heed change.path)

/-- Make changes one after the other, up to the first that fails. -/
def applyAll (destination : Destination) : List FileChange → Except Error Unit × Destination
  | [] => (.ok (), destination)
  | change :: rest =>
      match destination.apply change with
      | (.error error, next) => (.error error, next)
      | (.ok (), next) => applyAll next rest

/-- Put changes into the working tree and the index, removals first. -/
def stage (destination : Destination) (changes : List FileChange) :
    Except Error Unit × Destination :=
  match FileChange.checkAll changes with
  | .error error => (.error error, destination)
  | .ok () =>
      if destination.bare then (.error (.internal "Destination repository is bare"), destination)
      else
        match destination.applyAll (FileChange.removalsFirst changes) with
        | (.error error, next) => (.error error, next)
        | (.ok (), next) => (.ok (), next.saveIndex)

/-! ## Committing -/

/-- Who is named as the maker of a commit. -/
structure Identity where
  name : String := "UltraBlame"
  email : String := "ultrablame@localhost"
  deriving DecidableEq, Repr

/-- The commit of the index on top of another one. -/
def nextCommit (destination : Destination) (parent : Option Commit) (message : String)
    (signature : Signature) : Commit :=
  .create destination.index (parent.toList.map (·.id)) signature signature (Utf8.encode message)

/-- Commit the index on top of HEAD.  The tree of the index is stored also where there
is no commit. -/
def commitIndex (destination : Destination) (message : String) (identity : Identity)
    (time offset : Int) : Except GitFault ObjectId × Destination :=
  let stored :=
    { destination with repository := destination.repository.storeTree destination.index }
  match Signature.clean identity.name identity.email time offset with
  | .error fault => (.error fault, stored)
  | .ok signature =>
      match destination.repository.tipCommit with
      | .error fault => (.error fault, stored)
      | .ok parent =>
          if message.toList.contains '\x00' then (.error .embeddedNul, stored)
          else
            let commit := destination.nextCommit parent message signature
            (.ok commit.id, destination.withRepository (destination.repository.advance commit))

/-! ## Going back -/

/-- Nothing can be put back where there is no working tree. -/
def noWorkingTree : GitFault :=
  { kind := .bareRepository
    area := .repository
    text := "cannot reset hard. This operation is not allowed against bare repositories." }

/-- Bring working tree and index to a snapshot. -/
def checkOut (destination : Destination) (snapshot : Snapshot) : Except Error Unit × Destination :=
  match Checkout.run destination.top ⟨destination.disk, destination.index⟩ snapshot with
  | (.error error, ⟨disk, index⟩) => (.error error, { destination with disk, index })
  | (.ok (), ⟨disk, _⟩) => (.ok (), saveIndex { destination with disk, index := snapshot })

/-- Bring working tree and index back to the last commit; without one, empty the index. -/
def resetToHead (destination : Destination) : Except Error Unit × Destination :=
  match destination.repository.tipCommit with
  | .error fault => (.error (.git fault), destination)
  | .ok none => (.ok (), saveIndex { destination with index := ∅ })
  | .ok (some commit) =>
      if destination.bare then (.error (.git noWorkingTree), destination)
      else destination.checkOut commit.tree

/-! ## Looking -/

/-- The commits behind HEAD with their messages, oldest first. -/
def messages (repository : Repository) : Except Error (List (String × String)) :=
  match repository.tipCommit with
  | .error fault => .error (.git fault)
  | .ok _ => .ok (repository.history.map fun commit => (commit.id.hex, commit.message))

/-- The mapping of the commits behind HEAD. -/
def mapping (repository : Repository) : Except Error Mapping :=
  match messages repository with
  | .error error => .error error
  | .ok messages => Mapping.ofHistory messages

/-- The source commit that HEAD names, if there is a commit at HEAD. -/
def headSource (destination : Destination) : Except Error (Option String) :=
  match destination.repository.tipCommit with
  | .error fault => .error (.git fault)
  | .ok none => .ok none
  | .ok (some commit) =>
      match Trailer.source? commit.message with
      | none => .error (.missingTrailer commit.id.hex)
      | some source => .ok (some source)

/-- The path in the working tree that a path from the top of the disk leads to: what is
left of it behind the top of the working tree.  Elsewhere it is the text of the path as
far as something is there. -/
def reading (destination : Destination) (path : TreePath) : Except String TreePath :=
  match path.normalize? with
  | none => .error path.shown
  | some names =>
      let lead := fun (count : Nat) => destination.disk.follow [] (names.take count)
      let counts := List.range (names.length + 1)
      match counts.find? fun count => (lead count).toOption == some destination.top with
      | some count => .ok (names.drop count)
      | none =>
          let isMissing := fun (count : Nat) =>
            !((lead count).toOption.bind fun place => destination.disk.at? place).isSome
          let shown := (counts.find? isMissing).getD names.length
          .error (TreePath.shown ([] :: names.take shown))

/-- The path of an entry as a text, a last name that is not valid UTF-8 being left out;
none if a directory on the way is not valid UTF-8. -/
def listedPath? (path : TreePath) : Option String := do
  let lead ← Utf8.decode? (path.dropLast.flatMap fun name => name ++ [TreePath.slash])
  return lead ++ (Utf8.decode? (path.getLast?.getD [])).getD ""

/-- The paths of the files and links at a revision. -/
def treePaths (repository : Repository) (revision : String) : Except Error (List String) := do
  let id ← repository.resolve revision
  let tree := ((repository.find? id).map (·.tree)).getD ∅
  let entries := tree.inOrder
  match entries.mapM fun entry => listedPath? entry.1 with
  | none => .error (.git { area := .callback, text := "git_tree_walk callback returned -1" })
  | some paths =>
      return (entries.zip paths).filterMap fun ((_, entry), path) =>
        if entry.content?.isSome then some path else none

end Destination

end TokenBlame
