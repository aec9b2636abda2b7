/-
# TokenBlame.Git.Difference -- what changed between two snapshots

`Snapshot.changes` lists, in the order of their paths as byte strings, every path of
the older or the newer snapshot with what happened to it.  An entry that turned into
one of another type counts as deleted and then added; a difference may also tell it in one
delta (`retyped`), which those of this module do not.

`Snapshot.deltas` tells renames and copies apart from additions.  A file that was added
comes from a file of the older snapshot with the same content.  It takes the first one
that no earlier file took, and if none is left it shares the first one.  If what it
takes or shares was deleted it is a rename, and the deletion is then not listed.
Otherwise it is a copy, and a copy is always of the first file with the content.
-/
import TokenBlame.Git.Snapshot

set_option autoImplicit false

namespace TokenBlame.Git

/-- What happened to a path, or to a pair of paths. -/
inductive Delta where
  | unmodified (path : TreePath)
  | added (path : TreePath)
  | modified (path : TreePath)
  | deleted (path : TreePath)
  | retyped (path : TreePath)
  | renamed (old new : TreePath)
  | copied (old new : TreePath)
  deriving DecidableEq, Repr

namespace Delta

/-- The path that a renamed file had. -/
def oldName? : Delta → Option TreePath
  | renamed old _ => some old
  | _ => none

/-- The path of a file that came from another one. -/
def newName? : Delta → Option TreePath
  | renamed _ new => some new
  | copied _ new => some new
  | _ => none

/-- The paths of a delta in the older and in the newer snapshot. -/
def sides : Delta → TreePath × TreePath
  | unmodified path => (path, path)
  | added path => (path, path)
  | modified path => (path, path)
  | deleted path => (path, path)
  | retyped path => (path, path)
  | renamed old new => (old, new)
  | copied old new => (old, new)

end Delta

/-- What happened to one path, with the entries before and after. -/
inductive Change where
  | kept (path : TreePath) (entry : Entry)
  | altered (path : TreePath) (old new : Entry)
  | appeared (path : TreePath) (entry : Entry)
  | vanished (path : TreePath) (entry : Entry)
  deriving DecidableEq, Repr

namespace Change

/-- The changes of one path. -/
def ofPath (path : TreePath) : Option Entry → Option Entry → List Change
  | none, none => []
  | none, some new => [appeared path new]
  | some old, none => [vanished path old]
  | some old, some new =>
      if old = new then [kept path old]
      else if old.sameType new then [altered path old new]
      else [vanished path old, appeared path new]

/-- The content of the older file, if there was a file. -/
def oldFile? : Change → Option Bytes
  | kept _ (.file content _) => some content
  | altered _ (.file content _) _ => some content
  | vanished _ (.file content _) => some content
  | _ => none

/-- The content of a file that was added. -/
def newFile? : Change → Option Bytes
  | appeared _ (.file content _) => some content
  | _ => none

/-- The path of a change. -/
def path : Change → TreePath
  | kept path _ => path
  | altered path _ _ => path
  | appeared path _ => path
  | vanished path _ => path

/-- Whether a change is a deletion. -/
def isVanished : Change → Bool
  | vanished .. => true
  | _ => false

/-- Whether the path is as it was. -/
def isKept : Change → Bool
  | kept .. => true
  | _ => false

/-! ## Renames and copies -/

/-- An added file with the older files that it may come from. -/
structure Pairing where
  target : TreePath
  /-- The older files with its content. -/
  candidates : List Change
  /-- Those of them that no earlier file took; this one takes the first. -/
  free : List Change

/-- The older files with the content of an added file. -/
def sources (older : List Change) (content : Bytes) : List Change :=
  older.filter fun change => change.oldFile? == some content

/-- The added files among some changes with where they may come from, in their order.
`taken` are the older files that earlier ones took. -/
def pairings (older : List Change) : List Change → List Change → List Pairing
  | [], _ => []
  | target :: targets, taken =>
      match target.newFile? with
      | none => pairings older targets taken
      | some content =>
          let candidates := sources older content
          let free := candidates.filter fun source => !taken.contains source
          ⟨target.path, candidates, free⟩ :: pairings older targets (free.take 1 ++ taken)

/-- The rename of an added file to which one of the older files is left. -/
def Pairing.rename? (pairing : Pairing) : Option Delta :=
  pairing.free.head?.map fun source => .renamed source.path pairing.target

/-- The rename or the copy of an added file. -/
def Pairing.renameOrCopy? (pairing : Pairing) : Option Delta := do
  let first ← pairing.candidates.head?
  let source := pairing.free.headD first
  return if source.isVanished then .renamed source.path pairing.target
    else .copied first.path pairing.target

/-- The delta of a change among the renames and copies that were found; none for a
deletion that is one side of a rename. -/
def delta? (origins : List Delta) (change : Change) : Option Delta :=
  match change with
  | kept path _ => some (.unmodified path)
  | altered path _ _ => some (.modified path)
  | vanished path _ =>
      if origins.any fun origin => origin.oldName? == some path then none
      else some (.deleted path)
  | appeared path _ =>
      some ((origins.find? fun origin => origin.newName? == some path).getD (.added path))

end Change

namespace Snapshot

/-- The changes from one snapshot to another, ordered by path. -/
def changes (old new : Snapshot) : List Change :=
  let paths := old.keys ++ new.keys.filter fun path => !old.contains path
  (paths.mergeSort TreePath.bytewise).flatMap fun path =>
    Change.ofPath path (old.get? path) (new.get? path)

/-- The deltas from one snapshot to another, with renames and copies. -/
def deltas (old new : Snapshot) : List Delta :=
  let found := changes old new
  let origins := (Change.pairings found found []).filterMap Change.Pairing.renameOrCopy?
  found.filterMap (Change.delta? origins)

/-- The deltas from one snapshot to another without the files that are as they were, with
renames of deleted files only. -/
def deltasOfRenames (old new : Snapshot) : List Delta :=
  let found := (changes old new).filter fun change => !change.isKept
  let older := found.filter Change.isVanished
  let origins := (Change.pairings older found []).filterMap Change.Pairing.rename?
  found.filterMap (Change.delta? origins)

end Snapshot

end TokenBlame.Git
