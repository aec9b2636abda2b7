/-
# TokenBlame.Git.FileTrail -- a file in the parents of a commit

Going back from a commit, a file is looked for in each parent.  Two ways to do so are
told apart by what counts as a change of the file and by how a rename is found:

* `byName` looks for the file under its own name.  Where nothing of its type has that
  name it looks for a file that was deleted and had the same content, in favour of one
  with the same last name.
* `byTrail` remembers all names that were followed so far.  Where nothing that these
  names match was changed the file is the one of the same name.  Otherwise it goes
  through all changes, and each change of a name that was followed leads to the name
  before it; the last one counts.
-/
import TokenBlame.Git.Difference
import TokenBlame.Git.Pathspec
import TokenBlame.Git.Repository

set_option autoImplicit false

namespace TokenBlame.Git

/-- The file of a parent from which a file comes. -/
structure Ancestor where
  commit : ObjectId
  path : TreePath
  content : Bytes
  deriving DecidableEq, Repr

/-- A way to look for a file of a commit in its parents.  The files that were found are
in the order in which they were looked for; the names followed so far are updated. -/
abbrev Following :=
  Repository → List TreePath → Commit → TreePath → List Ancestor × List TreePath

namespace Snapshot

/-- The content of a file or a link; none for anything else. -/
def content? (snapshot : Snapshot) (path : TreePath) : Option Bytes :=
  (snapshot.get? path).bind Entry.content?

/-- The content of a file; empty if there is none. -/
def contentAt (snapshot : Snapshot) (path : TreePath) : Bytes :=
  (snapshot.content? path).getD []

end Snapshot

namespace Following

/-- The parents of a commit, in order. -/
def parentsOf (repository : Repository) (commit : Commit) : List Commit :=
  commit.parents.filterMap repository.find?

/-- The file of a name in a commit. -/
def ancestor? (commit : Commit) (path : TreePath) : Option Ancestor :=
  (commit.tree.content? path).map fun content => ⟨commit.id, path, content⟩

/-! ## By name -/

/-- Whether something of the type of a file has its name in a parent. -/
def keepsName (tree parent : Snapshot) (path : TreePath) : Bool :=
  match tree.get? path, parent.get? path with
  | some new, some old => old.sameType new
  | _, _ => false

/-- The names of files of a parent that were deleted and had the content of a file. -/
def oldNames (tree parent : Snapshot) (path : TreePath) : List TreePath :=
  match tree.get? path with
  | none => []
  | some entry =>
      if parent.contains path then []
      else
        (parent.inOrder.filter fun (name, old) =>
          old.sameType entry && old.content? == entry.content? && !tree.contains name).map (·.1)

/-- The name of a renamed file: one with the same last name, or else the first. -/
def oldName? (tree parent : Snapshot) (path : TreePath) : Option TreePath :=
  let names := oldNames tree parent path
  (names.find? fun name => name.getLast? == path.getLast?).or names.head?

/-- Look for a file under its own name in all parents, and then for renames in those that
do not have it. -/
def byName : Following := fun repository names commit path =>
  let (same, others) := (parentsOf repository commit).partition fun parent =>
    keepsName commit.tree parent.tree path
  let renamed := others.filterMap fun parent =>
    (oldName? commit.tree parent.tree path).bind (ancestor? parent)
  (same.filterMap (ancestor? · path) ++ renamed, names)

/-- The first parent that has a file under its own name. -/
def firstWithName? (repository : Repository) (commit : Commit) (path : TreePath) :
    Option ObjectId :=
  ((parentsOf repository commit).find? fun parent =>
    keepsName commit.tree parent.tree path).map (·.id)

/-! ## By trail -/

/-- Go through changes: each one of a name that was followed leads to the name before it,
which is followed from then on. -/
def trace (parent : Commit) (names : List TreePath) (deltas : List Delta) :
    Option Ancestor × List TreePath :=
  deltas.foldl (fun (found, names) delta =>
    let (old, new) := delta.sides
    if names.contains new then
      ((ancestor? parent old).or found, if names.contains old then names else old :: names)
    else (found, names)) (none, names)

/-- Look for a file in one parent. -/
def trailTo (names : List TreePath) (commit parent : Commit) (path : TreePath) :
    Option Ancestor × List TreePath :=
  let changed := (Snapshot.changes parent.tree commit.tree).filter fun change => !change.isKept
  if changed.any fun change => Pathspec.covers names change.path then
    trace parent names (Snapshot.deltasOfRenames parent.tree commit.tree)
  else (ancestor? parent path, names)

/-- Look for a file in one parent after the other, up to one that has its content. -/
def trail (commit : Commit) (path : TreePath) :
    List Commit → List TreePath → List Ancestor × List TreePath
  | [], names => ([], names)
  | parent :: parents, names =>
      match trailTo names commit parent path with
      | (none, names) => trail commit path parents names
      | (some file, names) =>
          if file.content = commit.tree.contentAt path then ([file], names)
          else
            let (files, names) := trail commit path parents names
            (file :: files, names)

/-- Look for a file along the names that were followed. -/
def byTrail : Following := fun repository names commit path =>
  trail commit path (parentsOf repository commit) names

end Following

end TokenBlame.Git
