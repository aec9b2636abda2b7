/-
# TokenBlame.Git.Snapshot -- the files of a commit

A snapshot binds places to entries: files, links and submodules.  Directories are not
entries; they are there because something is inside them.  The index of a checkout is
a snapshot too.

`treeId` names the tree object of a snapshot.  Trees list what they hold in the order
of whole paths as byte strings, so the snapshot is put in that order once and cut up
level by level.  `objectIds` names everything that is stored with a snapshot.
-/
import TokenBlame.Git.ObjectId
import TokenBlame.Git.TreePath
import TokenBlame.Table

set_option autoImplicit false

namespace TokenBlame.Git

/-- What stands at a place of a tree. -/
inductive Entry where
  | file (content : Bytes) (executable : Bool)
  | link (target : Bytes)
  | submodule (commit : ObjectId)
  deriving DecidableEq, Repr

namespace Entry

/-- The mode that a tree gives for an entry. -/
def mode : Entry → String
  | file _ false => "100644"
  | file _ true => "100755"
  | link _ => "120000"
  | submodule _ => "160000"

/-- The bytes of a file, and the target of a link. -/
def content? : Entry → Option Bytes
  | file content _ => some content
  | link target => some target
  | submodule _ => none

/-- The name of the object that an entry refers to. -/
def id : Entry → ObjectId
  | file content _ => .ofObject "blob" content
  | link target => .ofObject "blob" target
  | submodule commit => commit

/-- Whether an entry is a file, executable or not. -/
def isFile : Entry → Bool
  | file .. => true
  | _ => false

/-- Whether two entries are of one type: both files, both links or both submodules. -/
def sameType : Entry → Entry → Bool
  | file .., file .. => true
  | link _, link _ => true
  | submodule _, submodule _ => true
  | _, _ => false

end Entry

/-- Places are in a total order: name by name, byte by byte. -/
instance : Std.TransOrd TreePath := List.instTransOrd

/-- The entries of a tree by their places. -/
abbrev Snapshot := Table TreePath Entry

namespace Snapshot

/-- Put an entry at a place.  A file on the way to it and the files inside it go. -/
def place (snapshot : Snapshot) (path : TreePath) (entry : Entry) : Snapshot :=
  (snapshot.filter fun p _ => !TreePath.isInside p path && !TreePath.isInside path p).insert
    path entry

/-- The entries in the order of their paths as byte strings. -/
def inOrder (snapshot : Snapshot) : List (TreePath × Entry) :=
  snapshot.entries.mergeSort fun a b => TreePath.bytewise a.1 b.1

/-- Whether something is inside the directory `path`. -/
def isDirectory (snapshot : Snapshot) (path : TreePath) : Bool :=
  snapshot.entries.any fun entry => TreePath.isInside path entry.1

/-! ## The tree object -/

/-- One line of a tree. -/
def treeLine (mode : String) (name : Name) (id : ObjectId) : Bytes :=
  Utf8.encode mode ++ 0x20 :: name ++ 0x00 :: id.raw

/-- What the entries inside the directory `name` are from there. -/
def within (name : Name) (entry : TreePath × Entry) : Option (TreePath × Entry) :=
  match entry with
  | (head :: rest, e) => if head = name then some (rest, e) else none
  | ([], _) => none

/-- The bytes of the tree of some entries whose paths have at most `depth` names. -/
def treeBody : Nat → List (TreePath × Entry) → Bytes
  | 0, _ => []
  | depth + 1, entries =>
      (entries.filterMap fun entry => entry.1.head?).eraseDups.flatMap fun name =>
        match entries.filterMap (within name) with
        | [([], entry)] => treeLine entry.mode name entry.id
        | inside => treeLine "40000" name (.ofObject "tree" (treeBody depth inside))

/-- The name of the tree object of a snapshot. -/
def treeId (snapshot : Snapshot) : ObjectId :=
  let depth := (snapshot.entries.map fun entry => entry.1.length).foldl max 0
  .ofObject "tree" (treeBody depth snapshot.inOrder)

/-! ## The objects of a snapshot -/

/-- The directories of a snapshot, the top among them. -/
def directories (snapshot : Snapshot) : List TreePath :=
  [] :: (snapshot.keys.flatMap TreePath.ancestors).eraseDups

/-- The names of the trees of a snapshot and of the contents in it. -/
def objectIds (snapshot : Snapshot) : List ObjectId :=
  let contents := snapshot.entries.filter fun entry => entry.2.content?.isSome
  let depth := (snapshot.entries.map fun entry => entry.1.length).foldl max 0
  let entries := snapshot.inOrder
  let trees := snapshot.directories.map fun directory =>
    let inside := (entries.filter fun entry => TreePath.isInside directory entry.1).map
      fun entry => (entry.1.drop directory.length, entry.2)
    ObjectId.ofObject "tree" (treeBody depth inside)
  trees ++ contents.map fun entry => entry.2.id

end Snapshot

end TokenBlame.Git
