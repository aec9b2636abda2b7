/-
# TokenBlame.Checkout.Plan -- what has to change in a working tree

A checkout brings a working tree to the entries of a snapshot.  What has to change is
found in one pass over two lists, both in the order of whole paths as byte strings: the
entries, and what stands in the working tree.  There a directory counts with a slash
behind its name, except that one which the index has as a submodule counts as that.

Each entry is compared with the first item that does not come before it.  What comes
before belongs to no entry and is removed if the index has it.  So an item that
stands in the way of an entry is seen only if no other path comes between the two.
-/
import TokenBlame.Disk.Basic
import TokenBlame.Git.Snapshot

set_option autoImplicit false

namespace TokenBlame.Checkout

open Git

/-! ## The working tree -/

/-- What stands in a working tree as a checkout sees it. -/
inductive Item where
  | directory (path : TreePath)
  | submodule (path : TreePath)
  | file (path : TreePath) (content : Bytes) (executable : Bool)
  | link (path : TreePath) (target : Bytes)
  deriving DecidableEq, Repr

namespace Item

/-- Where an item stands. -/
def path : Item → TreePath
  | directory path => path
  | submodule path => path
  | file path .. => path
  | link path _ => path

/-- Whether an item is a directory and no submodule. -/
def isDirectory : Item → Bool
  | directory _ => true
  | _ => false

/-- What decides the order of items. -/
def key : Item → Bytes
  | directory path => path.join ++ [TreePath.slash]
  | item => item.path.join

/-- An item as the index has it or would have it. -/
def ofNode (index : Snapshot) (path : TreePath) : Disk.Node → Item
  | .directory _ =>
      match index.get? path with
      | some (.submodule _) => submodule path
      | _ => directory path
  | .file content executable => file path content executable
  | .link target => link path target

/-- Whether an item is executable. -/
def isExecutable : Item → Bool
  | file _ _ executable => executable
  | _ => false

/-- Whether an item is what an entry asks for; a submodule always is. -/
def isAsIn : Item → Entry → Bool
  | submodule _, _ => true
  | file _ content executable, .file wanted mode => content == wanted && executable == mode
  | link _ target, .link wanted => target == wanted
  | _, _ => false

end Item

/-- Whether a checkout looks into the directory at a path: at the top, and where the
index or the snapshot has something inside; not where the index has a submodule, and
not where a repository keeps itself. -/
def isEntered (index snapshot : Snapshot) (path : TreePath) : Bool :=
  path.isEmpty ||
    path.getLast? != some TreePath.gitDirectory &&
      (match index.get? path with
        | some (.submodule _) => false
        | _ => true) &&
      (snapshot.isDirectory path || index.isDirectory path)

/-- What a checkout sees in a working tree, in order. -/
def items (index snapshot : Snapshot) (tree : Disk.Node) : List Item :=
  let seen := (tree.beneath (isEntered index snapshot) []).filter fun entry =>
    entry.1.getLast? != some TreePath.gitDirectory
  let keyed := seen.map fun entry =>
    let item := Item.ofNode index entry.1 entry.2
    (item.key, item)
  (keyed.mergeSort fun a b => (compare a.1 b.1).isLE).map (·.2)

/-! ## The plan -/

/-- What is done about an entry. -/
structure Step where
  path : TreePath
  entry : Entry
  /-- Whether what stands there is removed first. -/
  remove : Bool := false
  /-- Whether the entry is written. -/
  write : Bool := true
  deriving DecidableEq, Repr

namespace Step

/-- What is done about an entry where nothing stands. -/
def fresh (path : TreePath) (entry : Entry) : Step := { path, entry }

/-- What is done about an entry where something else stands. -/
def replacing (path : TreePath) (entry : Entry) : Step := { path, entry, remove := true }

/-- What is done about an entry where a file, a link or a submodule stands.  Only a
file that keeps its permissions is written over. -/
def onto (path : TreePath) (entry : Entry) (item : Item) : Step :=
  if item.isAsIn entry then { path, entry, write := false }
  else
    match entry with
    | .file _ executable => { path, entry, remove := executable != item.isExecutable }
    | .link _ => replacing path entry
    | .submodule _ => { path, entry, remove := item.isExecutable }

end Step

/-- What has to be done to check out a snapshot. -/
structure Plan where
  steps : List Step := []
  /-- What the index has and the snapshot has not. -/
  removals : List TreePath := []
  deriving DecidableEq, Repr

/-- Whether an item stands where an entry needs a directory. -/
def blocks (item : Item) (path : TreePath) : Bool :=
  !item.isDirectory && TreePath.isInside item.path path

/-- Whether an item comes before an entry and has nothing to do with it. -/
def precedes (item : Item) (path : TreePath) : Bool :=
  compare item.key path.join == .lt && !blocks item path

/-- The paths of items that are removed, since no entry meets them. -/
def unmet (index : Snapshot) (items : List Item) : List TreePath :=
  (items.filter fun item => !item.isDirectory && index.contains item.path).map Item.path

/-- What is done about an entry at the items that do not come before it, and the items
that are left. -/
def meet (path : TreePath) (entry : Entry) : List Item → Step × List Item
  | [] => (.fresh path entry, [])
  | item :: rest =>
      if blocks item path then (.replacing path entry, rest)
      else if item.path = path then
        if item.isDirectory then (.replacing path entry, item :: rest)
        else (.onto path entry item, rest)
      else (.fresh path entry, item :: rest)

/-- The plan for entries and the items that were not met yet. -/
def planFrom (index : Snapshot) : List (TreePath × Entry) → List Item → Plan
  | [], items => { removals := unmet index items }
  | (path, entry) :: rest, items =>
      let passed := items.takeWhile fun item => precedes item path
      let (step, left) := meet path entry (items.drop passed.length)
      let later := planFrom index rest left
      { steps := step :: later.steps, removals := unmet index passed ++ later.removals }

/-- The plan that brings a working tree to a snapshot. -/
def plan (index snapshot : Snapshot) (tree : Disk.Node) : Plan :=
  planFrom index snapshot.inOrder (items index snapshot tree)

end TokenBlame.Checkout
