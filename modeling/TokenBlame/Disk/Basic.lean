/-
# TokenBlame.Disk.Basic -- directories, files and links

A disk is a tree of nodes.  A directory holds nodes by their names, in the order of the
names, and a link holds the path that it leads to.

A place is told from the top by the names on the way, and no link is followed here.
`at?` is what stands at a place, `put` lets something stand there and makes the
directories on the way, and `erase` takes away what stands there.  `beneath` lists what
stands inside a directory.
-/
import TokenBlame.Git.TreePath
import TokenBlame.Table

set_option autoImplicit false

namespace TokenBlame.Disk

open Git

/-- What stands at a place on disk. -/
inductive Node where
  | directory (entries : List (Name × Node))
  | file (content : Bytes) (executable : Bool)
  | link (target : Bytes)

namespace Node

/-- A directory in which nothing is. -/
def vacant : Node := directory []

instance : Inhabited Node := ⟨vacant⟩

/-- What is in a directory; nothing is in a file or a link. -/
def entries : Node → List (Name × Node)
  | directory entries => entries
  | _ => []

/-- Whether a node is a directory. -/
def isDirectory : Node → Bool
  | directory _ => true
  | _ => false

/-- What stands at a place beneath a node. -/
def at? (node : Node) : TreePath → Option Node
  | [] => some node
  | name :: rest => (Table.lookup name node.entries).bind fun inner => inner.at? rest

/-- Let something stand at a place.  Directories on the way are made; where a file or a
link is on the way, nothing changes. -/
def put : Node → TreePath → Node → Node
  | _, [], item => item
  | directory entries, name :: rest, item =>
      let inner := (Table.lookup name entries).getD vacant
      directory (Table.insertEntry name (inner.put rest item) entries)
  | other, _ :: _, _ => other

/-- Take away what stands at a place. -/
def erase : Node → TreePath → Node
  | directory entries, [name] => directory (entries.filter fun entry => entry.1 != name)
  | directory entries, name :: rest =>
      match Table.lookup name entries with
      | some inner => directory (Table.insertEntry name (inner.erase rest) entries)
      | none => directory entries
  | other, _ => other

mutual

/-- What stands inside the directory at `place`, each directory before what is in it.
Only directories are looked into of which `opens` holds. -/
def beneath (opens : TreePath → Bool) (place : TreePath) : Node → List (TreePath × Node)
  | directory entries => if opens place then beneathAll opens place entries else []
  | file .. => []
  | link _ => []

/-- The entries of the directory at `place` with what stands inside them. -/
def beneathAll (opens : TreePath → Bool) (place : TreePath) :
    List (Name × Node) → List (TreePath × Node)
  | [] => []
  | (name, node) :: rest =>
      (place ++ [name], node) ::
        (beneath opens (place ++ [name]) node ++ beneathAll opens place rest)

end

end Node

/-! ## What stands where -/

namespace Node

@[simp] theorem at?_nil (node : Node) : node.at? [] = some node := rfl

theorem at?_cons (node : Node) (name : Name) (rest : TreePath) :
    node.at? (name :: rest) =
      (Table.lookup name node.entries).bind fun inner => inner.at? rest := rfl

/-- A place beneath a place is looked for from there. -/
theorem at?_append (node : Node) (place rest : TreePath) :
    node.at? (place ++ rest) = (node.at? place).bind fun inner => inner.at? rest := by
  induction place generalizing node with
  | nil => rfl
  | cons name place ih =>
    rw [List.cons_append, at?_cons, at?_cons]
    cases Table.lookup name node.entries with
    | none => rfl
    | some inner => exact ih inner

/-- Nothing stands beneath a file or a link. -/
theorem at?_cons_eq_none {node : Node} (leaf : node.isDirectory = false) (name : Name)
    (rest : TreePath) : node.at? (name :: rest) = none := by
  cases node with
  | directory entries => simp [isDirectory] at leaf
  | file content executable => rfl
  | link target => rfl

end Node

end TokenBlame.Disk

namespace TokenBlame

/-- A whole disk: the node at its top. -/
abbrev Disk := Disk.Node

end TokenBlame
