/-
# TokenBlame.Git.Directory -- a repository's own directory on disk

A repository keeps itself in a directory: `.git` at the top of its working tree, or the
directory itself where there is no working tree.  `create` makes the files that a new
repository has there, and `isRepository` tells such a directory by those that none
is without.

The files of the branches say what HEAD and the branches name: `recordBranches` writes
them and `readBranches` reads them, where something else has changed them.  A file that
makes no sense leaves its branch damaged.  Objects and the index are not read from here.
-/
import TokenBlame.Disk.Change
import TokenBlame.Git.Repository
import TokenBlame.Text.Blank

set_option autoImplicit false

namespace TokenBlame.Git.Directory

open Disk

/-- The files and the directories of a new repository. -/
def skeleton (bare : Bool) : List (String × Node) :=
  let file := fun (text : String) => Node.file (Utf8.encode text) false
  [ ("HEAD", file "ref: refs/heads/master\n"),
    ("config", file ("[core]\n\tbare = " ++ (if bare then "true" else "false") ++
      "\n\trepositoryformatversion = 0\n\tfilemode = true\n" ++
      (if bare then "" else "\tlogallrefupdates = true\n"))),
    ("description",
      file "Unnamed repository; edit this file 'description' to name the repository.\n"),
    ("hooks/README.sample", file ("#!/bin/sh\n#\n# Place appropriately named executable hook " ++
      "scripts into this directory\n# to intercept various actions that git takes.  See " ++
      "\x60git help hooks\x60 for\n# more information.\n")),
    ("info/exclude", file ("# File patterns to ignore; see \x60git help ignore\x60 for more " ++
      "information.\n# Lines that start with '#' are comments.\n")),
    ("objects/info", .vacant), ("objects/pack", .vacant),
    ("refs/heads", .vacant), ("refs/tags", .vacant) ]

/-- Make the directory of a new repository at a place. -/
def create (disk : Disk) (home : TreePath) (bare : Bool) : Disk :=
  (skeleton bare).foldl (fun disk entry => disk.put (home ++ TreePath.ofString entry.1) entry.2)
    disk

/-- Whether the directory at a place is that of a repository. -/
def isRepository (disk : Disk) (home : TreePath) : Bool :=
  let stands := fun (name : String) (directory : Bool) =>
    match follow disk home (TreePath.ofString name) with
    | .ok place => (disk.at? place).any fun node => node.isDirectory == directory
    | .error _ => false
  stands "HEAD" false && stands "objects" true && stands "refs" true

/-! ## Branches -/

/-- What a file says of the branch that it names. -/
def branchLead : Bytes := Utf8.encode "ref: refs/heads/"

/-- The file of a branch; HEAD itself is the one without a name. -/
def branchFile (branch : String) : TreePath :=
  TreePath.ofString (if branch.isEmpty then "HEAD" else "refs/heads/" ++ branch)

/-- The files that are written for a branch: the commit that it names and, where there
is a working tree, the log of its changes. -/
def branchFiles (bare : Bool) (branch : String) (id : ObjectId) : List (TreePath × Bytes) :=
  (branchFile branch, Utf8.encode (id.hex ++ "\n")) ::
    if bare then []
    else [(TreePath.ofString "logs/HEAD", []), (TreePath.ofString "logs" ++ branchFile branch, [])]

/-- Write down which commits the branches name. -/
def recordBranches (disk : Disk) (home : TreePath) (bare : Bool) (repository : Repository) : Disk :=
  (repository.branches.entries.flatMap fun entry => branchFiles bare entry.1 entry.2).foldl
    (fun disk file => disk.fill (home ++ file.1) file.2) disk

/-- The commit that a file names: forty digits, and behind them nothing or white space. -/
def commitIn? (content : Bytes) : Option ObjectId :=
  if ((content.drop 40).take 1).all Blank.isBlankByte then
    (Utf8.decode? (content.take 40)).bind ObjectId.parse?
  else none

/-- The branches that have a file, with the commits that they name, if that can be read. -/
def branchesOn (disk : Disk) (home : TreePath) : List (String × Option ObjectId) :=
  let directory := (disk.at? (home ++ TreePath.ofString "refs/heads")).getD .vacant
  (directory.beneath (fun _ => true) []).filterMap fun entry =>
    match entry.2 with
    | .file content _ => some (entry.1.shown, commitIn? content)
    | _ => none

/-- Whether a name may be that of a branch. -/
def isBranchName (name : Bytes) : Bool :=
  let marks := Utf8.encode "~^:?*[\\\x7f"
  let lacks := fun (text : String) => (Pieces.splitAtFirst (Utf8.encode text) name).isNone
  let ends := fun (text : String) (part : Bytes) => (Utf8.encode text).isSuffixOf part
  name.all (fun b => 0x20 < b && !marks.contains b) && lacks ".." && lacks "@\x7b" &&
    !ends "." name && (TreePath.split name).all fun part =>
      !part.isEmpty && !(Utf8.encode ".").isPrefixOf part && !ends ".lock" part

/-- What HEAD's file names: a branch, or a commit if it names one. -/
def headOn (content : Bytes) : String × List (String × Option ObjectId) :=
  let name := ((content.drop branchLead.length).reverse.dropWhile Blank.isBlankByte).reverse
  match branchLead.isPrefixOf content && isBranchName name, Utf8.decode? name with
  | true, some name => (name, [])
  | _, _ => ("", [("", commitIn? content)])

/-- The repository with its branches as the files have them.  Without HEAD's file, HEAD
names nothing. -/
def readBranches (disk : Disk) (home : TreePath) (repository : Repository) : Repository :=
  let (head, own) := match disk.at? (home ++ branchFile "") with
    | some (.file content _) => headOn content
    | _ => ("", [])
  let found := own ++ branchesOn disk home
  { repository with
    head
    branches := .ofList (found.filterMap fun entry => entry.2.map fun id => (entry.1, id))
    damaged := (found.filter fun entry => entry.2.isNone).map (·.1) }

/-! ## The index -/

/-- The file of the index. -/
def indexFile : TreePath := TreePath.ofString "index"

/-- Write down that there is an index. -/
def recordIndex (disk : Disk) (home : TreePath) : Disk :=
  disk.fill (home ++ indexFile) []

/-- Whether there is an index. -/
def hasIndex (disk : Disk) (home : TreePath) : Bool :=
  (disk.at? (home ++ indexFile)).isSome

end TokenBlame.Git.Directory
