/-
# TokenBlame.Git.Source -- a repository as a source of commits

`Touched.ofDeltas` reads off what a commit touched: every path that was added, altered,
deleted or given another type, both sides of a rename, and the target of a copy.  A path that is not valid
UTF-8 is set aside, and with it the rename or copy that it is a side of; so either all
changes of a commit are told or something was set aside.

Listing leaves merges out.
-/
import TokenBlame.Git.Difference
import TokenBlame.Git.History
import TokenBlame.Git.Lookup
import TokenBlame.Git.Revision
import TokenBlame.RevisionSource

set_option autoImplicit false

namespace TokenBlame

/-- What a commit touched. -/
structure Touched where
  /-- Paths added, modified or removed. -/
  paths : List String := []
  /-- The path that a copied or renamed path comes from. -/
  copies : Table String String := ∅
  /-- Paths that are not valid UTF-8, as they would be shown. -/
  nonUtf8 : List String := []
  deriving DecidableEq

namespace Touched

/-- Set a path aside unless it is valid UTF-8. -/
def setAside (touched : Touched) (path : Git.TreePath) : Touched :=
  match Utf8.decode? path.join with
  | some _ => touched
  | none =>
      if touched.nonUtf8.contains path.shown then touched
      else { touched with nonUtf8 := touched.nonUtf8 ++ [path.shown] }

/-- Add one path. -/
def addPath (touched : Touched) (path : Git.TreePath) : Touched :=
  let touched := touched.setAside path
  { touched with paths := touched.paths ++ (Utf8.decode? path.join).toList }

/-- Add a path that comes from another one, and that one too if it is gone. -/
def addPair (touched : Touched) (old new : Git.TreePath) (gone : Bool) : Touched :=
  let touched := (touched.setAside old).setAside new
  match Utf8.decode? old.join, Utf8.decode? new.join with
  | some old, some new =>
      { touched with
        copies := touched.copies.insert new old
        paths := touched.paths ++ (if gone then [new, old] else [new]) }
  | _, _ => touched

/-- Add what a delta tells. -/
def add (touched : Touched) : Git.Delta → Touched
  | .unmodified _ => touched
  | .added path => touched.addPath path
  | .modified path => touched.addPath path
  | .deleted path => touched.addPath path
  | .retyped path => touched.addPath path
  | .renamed old new => touched.addPair old new true
  | .copied old new => touched.addPair old new false

/-- What a list of deltas tells. -/
def ofDeltas (deltas : List Git.Delta) : Touched :=
  deltas.foldl add {}

end Touched

namespace Git

/-- What is known of a commit, given what it touched. -/
def Commit.describe (commit : Commit) (touched : Touched) : SourceCommit :=
  { id := commit.id.hex
    parents := commit.parents.map (·.hex)
    description := String.ofList (Blank.trimEnd commit.message.toList)
    time := commit.committer.time
    offsetMinutes := commit.committer.offset
    touched := touched.paths
    copies := touched.copies
    nonUtf8Paths := touched.nonUtf8 }

namespace Repository

/-- The files of the first parent; none before the first commit. -/
def treeBefore (repository : Repository) (commit : Commit) : Snapshot :=
  ((commit.parents.head?.bind repository.find?).map (·.tree)).getD ∅

/-- The commits that a start leaves out, with all behind them. -/
def hidden (repository : Repository) : RangeStart → Except Error (List ObjectId)
  | .root => .ok []
  | .including revision => do
      let id ← repository.resolve revision
      return ((repository.find? id).map (·.parents)).getD []
  | .after revision => do return [← repository.resolve revision]

/-- The commits of a range without the merges, oldest first. -/
def list (repository : Repository) (range : RevisionRange) : Except Error (List String) := do
  let stop ← repository.resolve range.stop
  let hidden ← repository.hidden range.start
  return ((repository.listing stop hidden).filter fun commit => commit.parents.length ≤ 1).map
    (·.id.hex)

/-- What is known of a commit. -/
def metadata (repository : Repository) (id : String) : Except Error SourceCommit := do
  let commit ← repository.named id
  return commit.describe
    (Touched.ofDeltas (Snapshot.deltas (repository.treeBefore commit) commit.tree))

/-- The content of a file or a link at a commit. -/
def read (repository : Repository) (path id : String) : Except Error (Option Bytes) := do
  let commit ← repository.named id
  match commit.tree.find path with
  | .entry entry => return entry.content?
  | .directory => return none
  | .nothing => return none
  | .malformed fault => throw (.git fault)

/-- A repository as a source. -/
def source (repository : Repository) : RevisionSource :=
  { list := repository.list, metadata := repository.metadata, read := repository.read }

end Repository

end Git

end TokenBlame
