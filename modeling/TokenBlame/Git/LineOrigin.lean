/-
# TokenBlame.Git.LineOrigin -- where the lines of a file come from

The lines of a file at a commit are handed back from commit to commit.  A commit one
of whose parents has the same content, under the name that a `Following` finds there,
hands all its lines to that parent; otherwise it hands to each parent in turn the lines
they have in common and keeps the rest.  The group with the earliest line goes first.

A group of lines holds, for each line, its number in the blamed file and its number in
the file of the commit that the group has come to.
-/
import TokenBlame.Git.FileTrail
import TokenBlame.Text.CommonLines

set_option autoImplicit false

namespace TokenBlame.Git

/-- Lines of the blamed file that have come back to a commit. -/
structure LineGroup where
  commit : ObjectId
  /-- The name of the file there. -/
  path : TreePath
  /-- Numbers of lines in the blamed file, in order, and in the file there, from zero. -/
  lines : List (Nat × Nat)
  deriving DecidableEq, Repr

/-- The lines of a file with the newlines that end them. -/
def fileLines (content : Bytes) : List Bytes :=
  let pieces := Pieces.split 0x0A content
  pieces.dropLast.map (· ++ [0x0A]) ++ (pieces.getLast?.filter fun last => !last.isEmpty).toList

namespace LineGroup

/-! ## Handing lines back -/

/-- Hand the lines that a parent has in common with the file to that parent: the lines
it takes and those that are left. -/
def handOver (old new : Bytes) (lines : List (Nat × Nat)) :
    List (Nat × Nat) × List (Nat × Nat) :=
  let pairs := CommonLines.common (fileLines old) (fileLines new)
  let before? (line : Nat × Nat) : Option Nat :=
    (pairs.find? fun pair => pair.2 == line.2).map (·.1)
  (lines.filterMap fun line => (before? line).map fun number => (line.1, number),
    lines.filter fun line => (before? line).isNone)

/-- Hand lines to the files of parents in turn: the groups that were handed over and the
lines left. -/
def handToEach (content : Bytes) :
    List Ancestor → List (Nat × Nat) → List LineGroup × List (Nat × Nat)
  | [], lines => ([], lines)
  | file :: files, lines =>
      let (taken, rest) := handOver file.content content lines
      let (groups, rest) := handToEach content files rest
      (⟨file.commit, file.path, taken⟩ :: groups, rest)

/-- Whether a group has lines. -/
def isInhabited (group : LineGroup) : Bool := !group.lines.isEmpty

/-- Hand a group back from its commit to the files in its parents: what goes on to the
parents and what stays. -/
def handBack (content : Bytes) (files : List Ancestor) (group : LineGroup) :
    List LineGroup × List LineGroup :=
  match files.find? fun file => file.content == content with
  | some file => ([{ group with commit := file.commit, path := file.path }], [])
  | none =>
      if group.lines.isEmpty then ([], [group])
      else
        let (groups, rest) := handToEach content files group.lines
        (groups.filter isInhabited, [{ group with lines := rest }].filter isInhabited)

/-- Add the lines of a group to a group that has come to the same file. -/
def merge (group : LineGroup) : List LineGroup → List LineGroup
  | [] => [group]
  | other :: groups =>
      if other.commit = group.commit ∧ other.path = group.path then
        let lines := (other.lines ++ group.lines).mergeSort fun a b => a.1 ≤ b.1
        { other with lines } :: groups
      else other :: merge group groups

/-- The number of the first line of a group in the blamed file. -/
def firstLine (group : LineGroup) : Nat :=
  (group.lines.headD (0, 0)).1

/-- The group with the earliest line, and the others. -/
def earliest? (groups : List LineGroup) : Option (LineGroup × List LineGroup) :=
  match groups.mergeSort fun a b => firstLine a ≤ firstLine b with
  | [] => none
  | group :: others => some (group, others)

/-- Settle the groups that are on their way, at most a number of times handing one back.
`names` are the names that were followed so far. -/
def settle (follow : Following) (repository : Repository) :
    Nat → List TreePath → List LineGroup → List LineGroup
  | 0, _, _ => []
  | count + 1, names, groups =>
      match earliest? groups with
      | none => []
      | some (group, others) =>
          match repository.find? group.commit with
          | none => settle follow repository count names others
          | some commit =>
              let (files, names) := follow repository names commit group.path
              let (onward, here) := handBack (commit.tree.contentAt group.path) files group
              here ++ settle follow repository count names
                (onward.foldl (fun groups group => merge group groups) others)

end LineGroup

namespace Repository

/-- The lines of a file at a commit, in groups by where they come from; a file without
lines is one group without lines. -/
def lineOrigins (repository : Repository) (follow : Following) (commit : Commit)
    (path : TreePath) : List LineGroup :=
  let lines := fileLines (commit.tree.contentAt path)
  let steps := (lines.length + 1) * (repository.commits.length + 1)
  LineGroup.settle follow repository steps [path]
    [⟨commit.id, path, (List.range lines.length).map fun i => (i, i)⟩]

end Repository

end TokenBlame.Git
