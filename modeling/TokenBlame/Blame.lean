/-
# TokenBlame.Blame -- who last changed each line

The blame of a file attributes every line of it to a commit and to the line's number
there, and describes every commit that it mentions.  A description may be incomplete:
a field that was not told is absent.

`ofHunks` makes a blame from runs of lines (`Hunk`) and the lines of the file.
-/
import TokenBlame.Table

set_option autoImplicit false

namespace TokenBlame

/-- The attribution of one line. -/
structure BlameLine where
  /-- The commit that last changed the line. -/
  commit : String
  /-- The line itself. -/
  context : String
  /-- Its number, from one, in that commit. -/
  numberThen : Nat
  /-- Its number, from one, in the blamed file. -/
  numberNow : Nat
  /-- Whether the line was changed since; never told. -/
  modified : Bool := false
  deriving DecidableEq, Repr

/-- What is told of a commit. -/
structure BlameCommit where
  id : String
  author : Option String := none
  authorMail : Option String := none
  authorTime : Option Int := none
  authorZone : Option String := none
  committer : Option String := none
  committerMail : Option String := none
  committerTime : Option Int := none
  committerZone : Option String := none
  summary : Option String := none
  /-- Whether the history ends at this commit. -/
  boundary : Bool := false
  /-- The commit in which the search went on. -/
  previous : Option String := none
  /-- The name of the file in this commit. -/
  filename : Option String := none
  deriving DecidableEq, Repr

/-- The blame of a file. -/
structure Blame where
  lines : List BlameLine := []
  /-- The commits by their ids. -/
  commits : Table String BlameCommit := ∅
  deriving DecidableEq

namespace Blame

/-- A run of lines that come from one commit, where they were a run as well. -/
structure Hunk where
  /-- What is told of the commit. -/
  record : BlameCommit
  /-- The number of the first line in the blamed file. -/
  startNow : Nat
  /-- The number of the first line in the commit. -/
  startThen : Nat
  /-- The number of lines. -/
  count : Nat
  deriving DecidableEq, Repr

/-- The lines of a hunk, out of the lines of the file. -/
def Hunk.lines (file : List String) (hunk : Hunk) : List BlameLine :=
  (List.range hunk.count).map fun i =>
    { commit := hunk.record.id
      context := file.getD (hunk.startNow + i - 1) ""
      numberThen := hunk.startThen + i
      numberNow := hunk.startNow + i }

/-- Remember a commit unless something is told of it already. -/
def remember (commits : Table String BlameCommit) (record : BlameCommit) :
    Table String BlameCommit :=
  if commits.contains record.id then commits else commits.insert record.id record

/-- The blame of a file from hunks in any order: its lines are put in the order of the
file, and of each commit the first hunk tells. -/
def ofHunks (file : List String) (hunks : List Hunk) : Blame :=
  { lines := (hunks.flatMap (Hunk.lines file)).mergeSort fun a b => a.numberNow ≤ b.numberNow
    commits := hunks.foldl (fun commits hunk => remember commits hunk.record) ∅ }

end Blame

end TokenBlame
