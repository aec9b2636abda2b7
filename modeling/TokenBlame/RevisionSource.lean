/-
# TokenBlame.RevisionSource -- the source repository as its readers see it

Three questions are asked of the source repository: which commits lie in a range,
what is known of a commit, and what a path holds at a commit.  Everything that replays
or shows source commits works with any answers to them.
-/
import TokenBlame.Error
import TokenBlame.SourceCommit
import TokenBlame.Text.Utf8

set_option autoImplicit false

namespace TokenBlame

/-- Where a range of commits begins. -/
inductive RangeStart where
  /-- With the first commit of the history. -/
  | root
  /-- With a commit. -/
  | including (revision : String)
  /-- Behind a commit. -/
  | after (revision : String)
  deriving DecidableEq, Repr

/-- A range of commits up to an end, which belongs to it. -/
structure RevisionRange where
  start : RangeStart := .root
  stop : String := "HEAD"
  deriving DecidableEq, Repr

/-- What can be asked of the source repository. -/
structure RevisionSource where
  /-- The commits of a range, oldest first. -/
  list : RevisionRange → Except Error (List String)
  /-- What is known of a commit. -/
  metadata : String → Except Error SourceCommit
  /-- The content of a path at a commit; none if no file is there. -/
  read : (path id : String) → Except Error (Option Bytes)

end TokenBlame
