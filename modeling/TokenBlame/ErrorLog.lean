/-
# TokenBlame.ErrorLog -- the record of commits that could not be replayed

The log is a text with one line for each commit: its id and its parents.  It is only
ever appended to.  A log that is not there yet is created empty when it is opened; a
directory in its place cannot be opened.
-/
import TokenBlame.SourceCommit
import TokenBlame.Error

set_option autoImplicit false

namespace TokenBlame

/-- What stands in the place of the log. -/
inductive ErrorLog where
  /-- There is no log yet. -/
  | absent
  /-- The log with its text. -/
  | text (content : String)
  /-- Something that cannot be opened, and why. -/
  | blocked (reason : Error)
  deriving DecidableEq, Repr

namespace ErrorLog

/-- The text of the log, if there is one. -/
def content? : ErrorLog → Option String
  | .text content => some content
  | _ => none

/-- Open the log, creating it if need be. -/
def start : ErrorLog → Except Error ErrorLog
  | .absent => .ok (.text "")
  | .text content => .ok (.text content)
  | .blocked reason => .error reason

/-- The line of a commit. -/
def line (commit : SourceCommit) : String :=
  commit.id ++ " - " ++ " ".intercalate commit.parents ++ "\n"

/-- Append the line of a commit to an open log. -/
def record (log : ErrorLog) (commit : SourceCommit) : ErrorLog :=
  match log with
  | .text content => .text (content ++ line commit)
  | other => other

end ErrorLog

end TokenBlame
