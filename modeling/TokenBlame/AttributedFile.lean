/-
# TokenBlame.AttributedFile -- a source file whose text is attributed

The lines of a source file cut into fragments, each with the commit that its text
is attributed to, and a table of those commits.
-/
import TokenBlame.Json.Basic

set_option autoImplicit false

namespace TokenBlame

/-- A piece of a line. -/
structure Fragment where
  /-- The commit that the text is attributed to; none for text before the first token. -/
  commit : Option String
  text : String
  deriving DecidableEq, Repr

/-- One line of the source file. -/
structure AttributedLine where
  /-- Its number, from one. -/
  number : Nat
  fragments : List Fragment
  deriving DecidableEq, Repr

/-- The text of a line. -/
def AttributedLine.text (line : AttributedLine) : String :=
  String.join (line.fragments.map (·.text))

/-- A source commit that some fragment is attributed to. -/
structure AttributedCommit where
  source : String
  destination : String
  summary : Option String
  /-- The date of the source commit. -/
  date : Option String
  color : String
  deriving DecidableEq, Repr

/-- A source file with its attribution. -/
structure AttributedFile where
  path : String
  /-- The destination commit at which blame was computed. -/
  revision : String
  /-- The source commit of `revision`. -/
  sourceRevision : String
  lines : List AttributedLine
  /-- The commits in the order of their first fragments. -/
  commits : List AttributedCommit
  deriving DecidableEq, Repr

/-! ## JSON -/

/-- A fragment as a JSON object. -/
def Fragment.toJson (fragment : Fragment) : Json :=
  .ofMembers [("commit", .ofString? fragment.commit), ("text", .ofString fragment.text)]

/-- A line as a JSON object. -/
def AttributedLine.toJson (line : AttributedLine) : Json :=
  .ofMembers [("number", .ofNat line.number), ("fragments", .array (line.fragments.map (·.toJson)))]

/-- A commit as a JSON object. -/
def AttributedCommit.toJson (commit : AttributedCommit) : Json :=
  .ofMembers [
    ("original", .ofString commit.source),
    ("destination", .ofString commit.destination),
    ("summary", .ofString? commit.summary),
    ("date", .ofString? commit.date),
    ("color", .ofString commit.color)]

/-- An attributed file as a JSON object. -/
def AttributedFile.toJson (file : AttributedFile) : Json :=
  .ofMembers [
    ("path", .ofString file.path),
    ("revision", .ofString file.revision),
    ("original_revision", .ofString file.sourceRevision),
    ("lines", .array (file.lines.map (·.toJson))),
    ("commits", .array (file.commits.map (·.toJson)))]

end TokenBlame
