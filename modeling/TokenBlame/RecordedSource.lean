/-
# TokenBlame.RecordedSource -- a linear source held in memory

A recorded source is a list of commits, oldest first, each with the files that can be
read at it.  HEAD is the last one.  It refuses what a repository would refuse: ids that
it does not have, and commits and files that were marked as unreadable.
-/
import TokenBlame.RevisionSource

set_option autoImplicit false

namespace TokenBlame

/-- What a path holds in a record. -/
inductive RecordedFile where
  | content (bytes : Bytes)
  | unreadable
  deriving DecidableEq, Repr

/-- A commit with its files. -/
structure RecordedCommit where
  commit : SourceCommit
  files : Table String RecordedFile
  /-- Whether nothing can be told of the commit. -/
  broken : Bool := false

/-- Commits, oldest first. -/
abbrev RecordedSource := List RecordedCommit

namespace RecordedSource

/-- The place of the first commit of an id. -/
def indexOf (record : RecordedSource) (id : String) : Except Error Nat :=
  match record.findIdx? fun entry => entry.commit.id == id with
  | some i => .ok i
  | none => .error (.commitNotFound id)

/-- The place behind the last commit of a range. -/
def stopOf (record : RecordedSource) (stop : String) : Except Error Nat :=
  if stop = "HEAD" then .ok record.length else (record.indexOf stop).map (· + 1)

/-- The place of the first commit of a range. -/
def startOf (record : RecordedSource) : RangeStart → Except Error Nat
  | .root => .ok 0
  | .including id => record.indexOf id
  | .after id => (record.indexOf id).map (· + 1)

/-- The commits of a range. -/
def list (record : RecordedSource) (range : RevisionRange) : Except Error (List String) := do
  let stop ← record.stopOf range.stop
  let start ← record.startOf range.start
  return ((record.take stop).drop start).map (·.commit.id)

/-- What is known of a commit. -/
def metadata (record : RecordedSource) (id : String) : Except Error SourceCommit := do
  match record[← record.indexOf id]? with
  | none => throw (.commitNotFound id)
  | some entry =>
      if entry.broken then throw (.internal ("metadata of " ++ id)) else return entry.commit

/-- The content of a path at a commit. -/
def read (record : RecordedSource) (path id : String) : Except Error (Option Bytes) := do
  match record[← record.indexOf id]? with
  | none => throw (.commitNotFound id)
  | some entry =>
      match entry.files.get? path with
      | none => return none
      | some (.content bytes) => return some bytes
      | some .unreadable => throw (.internal ("read of " ++ path))

/-- A record as a source. -/
def source (record : RecordedSource) : RevisionSource :=
  { list := record.list, metadata := record.metadata, read := record.read }

end RecordedSource

end TokenBlame
