/-
# TokenBlame.Mapping -- destination commits and their source commits

Each destination commit names its source commit in its message.  `ofHistory` reads
these names off a history: it fails at the first commit that names none, or that names
the source commit of an earlier one.  What it builds is a table in either direction,
each the inverse of the other.
-/
import TokenBlame.Error
import TokenBlame.Table
import TokenBlame.Trailer

set_option autoImplicit false

namespace TokenBlame

/-- The source commits of destination commits, and back. -/
structure Mapping where
  /-- The source commit of a destination commit. -/
  toSource : Table String String := ∅
  /-- The destination commit of a source commit. -/
  toDestination : Table String String := ∅
  deriving DecidableEq

namespace Mapping

instance : Inhabited Mapping := ⟨{}⟩

/-- Add a destination commit with its source commit, which no other may have. -/
def insert (mapping : Mapping) (destination source : String) : Except Error Mapping :=
  match mapping.toDestination.get? source with
  | some first => .error (.duplicateTrailer source first destination)
  | none =>
      .ok { toSource := mapping.toSource.insert destination source
            toDestination := mapping.toDestination.insert source destination }

/-- Add a destination commit by its message. -/
def add (mapping : Mapping) (destination message : String) : Except Error Mapping :=
  match Trailer.source? message with
  | none => .error (.missingTrailer destination)
  | some source => mapping.insert destination source

/-- Add the commits of a history, given by their ids and messages. -/
def addAll (mapping : Mapping) : List (String × String) → Except Error Mapping
  | [] => .ok mapping
  | (destination, message) :: rest =>
      match mapping.add destination message with
      | .error error => .error error
      | .ok next => addAll next rest

/-- The mapping of a history. -/
def ofHistory (history : List (String × String)) : Except Error Mapping :=
  addAll {} history

/-- The source commit of a destination commit. -/
def source (mapping : Mapping) (destination : String) : Except Error String :=
  match mapping.toSource.get? destination with
  | some source => .ok source
  | none => .error (.commitNotFound destination)

/-- The destination commit of a source commit. -/
def destination (mapping : Mapping) (source : String) : Except Error String :=
  match mapping.toDestination.get? source with
  | some destination => .ok destination
  | none => .error (.commitNotFound source)

/-- The number of destination commits. -/
def size (mapping : Mapping) : Nat :=
  mapping.toSource.entries.length

end Mapping

end TokenBlame
