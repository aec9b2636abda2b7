/-
# TokenBlame.Viewer -- source files with the blame of their destination

A viewer shows a file as it was at the source commit of a destination commit, every
piece of its text attributed to a source commit: the destination file is blamed, the
source file is read, the blamed tokens are found in it again, and destination commits
are replaced by their source commits.

The mapping between destination and source commits is kept as long as HEAD stays
where it was when the mapping was built.
-/
import TokenBlame.BackMap
import TokenBlame.BlameEngine
import TokenBlame.Color
import TokenBlame.Destination
import TokenBlame.RevisionSource

set_option autoImplicit false

namespace TokenBlame

open Git

/-- What a viewer keeps between questions. -/
structure Viewer where
  engine : BlameEngine := .hunks
  /-- The mapping that was built last, and the commit that was at HEAD then. -/
  cache : Option (Option ObjectId × Mapping) := none

namespace Viewer

/-- The mapping of a destination, built anew when HEAD has moved. -/
def mapping (viewer : Viewer) (repository : Repository) : Except Error Mapping × Viewer :=
  match repository.tip with
  | .error fault => (.error (.git fault), viewer)
  | .ok head =>
      match viewer.cache.filter fun kept => kept.1 == head with
      | some kept => (.ok kept.2, viewer)
      | none =>
          match Destination.mapping repository with
          | .error error => (.error error, viewer)
          | .ok found => (.ok found, { viewer with cache := some (head, found) })

/-! ## From destination commits to source commits -/

/-- A fragment with the source commit of its commit. -/
def Fragment.toSource (mapping : Mapping) (fragment : Fragment) : Except Error Fragment :=
  match fragment.commit with
  | none => .ok fragment
  | some destination =>
      match mapping.source destination with
      | .error error => .error error
      | .ok source => .ok { fragment with commit := some source }

/-- A line with the source commits of its commits. -/
def Line.toSource (mapping : Mapping) (line : AttributedLine) : Except Error AttributedLine :=
  (line.fragments.mapM (Fragment.toSource mapping)).map fun fragments => { line with fragments }

/-- The commits of fragments, each in the place of its first fragment. -/
def firstCommits (lines : List AttributedLine) : List String :=
  ((lines.flatMap (·.fragments)).filterMap (·.commit)).eraseDups

/-- What is shown of a commit. -/
def describe (mapping : Mapping) (blame : Blame) (destination : String) :
    Except Error AttributedCommit := do
  let source ← mapping.source destination
  let record := blame.commits.get? destination
  return {
    source, destination
    summary := record.bind (·.summary)
    date := (record.bind (·.committerTime)).map Date.utc
    color := Color.ofCommit source }

/-- Lines of destination commits as lines of source commits, with the table of the commits. -/
def creditSources (mapping : Mapping) (blame : Blame) (lines : List AttributedLine) :
    Except Error (List AttributedLine × List AttributedCommit) := do
  return (← lines.mapM (Line.toSource mapping),
    ← (firstCommits lines).mapM (describe mapping blame))

/-! ## Questions -/

/-- The source file behind `path` at a destination commit, once the mapping is there. -/
def annotateAt (source : RevisionSource) (repository : Repository) (engine : BlameEngine)
    (mapping : Mapping) (id : ObjectId) (path : String) : Except Error AttributedFile := do
  let shown ← match mapping.toSource.get? id.hex with
    | some commit => pure commit
    | none => throw (.missingTrailer id.hex)
  let blame ← engine.blame repository id path
  match ← source.read path shown with
  | none => throw (.pathNotFound (path ++ " at " ++ shown))
  | some content =>
      let lines := BackMap.lines blame.lines (Utf8.decodeLossyChars content)
      let (lines, commits) ← creditSources mapping blame lines
      return { path, revision := id.hex, sourceRevision := shown, lines, commits }

/-- The source file behind `path` at a destination revision. -/
def annotate (viewer : Viewer) (source : RevisionSource) (repository : Repository)
    (revision path : String) : Except Error AttributedFile × Viewer :=
  match RelativePath.checked path with
  | .error error => (.error error, viewer)
  | .ok _ =>
      match repository.resolve revision with
      | .error error => (.error error, viewer)
      | .ok id =>
          match viewer.mapping repository with
          | (.error error, next) => (.error error, next)
          | (.ok mapping, next) =>
              (annotateAt source repository viewer.engine mapping id path, next)

end Viewer

end TokenBlame
