/-
# TokenBlame.BlameEngine -- the two ways to blame a file

`hunks` blames a file of the repository itself.  `porcelain` asks for the blame in
git's line-by-line format and reads that text.  They differ in how a path is read, in
how a file is followed back, in what they tell of a commit, and in the error for a path
that is not a file.
-/
import TokenBlame.Git.LineOrigin
import TokenBlame.Git.Lookup
import TokenBlame.Git.QuotedPath
import TokenBlame.Porcelain
import TokenBlame.Text.Lines

set_option autoImplicit false

namespace TokenBlame

/-- A way to blame a file. -/
inductive BlameEngine where
  | hunks
  | porcelain
  deriving DecidableEq, Repr

namespace BlameEngine

open Git

/-! ## Hunks -/

/-- The runs of consecutive lines in a list of lines of one commit. -/
def runs (lines : List (Nat × Nat)) : List (Nat × Nat × Nat) :=
  lines.foldr (fun (now, before) found =>
    match found with
    | (n, b, count) :: rest =>
        if n = now + 1 ∧ b = before + 1 then (now, before, count + 1) :: rest
        else (now, before, 1) :: found
    | [] => [(now, before, 1)]) []

/-- The hunks of a group of lines; a group without lines is an empty hunk. -/
def hunksOf (record : BlameCommit) (group : LineGroup) : List Blame.Hunk :=
  if group.lines.isEmpty then [⟨record, 1, 1, 0⟩]
  else (runs group.lines).map fun (now, before, count) => ⟨record, now + 1, before + 1, count⟩

/-- The hunks of a file in the order of its lines. -/
def ordered (hunks : List Blame.Hunk) : List Blame.Hunk :=
  hunks.mergeSort fun a b => a.startNow ≤ b.startNow

/-- The lines of a file as they are blamed. -/
def lines (content : Bytes) : List String :=
  (Lines.cut (Utf8.decodeLossyChars content)).map String.ofList

/-! ## What is told of a commit -/

/-- What both engines tell of a commit. -/
def describe (commit : Commit) (text? : Bytes → Option String) : BlameCommit :=
  let mail := fun (bytes : Bytes) => (text? bytes).map fun email => "<" ++ email ++ ">"
  { id := commit.id.hex
    author := text? commit.author.name
    authorMail := mail commit.author.email
    authorTime := some commit.author.time
    authorZone := some (Date.zone commit.author.offset)
    committer := text? commit.committer.name
    committerMail := mail commit.committer.email
    committerTime := some commit.committer.time
    committerZone := some (Date.zone commit.committer.offset)
    boundary := commit.parents.isEmpty }

/-- A commit as hunks tell it: the first parent comes before it. -/
def hunkRecord (commit : Commit) (path : TreePath) : BlameCommit :=
  { describe commit Utf8.decode? with
    summary := commit.summary?
    previous := commit.parents.head?.map (·.hex)
    filename := some path.shown }

/-- A commit as the line-by-line format tells it: the search went on where the file goes
on. -/
def porcelainRecord (repository : Repository) (commit : Commit) (path : TreePath) : BlameCommit :=
  { describe commit fun bytes => some (Utf8.decodeLossy bytes) with
    summary := some (Utf8.decodeLossy commit.subject)
    previous := (Following.firstWithName? repository commit path).map (·.hex)
    filename := some (QuotedPath.shown path.join) }

/-! ## The engines -/

/-- The hunks of a file that is looked for by `follow`, told by `record`. -/
def hunksAt (repository : Repository) (commit : Commit) (path : TreePath) (follow : Following)
    (record : Commit → TreePath → BlameCommit) : List Blame.Hunk :=
  ordered ((repository.lineOrigins follow commit path).flatMap fun group =>
    match repository.find? group.commit with
    | some origin => hunksOf (record origin group.path) group
    | none => [])

/-- Blame by hunks. -/
def blameHunks (repository : Repository) (commit : Commit) (path : String) :
    Except Error Blame :=
  match commit.tree.find path with
  | .entry (.submodule id) =>
      .error (.git (Repository.missing id))
  | .entry entry =>
      .ok (Blame.ofHunks (lines (entry.content?.getD []))
        (hunksAt repository commit (TreePath.ofString path) .byTrail hunkRecord))
  | .directory => .error (.invalidPath (path ++ " is not a file"))
  | .nothing => .error (.pathNotFound path)
  | .malformed _ => .error (.pathNotFound path)

/-- The text of the blame of a file. -/
def porcelainText (repository : Repository) (commit : Commit) (path : TreePath)
    (content : Bytes) : String :=
  let found := hunksAt repository commit path .byName (porcelainRecord repository)
  let hunks := found.filter fun hunk => hunk.count != 0
  Porcelain.print (Blame.ofHunks (lines content) hunks)

/-- The blame that is read from bytes in the line-by-line format.  They are read as text as a
whole, so that a malformed run in one line is shown there and nowhere else. -/
def readOutput (output : Bytes) : Except Error Blame :=
  Porcelain.parse (Utf8.decodeLossy output)

/-- How a path is read that begins at the top of the disk: as a path in the repository,
or else it leads out of it, and the text is what is told of it. -/
abbrev Reading := TreePath → Except String TreePath

/-- Where no path from the top of the disk leads into the repository. -/
def noReading : Reading := fun path => .error path.shown

/-- The place in the repository that a path leads to. -/
def placeOf (reading : Reading) (path : String) : Except String TreePath :=
  let names := TreePath.ofString path
  match if names.head? = some [] && path != "" then reading names else .ok names with
  | .error told => .error told
  | .ok inside =>
      match inside.normalize? with
      | some place => .ok place
      | none => .error path

/-- The words by which it is told that a path is missing. -/
def missingWords : String := "no such path"

/-- A path leads out of the repository.  This is taken for a missing path where what is
told of it has the words for that. -/
def outside (path told : String) : Error :=
  if 1 < (told.splitOn missingWords).length then .pathNotFound path
  else
    .internal ("git blame failed for " ++ path ++ ": fatal: '" ++ told ++
      "' is outside repository")

/-- Blame by the line-by-line format. -/
def blamePorcelain (reading : Reading) (repository : Repository) (commit : Commit)
    (path : String) : Except Error Blame :=
  if path.toList.contains '\x00' then .error .invalidArgument
  else
    match placeOf reading path with
    | .error told => .error (outside path told)
    | .ok place =>
        match (if TreePath.wantsDirectory (TreePath.ofString path) then none
          else commit.tree.get? place).bind Entry.content? with
        | some content =>
            readOutput (Utf8.encode (porcelainText repository commit place content))
        | none => .error (.pathNotFound path)

/-- Blame a path at a commit. -/
def blame (engine : BlameEngine) (repository : Repository) (id : ObjectId) (path : String)
    (reading : Reading := noReading) : Except Error Blame :=
  match repository.find? id with
  | none => .error (.commitNotFound id.hex)
  | some commit =>
      match engine with
      | hunks => blameHunks repository commit path
      | porcelain => blamePorcelain reading repository commit path

end BlameEngine

end TokenBlame
