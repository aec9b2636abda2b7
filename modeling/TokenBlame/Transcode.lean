/-
# TokenBlame.Transcode -- replaying source commits into the destination

A run takes the commits of a range that have not been replayed yet, oldest first, and
replays them one after the other: every file that a commit touched is brought to its
state there, in transformed form, and the result is committed with a message that
names the source commit.  Where an earlier run left off is read from the commit at HEAD.

A commit that cannot be replayed is recorded in the error log, and the destination is
put back to HEAD before the next one.  Fatal errors, merges among them, end the run.
-/
import TokenBlame.CommentService
import TokenBlame.Destination
import TokenBlame.ErrorLog
import TokenBlame.Mining
import TokenBlame.Plan
import TokenBlame.Token

set_option autoImplicit false

namespace TokenBlame.Transcode

open Git

/-- What a run is asked to do. -/
structure Settings where
  start : RangeStart := .root
  stop : String := "HEAD"
  /-- The greatest number of commits to replay. -/
  limit : Option Nat := none
  /-- Whether files are cut into tokens. -/
  tokenize : Bool := true
  /-- The service that removes comments, or why there is none; nothing if comments stay. -/
  comments : Option (Except Error CommentService) := none
  identity : Destination.Identity := {}

/-- The destination and the log of what could not be replayed. -/
structure State where
  destination : Destination
  log : ErrorLog
  /-- The file of the log, if it is on the disk of the destination. -/
  logPlace : Option TreePath := none

/-! ## One commit -/

/-- The form in which a file is replayed. -/
def transform (settings : Settings) (service : Option CommentService) (path : String)
    (content : Bytes) : Bytes :=
  let content := match service with
    | some service => service.strip path content
    | none => content
  if settings.tokenize then Token.tokenize path content else content

/-- The change that brings a path to its state at a commit. -/
def change (source : RevisionSource) (settings : Settings) (service : Option CommentService)
    (id path : String) : Except Error FileChange :=
  match source.read path id with
  | .error error => .error error
  | .ok none => .ok (.remove path)
  | .ok (some content) => .ok (.write path (transform settings service path content))

/-- The changes of a commit. -/
def changes (source : RevisionSource) (settings : Settings) (service : Option CommentService)
    (commit : SourceCommit) : Except Error (List FileChange) :=
  match commit.nonUtf8Paths with
  | path :: _ => .error (.invalidPath (path ++ " is not valid UTF-8"))
  | [] => (Plan.paths commit).mapM (change source settings service commit.id)

/-- Commit what was staged for a source commit. -/
def sealStaged (settings : Settings) (destination : Destination) (commit : SourceCommit) :
    Except Error Unit × Destination :=
  match destination.commitIndex (Trailer.message commit.description commit.id) settings.identity
      commit.time commit.offsetMinutes with
  | (.error fault, next) => (.error (.sealing commit.id fault), next)
  | (.ok _, next) => (.ok (), next)

/-- Replay one commit. -/
def convert (source : RevisionSource) (settings : Settings) (service : Option CommentService)
    (destination : Destination) (commit : SourceCommit) : Except Error Unit × Destination :=
  match changes source settings service commit with
  | .error error => (.error error, destination)
  | .ok changes =>
      match destination.stage changes with
      | (.error error, next) => (.error error, next)
      | (.ok (), next) => sealStaged settings next commit

/-! ## Many commits -/

/-- Record a commit that could not be replayed. -/
def State.record (state : State) (commit : SourceCommit) : State :=
  let line := Utf8.encode (ErrorLog.line commit)
  let append := fun (disk : Disk) (place : TreePath) => disk.append place line
  { state with
    log := state.log.record commit
    destination.disk := state.logPlace.elim state.destination.disk (append state.destination.disk) }

/-- Record a commit that could not be replayed and put the destination back. -/
def setBack (state : State) (commit : SourceCommit) : Except Error Unit × State :=
  let recorded := state.record commit
  let (result, destination) := recorded.destination.resetToHead
  (result, { recorded with destination })

/-- Replay one commit or record it. -/
def step (source : RevisionSource) (settings : Settings) (service : Option CommentService)
    (state : State) (commit : SourceCommit) : Except Error Unit × State :=
  if commit.isMerge then
    (.error (.mergeUnsupported commit.id commit.parents.length), state)
  else
    match convert source settings service state.destination commit with
    | (.ok (), destination) => (.ok (), { state with destination })
    | (.error error, destination) =>
        if error.isFatal then (.error error, { state with destination })
        else setBack { state with destination } commit

/-- Replay commits one after the other. -/
def replay (source : RevisionSource) (settings : Settings) (service : Option CommentService)
    (state : State) : List SourceCommit → Except Error Unit × State
  | [] => (.ok (), state)
  | commit :: rest =>
      match step source settings service state commit with
      | (.error error, next) => (.error error, next)
      | (.ok (), next) => replay source settings service next rest

/-! ## Runs -/

/-- The commits that are still to be replayed: those of the range, or of what lies
behind the source commit that HEAD names, without those that were replayed before. -/
def pending (source : RevisionSource) (settings : Settings) (destination : Destination) :
    Except Error (List String) := do
  match ← destination.headSource with
  | none => source.list ⟨settings.start, settings.stop⟩
  | some last =>
      let ids ← source.list ⟨.after last, settings.stop⟩
      let mapping ← Destination.mapping destination.repository
      return ids.filter fun id => !(mapping.toDestination.contains id)

/-- Cut a list at a limit; whether nothing was cut off comes with it. -/
def limited (limit : Option Nat) (ids : List String) : List String × Bool :=
  match limit with
  | none => (ids, true)
  | some limit => if limit < ids.length then (ids.take limit, false) else (ids, true)

/-- What a run sets out to do: the service, the commits to replay, and whether these are
all there are. -/
def prepare (source : RevisionSource) (settings : Settings) (destination : Destination) :
    Except Error (Option CommentService × List SourceCommit × Bool) := do
  let service ← match settings.comments with
    | none => pure none
    | some service => some <$> service
  let ids ← pending source settings destination
  let (ids, completed) := limited settings.limit ids
  let commits ← Mining.mine source ids
  return (service, commits, completed)

/-- One run; true if the end of the range was reached. -/
def run (source : RevisionSource) (settings : Settings) (state : State) :
    Except Error Bool × State :=
  match prepare source settings state.destination with
  | .error error => (.error error, state)
  | .ok (service, commits, completed) =>
      match state.log.start with
      | .error error => (.error error, state)
      | .ok log =>
          match replay source settings service { state with log } commits with
          | (.error error, next) => (.error error, next)
          | (.ok (), next) => (.ok completed, next)

end TokenBlame.Transcode
