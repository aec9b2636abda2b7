/-
# TokenBlame.Workspace -- repositories and files by their paths

A workspace is a disk with what the repositories on it hold, and a working directory
that relative paths begin at.  Beyond the disk it knows how comment services are reached
and which ports are in use.

A repository is opened by a path to its working tree or to its own directory.  Opening
one that is to be written makes it, with the directories above it, if nothing is there
yet.

A repository may be kept in a file as a stream.  `adopt` puts it where the file would
be, its last commit checked out, and `stored?` is the stream again.
-/
import TokenBlame.Git.Source
import TokenBlame.Git.Stream
import TokenBlame.Options
import TokenBlame.Transcode

set_option autoImplicit false

namespace TokenBlame

open Git

/-- What the program finds around it. -/
structure Workspace where
  disk : Disk := .vacant
  /-- What repositories hold, by the places of their own directories. -/
  holdings : Table TreePath Holding := ∅
  /-- The working directory. -/
  base : TreePath := []
  /-- The comment services that can be reached, by their addresses. -/
  services : String → Option CommentService := fun _ => none
  /-- The ports that are in use. -/
  busyPorts : List Nat := []

namespace Workspace

/-- The way to a path. -/
def route (workspace : Workspace) (path : String) : Disk.Route :=
  .ofText workspace.base (Utf8.encode path)

/-- What stands where a path leads. -/
def find (workspace : Workspace) (path : String) : Except Error (TreePath × Disk.Node) :=
  workspace.disk.find (workspace.route path)

/-! ## Repositories -/

/-- The repository whose own directory is at a place.  Where the file of the index is
gone, the index is empty. -/
def at? (workspace : Workspace) (home : TreePath) : Option Destination :=
  if Directory.isRepository workspace.disk home then
    (workspace.holdings.get? home).map fun holding =>
      let saved := if Directory.hasIndex workspace.disk home then holding.saved else ∅
      .on { holding with saved } workspace.disk home
  else none

/-- The repository at a path: that of a working tree, or the one that keeps itself
there. -/
def open? (workspace : Workspace) (path : String) : Except Error Destination :=
  match workspace.find path with
  | .error _ => .error (.repositoryNotFound path)
  | .ok (place, _) =>
      let homes := (workspace.disk.follow place [TreePath.gitDirectory]).toOption.toList ++ [place]
      match homes.findSome? workspace.at? with
      | some destination => .ok destination
      | none => .error (.repositoryNotFound path)

/-- The workspace with what has become of a repository. -/
def keep (workspace : Workspace) (destination : Destination) : Workspace :=
  { workspace with
    disk := destination.disk
    holdings := workspace.holdings.insert destination.home destination.toHolding }

/-- Make a repository whose own directory is at a place. -/
def create (workspace : Workspace) (home : TreePath) (bare : Bool) : Destination :=
  .on { bare } (Directory.create workspace.disk home bare) home

/-- Whether a path names a repository's own directory. -/
def namesHome (path : String) : Bool :=
  path.endsWith "/.git" || path.endsWith "/.git/"

/-- The repository at a path, made if nothing is there. -/
def openOrInit (workspace : Workspace) (path : String) : Except Error Destination × Workspace :=
  if (workspace.find path).isOk then (workspace.open? path, workspace)
  else
    match workspace.disk.makeDirectories (workspace.route path) with
    | (.error error, disk) => (.error error, { workspace with disk })
    | (.ok place, disk) =>
        let next := { workspace with disk }
        let home := if namesHome path then place else place ++ [TreePath.gitDirectory]
        let made := (next.at? home).getD (next.create home false)
        (.ok made, next.keep made)

/-- The source repository at a path. -/
def source (workspace : Workspace) (path : String) : Except Error RevisionSource :=
  (workspace.open? path).map fun destination => destination.repository.source

/-! ## Repositories that are kept in files -/

/-- Let a directory be at a place. -/
def adoptDirectory (workspace : Workspace) (place : TreePath) : Workspace :=
  match workspace.disk.at? place with
  | none => { workspace with disk := workspace.disk.put place .vacant }
  | some _ => workspace

/-- Let the content of a file be at a place: a repository if it is the stream of one, and
otherwise the file. -/
def adopt (workspace : Workspace) (place : TreePath) (content : Bytes) : Workspace :=
  match Stream.read? content with
  | none => { workspace with disk := workspace.disk.put place (.file content false) }
  | some repository =>
      let made := workspace.create (place ++ [TreePath.gitDirectory]) false
      workspace.keep (made.withRepository repository).resetToHead.2

/-- The content of the file that keeps what is at a path; none for a directory. -/
def stored? (workspace : Workspace) (path : String) : Option Bytes :=
  match workspace.open? path, workspace.find path with
  | .ok destination, _ => some (Stream.print destination.repository)
  | _, .ok (_, .file content _) => some content
  | _, _ => none

/-! ## The error log -/

/-- The error log at a path. -/
def log (workspace : Workspace) (path : String) : ErrorLog :=
  match workspace.disk.fileAt (workspace.route path) with
  | .error error => .blocked error
  | .ok place =>
      match workspace.disk.at? place with
      | some (.file content _) => .text (Utf8.decodeLossy content)
      | _ => .absent

/-- A destination on whose disk the log at a place has been opened. -/
def openLog (destination : Destination) (place : TreePath) : Destination :=
  match destination.disk.at? place with
  | none => { destination with disk := destination.disk.put place (.file [] false) }
  | some _ => destination

/-! ## Comment services -/

/-- What comes of starting a command: there is none of that name, or it is no program. -/
def spawn (workspace : Workspace) (command : String) : Error :=
  if command.toList.contains '\x00' then .invalidArgument
  else if command.toList.contains '/' then
    match workspace.find command with
    | .ok _ => .permissionDenied
    | .error error => if error = .noSuchFile then .commentServiceMissing command else error
  else if command = "." || command = ".." then .permissionDenied
  else .commentServiceMissing command

/-- The comment service that the options ask for. -/
def service (workspace : Workspace) : CommentService.Config → Except Error CommentService
  | .spawn command => .error (workspace.spawn command)
  | .endpoint url =>
      let address := CommentService.trimSlashes url
      match workspace.services address with
      | some service => .ok service
      | none => .error (.commentServiceUnavailable address)

/-! ## Runs -/

/-- Replay a source that is open into a destination that is open, with a log. -/
def replayInto (workspace : Workspace) (source : RevisionSource) (options : Options)
    (destination : Destination) : Except Error Bool × Workspace :=
  let logPlace := (workspace.disk.fileAt (workspace.route options.errorLog)).toOption
  let opened := logPlace.elim destination (openLog destination)
  let (result, state) := Transcode.run source (options.settings workspace.service)
    { destination := opened, log := workspace.log options.errorLog, logPlace }
  match state.log with
  | .text _ => (result, workspace.keep state.destination)
  | _ => (result, workspace)

/-- Replay a source that is open into the destination of the options. -/
def replay (workspace : Workspace) (source : RevisionSource) (options : Options) :
    Except Error Bool × Workspace :=
  match workspace.openOrInit options.destination with
  | (.error error, next) => (.error error, next)
  | (.ok destination, next) => next.replayInto source options destination

/-- Replay the history of the source of the options into their destination; true if the
end of the range was reached. -/
def generate (workspace : Workspace) (options : Options) : Except Error Bool × Workspace :=
  match workspace.source options.source with
  | .error error => (.error error, workspace)
  | .ok source => workspace.replay source options

end Workspace

end TokenBlame
