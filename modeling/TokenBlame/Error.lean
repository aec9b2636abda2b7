/-
# TokenBlame.Error -- what can go wrong, and how it is told

An error names its cause.  `message` is its wording, `cause?` the wording of the
error beneath it when there is one.  Two questions are asked of an error elsewhere:
whether it ends a whole run (`isFatal`) and whether something was not there
(`isNotFound`).
-/

set_option autoImplicit false

namespace TokenBlame

/-- The kinds of failure inside a repository that are told apart. -/
inductive GitFault.Kind where
  | notFound
  | alreadyExists
  /-- There is no working tree. -/
  | bareRepository
  | generic
  deriving DecidableEq, Repr

/-- The parts of a repository in which a failure may arise. -/
inductive GitFault.Area where
  | system
  | references
  | objects
  | repository
  | callback
  | files
  | unknown
  deriving DecidableEq, Repr

/-- A failure inside a repository. -/
structure GitFault where
  kind : GitFault.Kind := .generic
  area : GitFault.Area := .unknown
  text : String
  deriving DecidableEq, Repr

namespace GitFault

/-- What is added to the text of a failure that is not of the generic kind. -/
def Kind.addition : Kind → String
  | notFound => "; code=NotFound (-3)"
  | alreadyExists => "; code=Exists (-4)"
  | bareRepository => "; code=BareRepo (-8)"
  | generic => ""

/-- What is added to the text of a failure of which it is known where it arose. -/
def Area.addition : Area → String
  | system => "; class=Os (2)"
  | references => "; class=Reference (4)"
  | objects => "; class=Odb (9)"
  | repository => "; class=Repository (6)"
  | callback => "; class=Callback (26)"
  | files => "; class=Filesystem (30)"
  | unknown => ""

/-- The text of a failure with where it arose and of what kind it is. -/
def message (fault : GitFault) : String :=
  fault.text ++ fault.area.addition ++ fault.kind.addition

/-- A text holds a NUL where none may stand. -/
def embeddedNul : GitFault :=
  { text := "data contained a nul byte that could not be represented as a string" }

end GitFault

/-- A cause of failure. -/
inductive Error where
  | git (fault : GitFault)
  | io (text : String)
  | http (text : String)
  | repositoryNotFound (path : String)
  | pathNotFound (path : String)
  | commitNotFound (revision : String)
  | missingTrailer (commit : String)
  | duplicateTrailer (source first second : String)
  | invalidPath (path : String)
  | mergeUnsupported (id : String) (parents : Nat)
  | sealing (source : String) (fault : GitFault)
  | commentServiceMissing (command : String)
  | commentServiceUnavailable (text : String)
  | malformedBlame (text : String)
  | internal (text : String)
  deriving DecidableEq, Repr

namespace Error

/-- The wording of an error. -/
def message : Error → String
  | git fault => "Git error: " ++ fault.message
  | io text => "IO error: " ++ text
  | http text => "HTTP error: " ++ text
  | repositoryNotFound path => "Repository not found: " ++ path
  | pathNotFound path => "Path not found: " ++ path
  | commitNotFound revision => "Commit not found: " ++ revision
  | missingTrailer commit => "Commit " ++ commit ++ " has no original commit trailer"
  | duplicateTrailer source first second =>
      "Original commit " ++ source ++ " is mapped by both " ++ first ++ " and " ++ second
  | invalidPath path => "Invalid path: " ++ path
  | mergeUnsupported id parents =>
      "Merge commit " ++ id ++ " has " ++ toString parents ++ " parents, merges are not supported"
  | sealing source fault =>
      "Failed to seal destination commit for " ++ source ++ ": " ++ fault.message
  | commentServiceMissing command => "Comment service command not found: " ++ command
  | commentServiceUnavailable text => "Comment service did not become reachable: " ++ text
  | malformedBlame text => "Malformed blame output: " ++ text
  | internal text => "Internal error: " ++ text

/-- The wording of the failure beneath an error. -/
def cause? : Error → Option String
  | git fault => some fault.message
  | io text => some text
  | http text => some text
  | sealing _ fault => some fault.message
  | _ => none

/-- The errors that end a run instead of being recorded against one commit. -/
def isFatal : Error → Bool
  | sealing .. => true
  | mergeUnsupported .. => true
  | commentServiceMissing _ => true
  | commentServiceUnavailable _ => true
  | _ => false

/-- The errors that say that something was not there. -/
def isNotFound : Error → Bool
  | repositoryNotFound _ => true
  | pathNotFound _ => true
  | commitNotFound _ => true
  | missingTrailer _ => true
  | git fault => fault.kind == .notFound
  | _ => false

end Error

/-! ## Failures of the file system -/

namespace Error

/-- A file or a directory on the way is missing. -/
def noSuchFile : Error := .io "No such file or directory (os error 2)"

/-- Something on the way is not a directory. -/
def notDirectory : Error := .io "Not a directory (os error 20)"

/-- A directory stands where a file is wanted. -/
def isDirectory : Error := .io "Is a directory (os error 21)"

/-- Something stands where a directory is to be made. -/
def fileExists : Error := .io "File exists (os error 17)"

/-- A directory that is to be removed is not empty. -/
def directoryNotEmpty : Error := .io "Directory not empty (os error 39)"

/-- Links lead on and on. -/
def tooManyLinks : Error := .io "Too many levels of symbolic links (os error 40)"

/-- A name is longer than names may be. -/
def nameTooLong : Error := .io "File name too long (os error 36)"

/-- A name holds a byte that no name may hold. -/
def invalidName : Error := .io "file name contained an unexpected NUL byte"

/-- An argument of a command holds a byte that no argument may hold. -/
def invalidArgument : Error := .io "nul byte found in provided data"

/-- A file may not be executed. -/
def permissionDenied : Error := .io "Permission denied (os error 13)"

end Error

end TokenBlame
