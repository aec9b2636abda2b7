/-
# TokenBlame.Plan -- which files of a commit are replayed

Every touched path gets one action, in the order of first mention.  Empty paths and
paths of binary files (told by their extension) get none.  The source of a copy gets
no action of its own unless the commit touched it too.
-/
import TokenBlame.SourceCommit
import TokenBlame.RelativePath

set_option autoImplicit false

namespace TokenBlame.Plan

/-- Extensions of files that are never replayed. -/
def binaryExtensions : List String := [
  "png", "jpg", "jpeg", "gif", "bmp", "ico", "icns", "psd", "tiff", "ttf", "bcmap", "webp",
  "zip", "gz", "bz2", "tar", "xpi", "jar", "mp4", "webm", "ogv", "avi", "mov", "m4s", "mgif",
  "mp3", "ogg", "wav", "flac", "opus", "exe", "dll", "so", "class", "binjs", "pdf", "doc",
  "otf", "sqlite", "woff", "woff2", "crt"]

/-- A letter in lower case, as far as that makes it an ASCII letter: besides the
capitals of ASCII only the kelvin sign has an ASCII letter for its lower case. -/
def lower (c : Char) : Char :=
  if c.toNat = 0x212A then 'k' else c.toLower

/-- Whether a path is that of a binary file. -/
def isBinary (path : String) : Bool :=
  match RelativePath.extension? path.toList with
  | none => false
  | some extension => binaryExtensions.contains (String.ofList (extension.map lower))

/-- Bring `path` to its state at the commit. -/
structure Action where
  path : String
  /-- The path it was copied or renamed from. -/
  copiedFrom : Option String
  deriving DecidableEq, Repr

/-- The touched paths that are replayed, each once, in order of first mention. -/
def paths (commit : SourceCommit) : List String :=
  (commit.touched.filter fun path => !path.isEmpty && !isBinary path).eraseDups

/-- The actions that replay a commit. -/
def actions (commit : SourceCommit) : List Action :=
  (paths commit).map fun path => ⟨path, commit.copies.get? path⟩

end TokenBlame.Plan
