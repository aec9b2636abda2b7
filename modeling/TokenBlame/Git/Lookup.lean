/-
# TokenBlame.Git.Lookup -- what a text finds in a snapshot

A path that is empty, begins with a slash, with `.` or with `..`, or holds a NUL is
malformed, and `fault?` says why.  Any other path is looked up name by name as it is
written; a slash at its end asks for a directory.
-/
import TokenBlame.Error
import TokenBlame.Git.Snapshot

set_option autoImplicit false

namespace TokenBlame.Git

/-- What a path leads to. -/
inductive Found where
  | entry (entry : Entry)
  | directory
  | nothing
  /-- The path can lead nowhere, and why. -/
  | malformed (fault : GitFault)
  deriving DecidableEq, Repr

namespace Snapshot

/-- What is wrong with a path that does not lead down from the top of a tree. -/
def misplaced (path reason : String) : GitFault :=
  { text := "repo path \x60" ++ path ++ "\x60 should " ++ reason }

/-- What is wrong with a text that is no path from the top of a tree. -/
def fault? (path : String) : Option GitFault :=
  let first := (TreePath.ofString path).headD []
  if path.isEmpty then some { text := "repo path should not be empty" }
  else if first.isEmpty then some (misplaced path "be relative")
  else if first = Utf8.encode "." then some (misplaced path "not start with \x60.\x60")
  else if first = Utf8.encode ".." then some (misplaced path "not start with \x60..\x60")
  else if path.toList.contains '\x00' then some .embeddedNul
  else none

/-- What the names of a path lead to. -/
def locate (snapshot : Snapshot) (path : TreePath) : Found :=
  match snapshot.get? path with
  | some entry => .entry entry
  | none => if snapshot.isDirectory path then .directory else .nothing

/-- What a text leads to. -/
def find (snapshot : Snapshot) (path : String) : Found :=
  match fault? path with
  | some fault => .malformed fault
  | none =>
      let names := TreePath.ofString path
      if names.getLast? = some [] then
        match locate snapshot names.dropLast with
        | .directory => .directory
        | _ => .nothing
      else locate snapshot names

end Snapshot

end TokenBlame.Git
