/-
# TokenBlame.Git.Repository -- commits and the branches that name them

The store keeps its commits with the newest first, so that the parents of a commit
stand behind it and one pass over the list meets every child before its parents.
Storing a commit that is there already changes nothing, since its name determines it.

`head` is the branch that HEAD names; it has no commit yet in a new repository.  `tip` is
the commit that HEAD names in this way, and a failure where that cannot be read.

What is stored stays, though no commit has it.  It is told apart only by the beginnings of
names, `isOtherObject`: a beginning that two objects share names neither.
-/
import TokenBlame.Git.Commit

set_option autoImplicit false

namespace TokenBlame.Git

/-- A repository. -/
structure Repository where
  /-- The commits, the parents of each behind it. -/
  commits : List Commit := []
  branches : Table String ObjectId := ∅
  /-- The branch that HEAD names; without a name where HEAD names a commit itself. -/
  head : String := "master"
  /-- The branches of which it cannot be read what they name; HEAD is the one without a
  name. -/
  damaged : List String := []
  /-- Contents that were stored apart from a commit. -/
  contents : List Bytes := []
  /-- Trees that were stored apart from a commit. -/
  trees : List Snapshot := []
  deriving DecidableEq

namespace Repository

instance : Inhabited Repository := ⟨{}⟩

/-- The commit of a name. -/
def find? (repository : Repository) (id : ObjectId) : Option Commit :=
  repository.commits.find? fun commit => commit.id == id

/-- The commit at HEAD. -/
def headId? (repository : Repository) : Option ObjectId :=
  repository.branches.get? repository.head

/-- The commit at HEAD with all it holds. -/
def headCommit? (repository : Repository) : Option Commit :=
  repository.headId?.bind repository.find?

/-- The files of the commit at HEAD. -/
def headTree? (repository : Repository) : Option Snapshot :=
  repository.headCommit?.map (·.tree)

/-- It cannot be read what a branch names. -/
def unreadable (branch : String) : GitFault :=
  { area := .references
    text := "corrupted loose reference file: " ++
      if branch.isEmpty then "HEAD" else "refs/heads/" ++ branch }

/-- There is no commit of a name. -/
def missing (id : ObjectId) : GitFault :=
  { kind := .notFound
    area := .objects
    text := "object not found - no match for id (" ++ id.hex ++ ")" }

/-- The name of the commit at HEAD. -/
def tip (repository : Repository) : Except GitFault (Option ObjectId) :=
  if repository.damaged.contains repository.head then .error (unreadable repository.head)
  else .ok repository.headId?

/-- The commit at HEAD, which has to be there if HEAD names one. -/
def tipCommit (repository : Repository) : Except GitFault (Option Commit) :=
  match repository.tip with
  | .error fault => .error fault
  | .ok none => .ok none
  | .ok (some id) =>
      match repository.find? id with
      | none => .error (missing id)
      | some commit => .ok (some commit)

/-- Store a commit. -/
def store (repository : Repository) (commit : Commit) : Repository :=
  if (repository.find? commit.id).isSome then repository
  else { repository with commits := commit :: repository.commits }

/-- Let a branch name a commit. -/
def point (repository : Repository) (branch : String) (id : ObjectId) : Repository :=
  { repository with
    branches := repository.branches.insert branch id
    damaged := repository.damaged.filter (· != branch) }

/-- Store the content of an entry. -/
def storeContent (repository : Repository) (entry : Entry) : Repository :=
  { repository with contents := entry.content?.toList ++ repository.contents }

/-- Store a tree. -/
def storeTree (repository : Repository) (tree : Snapshot) : Repository :=
  { repository with trees := tree :: repository.trees }

/-- Whether an object that is no commit has a name of a kind. -/
def isOtherObject (repository : Repository) (test : ObjectId → Bool) : Bool :=
  (repository.contents.any fun content => test (.ofObject "blob" content)) ||
    (repository.trees ++ repository.commits.map (·.tree)).any fun tree => tree.objectIds.any test

/-- Store a commit and let HEAD's branch name it. -/
def advance (repository : Repository) (commit : Commit) : Repository :=
  (repository.store commit).point repository.head commit.id

end Repository

end TokenBlame.Git
