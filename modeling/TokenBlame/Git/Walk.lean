/-
# TokenBlame.Git.Walk -- the commits behind a tip and not behind others

A walk goes from a tip and from hidden commits back to their parents, the newest commit
of its waiting line next.  It finds the commits that it comes to and that are not known
to be hidden then.  What is behind a hidden commit becomes hidden as the walk gets there.

The walk ends when only hidden commits wait.  It looks a little further even then: it
gives up at the fifth step in a row that leaves only commits older than the one found
last.  Where no child is older than its parents that finds every commit that is hidden.
Otherwise a commit may be found although a hidden commit leads to it.
-/
import TokenBlame.Git.Repository

set_option autoImplicit false

namespace TokenBlame.Git

/-- How often a walk looks further. -/
def Walk.patient : Nat := 5

/-- A walk on its way. -/
structure Walk where
  /-- The commits that are to be visited, in this order. -/
  waiting : List Commit
  /-- The commits whose parents are known. -/
  read : List ObjectId
  /-- The commits that waited at some time. -/
  seen : List ObjectId
  /-- The commits whose parents wait or waited. -/
  followed : List ObjectId := []
  /-- The commits that are known to be hidden. -/
  hidden : List ObjectId
  /-- The commits that were found, the last one first. -/
  found : List Commit := []
  /-- How often the walk may still look further. -/
  patience : Nat := Walk.patient

namespace Walk

/-! ## Hiding -/

/-- Hide commits, and what is known to be behind those that were not hidden. -/
def hide (repository : Repository) (walk : Walk) : Nat → List ObjectId → Walk
  | 0, _ => walk
  | _, [] => walk
  | count + 1, id :: rest =>
      if walk.hidden.contains id then hide repository walk count rest
      else
        let next := { walk with hidden := id :: walk.hidden }
        let behind :=
          if walk.read.contains id then ((repository.find? id).map (·.parents)).getD [] else []
        hide repository next count (behind ++ rest)

/-- Hide the parents of a commit. -/
def hideParents (repository : Repository) (walk : Walk) (commit : Commit) : Walk :=
  let edges := repository.commits.flatMap (·.parents)
  hide repository walk (commit.parents.length + edges.length + 1) commit.parents

/-! ## Visiting -/

/-- Put a commit into the waiting line in front of the first one that is older. -/
def enqueue (walk : Walk) (commit : Commit) : Walk :=
  let newer := fun (other : Commit) => commit.committer.time ≤ other.committer.time
  { walk with
    waiting := walk.waiting.takeWhile newer ++ commit :: walk.waiting.dropWhile newer
    seen := commit.id :: walk.seen }

/-- Follow a hidden commit to one of its parents. -/
def followHidden (repository : Repository) (walk : Walk) (parent : Commit) : Walk :=
  let known := { walk with
    hidden := parent.id :: walk.hidden
    read := parent.id :: walk.read }
  enqueue (hideParents repository known parent) parent

/-- Follow a commit that is not hidden to one of its parents. -/
def followFound (walk : Walk) (parent : Commit) : Walk :=
  let known := { walk with read := parent.id :: walk.read }
  if walk.seen.contains parent.id then known else enqueue known parent

/-- Let the parents of a commit wait, unless that was done before. -/
def follow (repository : Repository) (walk : Walk) (commit : Commit) : Walk :=
  if walk.followed.contains commit.id then walk
  else
    let start := { walk with followed := commit.id :: walk.followed }
    let parents := commit.parents.filterMap repository.find?
    if walk.hidden.contains commit.id then parents.foldl (followHidden repository) start
    else parents.foldl followFound start

/-- Whether something waits that may be found, or that is newer than the commit found
last; for what is visited next it is enough to be as new. -/
def isPromising (walk : Walk) : Bool :=
  let last := walk.found.head?.map (·.committer.time)
  walk.waiting.any (fun commit =>
      !walk.hidden.contains commit.id || last.any (· < commit.committer.time)) ||
    walk.waiting.head?.any fun commit => last.any (· ≤ commit.committer.time)

/-- Visit the commits that wait, at most a number of them. -/
def run (repository : Repository) : Nat → Walk → Walk
  | 0, walk => walk
  | count + 1, walk =>
      match walk.waiting with
      | [] => walk
      | commit :: waiting =>
          let next := follow repository { walk with waiting } commit
          if next.hidden.contains commit.id then
            let next := hideParents repository next commit
            if next.waiting.isEmpty then next
            else if isPromising next then run repository count { next with patience := patient }
            else if next.patience ≤ 1 then next
            else run repository count { next with patience := next.patience - 1 }
          else run repository count { next with found := commit :: next.found }

end Walk

namespace Repository

/-- The commits that lead back from `tip` and not from any of `hidden`, as a walk finds
them. -/
def between (repository : Repository) (tip : ObjectId) (hidden : List ObjectId) : List Commit :=
  let starts := (hidden.reverse ++ [tip]).eraseDups
  let walk : Walk := {
    waiting := starts.filterMap repository.find?
    read := starts, seen := starts, hidden }
  let walk := walk.waiting.foldl (fun walk commit =>
    if walk.hidden.contains commit.id then Walk.hideParents repository walk commit else walk) walk
  let steps := starts.length + (repository.commits.flatMap (·.parents)).length
  let done := Walk.run repository steps walk
  done.found.reverse.filter fun commit => !done.hidden.contains commit.id

end Repository

end TokenBlame.Git
