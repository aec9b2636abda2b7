/-
# TokenBlame.Git.History -- the commits behind a commit, in order

`unwind` puts a set of commits into an order in which every commit comes after its
parents: commits are emitted children first, each one only after all its children, and
the emitted list is turned round.  Where several commits could be emitted a `Queue`
decides: `stacked` takes the one that became free last, `byTime` the newest.

`history` is the history of HEAD by time, `listing` the history between two commits.
-/
import TokenBlame.Git.Walk

set_option autoImplicit false

namespace TokenBlame.Git

namespace History

/-! ## Waiting lines -/

/-- How commits wait to be emitted: how one joins the line, and which is next. -/
structure Queue where
  join : Commit → List Commit → List Commit
  /-- The commit that is emitted next, and the line without it. -/
  next? : List Commit → Option (Commit × List Commit)

/-- The commit that became free last is emitted first. -/
def stacked : Queue where
  join := List.cons
  next?
    | [] => none
    | commit :: line => some (commit, line)

/-- Whether a commit is older than another. -/
def isOlder (commit other : Commit) : Bool :=
  commit.committer.time < other.committer.time

/-- Move a commit up the heap from a position that is free for it: older commits on the
way to the root move down. -/
def siftUp (commit : Commit) : Nat → Nat → List Commit → List Commit
  | 0, position, heap => heap.set position commit
  | _, 0, heap => heap.set 0 commit
  | count + 1, position + 1, heap =>
      match heap[position / 2]? with
      | none => heap.set (position + 1) commit
      | some parent =>
          if isOlder parent commit then
            siftUp commit count (position / 2) (heap.set (position + 1) parent)
          else heap.set (position + 1) commit

/-- The position of the newer of the commits below a position; the left one of two that
are equally new. -/
def below? (position : Nat) (heap : List Commit) : Option (Nat × Commit) :=
  match heap[2 * position + 1]?, heap[2 * position + 2]? with
  | some left, some right =>
      some (if isOlder left right then (2 * position + 2, right) else (2 * position + 1, left))
  | some left, none => some (2 * position + 1, left)
  | none, _ => none

/-- Move a commit down the heap from a position that is free for it: newer commits move
up. -/
def siftDown (commit : Commit) : Nat → Nat → List Commit → List Commit
  | 0, position, heap => heap.set position commit
  | count + 1, position, heap =>
      match below? position heap with
      | some (child, other) =>
          if isOlder commit other then siftDown commit count child (heap.set position other)
          else heap.set position commit
      | none => heap.set position commit

/-- The newest commit is emitted first.  The line is a binary heap, which decides between
commits that are equally new. -/
def byTime : Queue where
  join commit heap := siftUp commit heap.length heap.length (heap ++ [commit])
  next? heap :=
    match heap, heap.getLast? with
    | newest :: _, some last =>
        let rest := heap.dropLast
        some (newest, siftDown last rest.length 0 rest)
    | _, _ => none

/-! ## Emission -/

/-- Whether a commit is a parent of some other. -/
def hasChild (commits : List Commit) (commit : Commit) : Bool :=
  commits.any fun child => child.parents.contains commit.id

/-- The parents of a commit among some commits, in order; one that is named twice
counts where it is named last. -/
def parentsIn (commits : List Commit) (commit : Commit) : List Commit :=
  commit.parents.reverse.eraseDups.reverse.filterMap fun id => commits.find? fun c => c.id == id

/-- Emit the commits of the waiting line and, as they become free, those of `rest`. -/
def emit (queue : Queue) : Nat → List Commit → List Commit → List Commit
  | 0, _, _ => []
  | count + 1, waiting, rest =>
      match queue.next? waiting with
      | none => []
      | some (commit, line) =>
          let free := (parentsIn rest commit).filter fun parent => !hasChild (line ++ rest) parent
          commit :: emit queue count (free.foldl (fun line parent => queue.join parent line) line)
            (rest.filter fun other => !free.contains other)

/-- A set of commits in an order in which parents come first. -/
def unwind (queue : Queue) (commits : List Commit) : List Commit :=
  let tips := commits.filter fun commit => !hasChild commits commit
  (emit queue commits.length (tips.foldl (fun line tip => queue.join tip line) [])
    (commits.filter fun commit => !tips.contains commit)).reverse

end History

namespace Repository

/-- The commits behind HEAD, oldest first, by time where the order is free. -/
def history (repository : Repository) : List Commit :=
  match repository.headId? with
  | none => []
  | some head => History.unwind History.byTime (repository.between head [])

/-- The commits that lead back from `tip` and not from `hidden`, parents first. -/
def listing (repository : Repository) (tip : ObjectId) (hidden : List ObjectId) : List Commit :=
  History.unwind History.stacked (repository.between tip hidden)

end Repository

end TokenBlame.Git
