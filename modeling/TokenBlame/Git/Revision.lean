/-
# TokenBlame.Git.Revision -- texts that name a commit

A revision is a base and a number of steps back from it.  The base is HEAD, also
written `@`, a branch, or the name of a commit, in full or cut off behind at least four
digits as long as no other object has a name that begins so.  The steps are `^` and `^n`
to a parent, `~n` to the n-th first parent, and `^{commit}`, which stays.

In a revision that names nothing `resolve` says so with the whole text.
-/
import TokenBlame.Git.Repository

set_option autoImplicit false

namespace TokenBlame.Git

/-- A step from a commit. -/
inductive Revision.Step where
  /-- To the parent of a number, counted from one; zero stays. -/
  | parent (number : Nat)
  /-- To the first parent, a number of times. -/
  | back (count : Nat)
  deriving DecidableEq, Repr

/-- A base and steps from it. -/
structure Revision where
  base : List Char
  steps : List Revision.Step
  deriving DecidableEq, Repr

namespace Revision

/-! ## Reading -/

/-- A character that begins a step. -/
def isMark (c : Char) : Bool := c == '^' || c == '~'

/-- The text before the first mark, and the texts that begin at each mark. -/
def cut (text : List Char) : List Char × List (List Char) :=
  text.foldr (fun c (piece, pieces) =>
    if isMark c then ([], (c :: piece) :: pieces) else (c :: piece, pieces)) ([], [])

/-- A number written in decimal digits; one where there is none. -/
def count? (text : List Char) : Option Nat :=
  if text.isEmpty then some 1
  else if text.all Char.isDigit then Numeral.digits? text else none

/-- The step that a text spells. -/
def step? : List Char → Option Step
  | '~' :: rest => (count? rest).map .back
  | '^' :: rest =>
      if rest = "\x7bcommit\x7d".toList || rest = "\x7b\x7d".toList then some (.parent 0)
      else (count? rest).map .parent
  | _ => none

/-- The name of HEAD; an at sign is short for it. -/
def headName : List Char := "HEAD".toList

/-- The revision that a text spells. -/
def parse? (text : String) : Option Revision :=
  let (base, pieces) := cut text.toList
  (pieces.mapM step?).map fun steps => ⟨if base = ['@'] then headName else base, steps⟩

/-! ## Looking up -/

/-- The ways to spell a branch: its name with or without the directories above it. -/
def branchNames (base : String) : List String :=
  ["refs/heads/", "heads/", ""].filterMap fun lead =>
    if lead.toList.isPrefixOf base.toList then
      some (String.ofList (base.toList.drop lead.length))
    else none

/-- The commit that a name or an unambiguous beginning of it means. -/
def abbreviated? (repository : Repository) (base : List Char) : Option ObjectId :=
  let begins := fun (id : ObjectId) => (base.map Char.toLower).isPrefixOf id.hex.toList
  if 4 ≤ base.length && base.length ≤ 40 && base.all Numeral.isHex then
    match repository.commits.filter fun commit => begins commit.id with
    | [commit] =>
        if base.length < 40 && repository.isOtherObject begins then none else some commit.id
    | _ => none
  else none

/-- The commit that a base means. -/
def base? (repository : Repository) (base : List Char) : Option ObjectId :=
  let whole := if base.length = 40 then abbreviated? repository base else none
  let head := if base = headName then repository.headId? else none
  let names := (branchNames (String.ofList base)).filter fun name => !name.isEmpty
  let branch := names.findSome? fun name => repository.branches.get? name
  (whole.or (head.or (branch.or (abbreviated? repository base)))).filter fun id =>
    (repository.find? id).isSome

/-- The commit that a step leads to. -/
def Step.follow? (repository : Repository) (id : ObjectId) : Step → Option ObjectId
  | .parent 0 => some id
  | .parent (n + 1) => (repository.find? id).bind fun commit => commit.parents[n]?
  | .back 0 => some id
  | .back (n + 1) => do
      let commit ← repository.find? id
      Step.follow? repository (← commit.parents.head?) (.back n)

end Revision

namespace Repository

/-- The commit that a revision names. -/
def resolve? (repository : Repository) (revision : String) : Option ObjectId := do
  let ⟨base, steps⟩ ← Revision.parse? revision
  steps.foldlM (fun id step => step.follow? repository id) (← Revision.base? repository base)

/-- The commit that a revision names, or an error that tells the revision. -/
def resolve (repository : Repository) (revision : String) : Except Error ObjectId :=
  match repository.resolve? revision with
  | some id => .ok id
  | none => .error (.commitNotFound revision)

/-- The commit whose name is spelt in full. -/
def named (repository : Repository) (id : String) : Except Error Commit :=
  match (ObjectId.parse? id).bind repository.find? with
  | some commit => .ok commit
  | none => .error (.commitNotFound id)

end Repository

end TokenBlame.Git
