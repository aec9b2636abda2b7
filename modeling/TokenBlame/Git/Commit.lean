/-
# TokenBlame.Git.Commit -- commits and who made them

A commit holds its snapshot by value and its parents by name.  Its own name is that
of its object.  A signature is clean when name and email are not empty and carry no
blanks or punctuation at their ends; `Signature.clean` makes it so or refuses.

A message is stored as it was given.  It is read without its leading newlines and only
up to the first NUL, and reads as the empty text when it is not valid UTF-8.
-/
import TokenBlame.Error
import TokenBlame.Git.Snapshot
import TokenBlame.Text.Blank
import TokenBlame.Text.Date

set_option autoImplicit false

namespace TokenBlame.Git

/-! ## Signatures -/

/-- Who made a commit, and when. -/
structure Signature where
  name : Bytes
  email : Bytes
  /-- Seconds since 1970. -/
  time : Int
  /-- Offset from universal time in minutes. -/
  offset : Int
  deriving DecidableEq, Repr

namespace Signature

/-- A byte that is taken off the ends of a name. -/
def isCrud (b : UInt8) : Bool :=
  b ≤ 0x20 || b == 0x2C || b == 0x3A || b == 0x3B || b == 0x22 || b == 0x5C || b == 0x27

/-- A name without such bytes at its ends. -/
def trim (bytes : Bytes) : Bytes :=
  ((bytes.dropWhile isCrud).reverse.dropWhile isCrud).reverse

/-- The signature of a name and an email. -/
def clean (name email : String) (time offset : Int) : Except GitFault Signature :=
  let name := Utf8.encode name
  let email := Utf8.encode email
  if name.contains 0 || email.contains 0 then
    .error .embeddedNul
  else if (name ++ email).any fun b => b == 0x3C || b == 0x3E then
    .error { text := "failed to parse signature - neither `name` nor `email` should contain angle brackets chars" }
  else if (trim name).isEmpty || (trim email).isEmpty then
    .error { text := "failed to parse signature - signature cannot have an empty name or email" }
  else .ok ⟨trim name, trim email, time, offset⟩

/-- A signature as a commit holds it. -/
def line (s : Signature) : Bytes :=
  s.name ++ Utf8.encode " <" ++ s.email ++
    Utf8.encode ("> " ++ toString s.time ++ " " ++ Date.zone s.offset)

end Signature

/-! ## Commits -/

/-- A commit. -/
structure Commit where
  id : ObjectId
  tree : Snapshot
  parents : List ObjectId
  author : Signature
  committer : Signature
  /-- The message as it was given. -/
  rawMessage : Bytes
  deriving DecidableEq

namespace Commit

/-- The bytes of a commit object. -/
def body (tree : ObjectId) (parents : List ObjectId) (author committer : Signature)
    (message : Bytes) : Bytes :=
  Utf8.encode ("tree " ++ tree.hex ++ "\n") ++
    (parents.flatMap fun parent => Utf8.encode ("parent " ++ parent.hex ++ "\n")) ++
    Utf8.encode "author " ++ author.line ++ Utf8.encode "\ncommitter " ++ committer.line ++
    Utf8.encode "\n\n" ++ message

/-- The commit of a snapshot. -/
def create (tree : Snapshot) (parents : List ObjectId) (author committer : Signature)
    (message : Bytes) : Commit :=
  { id := .ofObject "commit" (body tree.treeId parents author committer message)
    tree, parents, author, committer, rawMessage := message }

/-- The message up to its first NUL and without its leading newlines. -/
def messageBytes (commit : Commit) : Bytes :=
  (commit.rawMessage.takeWhile (· != 0)).dropWhile (· == 0x0A)

/-- The message as text; empty if it is not valid UTF-8. -/
def message (commit : Commit) : String :=
  (Utf8.decode? commit.messageBytes).getD ""

/-! ## Summaries -/

/-- The first paragraph of a message: up to a newline behind which nothing or a line
of white space follows. -/
def paragraph : Bytes → Bytes
  | [] => []
  | b :: rest =>
      if b == 0x0A && (rest.takeWhile (· != 0x0A)).all Blank.isBlankByte then []
      else b :: paragraph rest

/-- Make one space of every run of white space that holds a newline. -/
def joinLines (bytes : Bytes) : Bytes :=
  let flush := fun (run rest : Bytes) => (if run.contains 0x0A then [0x20] else run) ++ rest
  let (run, rest) := bytes.foldr (fun b (run, rest) =>
    if Blank.isBlankByte b then (b :: run, rest) else ([], b :: flush run rest))
    (([] : Bytes), ([] : Bytes))
  flush run rest

/-- The first paragraph of the message on one line, if it is valid UTF-8. -/
def summary? (commit : Commit) : Option String :=
  let first := paragraph commit.messageBytes
  Utf8.decode? (joinLines (first.reverse.dropWhile Blank.isBlankByte).reverse)

/-- A space, a tab or a carriage return. -/
def isGap (b : UInt8) : Bool :=
  b == 0x20 || b == 0x09 || b == 0x0D

/-- The first line of the message that does not consist of gaps; the name of the commit
when there is none. -/
def subject (commit : Commit) : Bytes :=
  match (Pieces.split 0x0A commit.messageBytes).find? fun line => !line.all isGap with
  | some line => line
  | none => Utf8.encode ("(" ++ commit.id.hex ++ ")")

end Commit

end TokenBlame.Git
