/-
# TokenBlame.Git.Stream -- a whole repository as one stream

`git fast-export` tells a repository as a stream and `git fast-import` reads one: lines
of text, and runs of bytes with their number in front.  Blobs and commits carry marks,
and what comes later refers to them by these.

`print` writes a repository in this form, each commit with all of its files.  `read?`
reads it, also where a commit tells only what it changes.  Tags, signatures and what
only advises the reader are passed over; copies, renames and notes are not read.
-/
import TokenBlame.Git.QuotedPath
import TokenBlame.Git.Repository

set_option autoImplicit false

namespace TokenBlame.Git.Stream

/-! ## The parts of a stream -/

/-- A part of a stream. -/
inductive Item where
  | line (text : Bytes)
  | data (bytes : Bytes)
  deriving DecidableEq, Repr

/-- The newline behind every line. -/
def newline : UInt8 := 0x0A

/-- The words in front of what a line tells. -/
structure Words where
  tag : String
  rest : Bytes

/-- The first word of a line, and what follows the space behind it. -/
def words (line : Bytes) : Words :=
  ⟨Utf8.decodeLossy (line.takeWhile (· != 0x20)), (line.dropWhile (· != 0x20)).drop 1⟩

/-- A text of digits as a number. -/
def number? (digits : Bytes) : Option Nat :=
  Numeral.digits? (Utf8.decodeLossyChars digits)

/-- The parts of a stream; at most `count` of them are read.  A run of bytes has to be
complete. -/
def cut? : Nat → Bytes → Option (List Item)
  | _, [] => some []
  | 0, _ => none
  | count + 1, stream =>
      let text := stream.takeWhile (· != newline)
      let rest := stream.drop (text.length + 1)
      let line := words text
      if line.tag = "data" then
        match number? line.rest with
        | none => none
        | some size =>
            if rest.length < size then none
            else (cut? count (rest.drop size)).map (.data (rest.take size) :: ·)
      else (cut? count rest).map (if text.isEmpty then id else (.line text :: ·))

/-- A part as it stands in a stream. -/
def Item.print : Item → Bytes
  | line text => text ++ [newline]
  | data bytes => Utf8.encode ("data " ++ toString bytes.length ++ "\n") ++ bytes ++ [newline]

/-! ## Writing -/

/-- A line of text. -/
def lineOf (text : String) : Item := .line (Utf8.encode text)

/-- The name of a branch among references. -/
def reference (branch : String) : String := "refs/heads/" ++ branch

/-- A file of a commit. -/
def fileItems (path : TreePath) (entry : Entry) : List Item :=
  let line := fun (what : String) =>
    Item.line (Utf8.encode ("M " ++ entry.mode ++ " " ++ what ++ " ") ++ QuotedPath.quote path.join)
  match entry.content? with
  | some content => [line "inline", .data content]
  | none => [line entry.id.hex]

/-- A commit with all of its files; `mark` is the number that stands for a commit. -/
def commitItems (branch : String) (mark : ObjectId → Nat) (commit : Commit) : List Item :=
  let leads := "from " :: List.replicate commit.parents.length "merge "
  [lineOf ("reset " ++ reference branch), lineOf ("commit " ++ reference branch),
    lineOf ("mark :" ++ toString (mark commit.id)),
    .line (Utf8.encode "author " ++ commit.author.line),
    .line (Utf8.encode "committer " ++ commit.committer.line), .data commit.rawMessage] ++
    ((leads.zip commit.parents).map fun (lead, id) => lineOf (lead ++ ":" ++ toString (mark id))) ++
    lineOf "deleteall" :: commit.tree.inOrder.flatMap fun entry => fileItems entry.1 entry.2

/-- A repository: its commits with the oldest first, and then its branches. -/
def items (repository : Repository) : List Item :=
  let oldestFirst := repository.commits.reverse
  let mark := fun id => oldestFirst.findIdx (fun commit => commit.id == id) + 1
  lineOf "feature done" ::
    oldestFirst.flatMap (commitItems repository.head mark) ++
    lineOf ("reset " ++ reference repository.head) ::
    (repository.branches.entries.flatMap fun (branch, id) =>
      [lineOf ("reset " ++ reference branch), lineOf ("from :" ++ toString (mark id))]) ++
    [lineOf "done"]

/-- A repository as a stream. -/
def print (repository : Repository) : Bytes :=
  (items repository).flatMap Item.print

/-! ## Reading -/

/-- A commit of which not all was told yet. -/
structure Draft where
  branch : String
  mark : Option Nat := none
  author : Option Signature := none
  committer : Option Signature := none
  message : Bytes := []
  parents : List ObjectId := []
  tree : Snapshot := ∅

/-- What the lines are about that come next. -/
inductive Topic where
  | nothing
  | blob (mark : Option Nat)
  | branch (name : String)
  | commit (draft : Draft)
  /-- A file of a commit: the bytes come next. -/
  | file (draft : Draft) (mode : String) (path : TreePath)

/-- What was read so far. -/
structure Reader where
  repository : Repository := {}
  blobs : Table Nat Bytes := ∅
  marks : Table Nat ObjectId := ∅
  topic : Topic := .nothing

namespace Reader

/-- The commit that a line refers to, by its mark or by its name. -/
def commit? (reader : Reader) : Bytes → Option ObjectId
  | 0x3A :: digits => (number? digits).bind reader.marks.get?
  | name => ObjectId.parse? (Utf8.decodeLossy name)

/-- The signature that a line gives: name, email, seconds and offset. -/
def signature? (line : Bytes) : Option Signature := do
  let rest := (line.dropWhile (· != 0x3C)).drop 1
  match Blank.words (Utf8.decodeLossyChars ((rest.dropWhile (· != 0x3E)).drop 1)) with
  | [seconds, sign :: digits] =>
      let clock ← Numeral.digits? digits
      let minutes : Int := clock / 100 * 60 + clock % 100
      return ⟨(line.takeWhile (· != 0x3C)).dropLast, rest.takeWhile (· != 0x3E),
        ← Numeral.signed64? seconds, if sign = '-' then -minutes else minutes⟩
  | _ => none

/-- The entry of a mode and its bytes. -/
def entryOf? (mode : String) (content : Bytes) : Option Entry :=
  match mode with
  | "100644" => some (.file content false)
  | "100755" => some (.file content true)
  | "120000" => some (.link content)
  | _ => none

/-- Store the commit of which all was told, if there is one. -/
def finish (reader : Reader) : Option Reader :=
  match reader.topic with
  | .commit draft => do
      let committer ← draft.committer
      let made := Commit.create draft.tree draft.parents (draft.author.getD committer) committer
        draft.message
      return { reader with
        repository := (reader.repository.store made).point draft.branch made.id
        marks := match draft.mark with
          | some mark => reader.marks.insert mark made.id
          | none => reader.marks
        topic := .nothing }
  | .file .. => none
  | _ => some { reader with topic := .nothing }

/-- The branch of a reference. -/
def branchOf (text : Bytes) : String :=
  let lead := Utf8.encode (reference "")
  Utf8.decodeLossy (if lead.isPrefixOf text then text.drop lead.length else text)

/-- One more parent of a commit; the first one's files are there to begin with. -/
def addParent (reader : Reader) (draft : Draft) (id : ObjectId) : Draft :=
  { draft with
    parents := draft.parents ++ [id]
    tree := if draft.parents.isEmpty then ((reader.repository.find? id).map (·.tree)).getD ∅
      else draft.tree }

/-- A commit that begins, on top of its branch. -/
def draft (reader : Reader) (branch : String) : Draft :=
  match reader.repository.branches.get? branch with
  | some id => addParent reader { branch } id
  | none => { branch }

/-- A file of a commit: mode, place of the bytes and path. -/
def modify (reader : Reader) (draft : Draft) (told : Bytes) : Option Topic := do
  let ⟨mode, rest⟩ := words told
  let ⟨content, path⟩ := words rest
  let path := TreePath.split (← QuotedPath.unquote? path)
  if content = "inline" then return .file draft mode path
  else if mode = "160000" then
    let entry := Entry.submodule (← ObjectId.parse? content)
    return .commit { draft with tree := draft.tree.place path entry }
  else
    match Utf8.encode content with
    | 0x3A :: digits =>
        let entry ← entryOf? mode (← (number? digits).bind reader.blobs.get?)
        return .commit { draft with tree := draft.tree.place path entry }
    | _ => none

/-- A line about a commit. -/
def commitLine (reader : Reader) (draft : Draft) (line : Words) : Option Topic :=
  match line.tag with
  | "mark" => some (.commit { draft with mark := number? (line.rest.drop 1) })
  | "author" => (signature? line.rest).map fun s => .commit { draft with author := some s }
  | "committer" => (signature? line.rest).map fun s => .commit { draft with committer := some s }
  | "from" => (reader.commit? line.rest).map fun id =>
      .commit (reader.addParent { draft with parents := [] } id)
  | "merge" => (reader.commit? line.rest).map fun id => .commit (reader.addParent draft id)
  | "deleteall" => some (.commit { draft with tree := ∅ })
  | "D" => (QuotedPath.unquote? line.rest).map fun path =>
      let path := TreePath.split path
      .commit { draft with tree := draft.tree.filter fun p _ => !path.isPrefixOf p }
  | "M" => modify reader draft line.rest
  | _ => none

/-- Whether a line only advises the reader or belongs to a tag. -/
def isPassedOver (tag : String) : Bool :=
  ["feature", "option", "progress", "checkpoint", "done", "tag", "tagger", "encoding"].contains tag

/-- A line that begins something new. -/
def openingLine (reader : Reader) (line : Words) : Option Reader := do
  let reader ← reader.finish
  match line.tag with
  | "blob" => return { reader with topic := .blob none }
  | "commit" => return { reader with topic := .commit (reader.draft (branchOf line.rest)) }
  | "reset" =>
      let branch := branchOf line.rest
      let branches := reader.repository.branches.erase branch
      return { reader with repository.branches := branches, topic := .branch branch }
  | tag => if isPassedOver tag then return reader else none

/-- Read one part. -/
def step (reader : Reader) : Item → Option Reader
  | .data bytes =>
      match reader.topic with
      | .blob mark =>
          some { reader with
            blobs := match mark with
              | some mark => reader.blobs.insert mark bytes
              | none => reader.blobs
            topic := .nothing }
      | .commit draft => some { reader with topic := .commit { draft with message := bytes } }
      | .file draft mode path => (entryOf? mode bytes).map fun entry =>
          { reader with topic := .commit { draft with tree := draft.tree.place path entry } }
      | _ => some reader
  | .line text =>
      let line := words text
      match reader.topic with
      | .commit draft =>
          if isPassedOver line.tag && line.tag != "tag" && line.tag != "done" then some reader
          else
            match reader.commitLine draft line with
            | some topic => some { reader with topic }
            | none => reader.openingLine line
      | .blob _ =>
          if line.tag = "mark" then some { reader with topic := .blob (number? (line.rest.drop 1)) }
          else if isPassedOver line.tag then some reader
          else none
      | .branch name =>
          if line.tag = "from" then
            (reader.commit? line.rest).map fun id =>
              { reader with repository := reader.repository.point name id, topic := .nothing }
          else reader.openingLine line
      | .file .. => none
      | .nothing =>
          if line.tag = "from" || line.tag = "mark" then some reader else reader.openingLine line

end Reader

/-- The branch that HEAD names: `master`, or else the first one. -/
def headOf (repository : Repository) : String :=
  if (repository.branches.get? "master").isSome then "master"
  else repository.branches.keys.head?.getD "master"

/-- The repository that a stream tells; none if it is not a stream. -/
def read? (stream : Bytes) : Option Repository := do
  match ← cut? (stream.length + 1) stream with
  | [] => none
  | items =>
      let reader ← items.foldlM Reader.step {}
      let repository := (← reader.finish).repository
      return { repository with head := headOf repository }

end TokenBlame.Git.Stream
