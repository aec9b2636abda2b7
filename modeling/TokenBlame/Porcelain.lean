/-
# TokenBlame.Porcelain -- blame in git's line-by-line format

In this format every line of the blamed file is a record of its own:

* a header with the id of the commit, the line's number there and its number now;
* details of the commit, one a line, a key and a value; git gives them where a commit
  occurs first;
* a tab and the line.

`print` writes the format.  `parse` reads it: unknown keys are passed over, blank
lines between records too, and details that come again replace what was told before.
A record that has no tab line in the rest of the text is refused.  Headers are looked for
between records only: in an open record they pass for details.
-/
import TokenBlame.Blame
import TokenBlame.Error
import TokenBlame.Text.Blank
import TokenBlame.Text.Numeral
import TokenBlame.Text.Quoted

set_option autoImplicit false

namespace TokenBlame.Porcelain

/-! ## Writing -/

/-- A detail, if it is told. -/
def detail (key : String) (value : Option String) : List String :=
  match value with
  | none => []
  | some value => [key ++ " " ++ value]

/-- The details of a commit. -/
def details (record : BlameCommit) : List String :=
  detail "author" record.author ++ detail "author-mail" record.authorMail ++
    detail "author-time" (record.authorTime.map toString) ++ detail "author-tz" record.authorZone ++
    detail "committer" record.committer ++ detail "committer-mail" record.committerMail ++
    detail "committer-time" (record.committerTime.map toString) ++
    detail "committer-tz" record.committerZone ++ detail "summary" record.summary ++
    (if record.boundary then ["boundary"] else []) ++ detail "previous" record.previous ++
    detail "filename" record.filename

/-- The record of a line; `known` are the commits whose details were given before. -/
def record (commits : Table String BlameCommit) (known : List String) (line : BlameLine) :
    List String :=
  (line.commit ++ " " ++ toString line.numberThen ++ " " ++ toString line.numberNow) ::
    (if known.contains line.commit then []
      else ((commits.get? line.commit).map details).getD []) ++
    ["\t" ++ line.context]

/-- The records of lines in order. -/
def recordsFrom (commits : Table String BlameCommit) (known : List String) :
    List BlameLine → List String
  | [] => []
  | line :: rest =>
      record commits known line ++ recordsFrom commits (line.commit :: known) rest

/-- The text of a blame. -/
def print (blame : Blame) : String :=
  String.join ((recordsFrom blame.commits [] blame.lines).map (· ++ "\n"))

/-! ## Reading -/

/-- A header that was read. -/
structure Header where
  id : String
  numberThen : Nat
  numberNow : Nat
  deriving DecidableEq, Repr

/-- The id of a commit: forty hexadecimal digits or more. -/
def id? (word : List Char) : Option String :=
  if 40 ≤ word.length && word.all Numeral.isHex then some (String.ofList word) else none

/-- The header that a line is. -/
def header (line : List Char) : Except Error Header :=
  match (Blank.words line)[0]?.bind id? with
  | none => .error (.malformedBlame ("bad header line: " ++ Quoted.quote (String.ofList line)))
  | some id =>
      let number? (i : Nat) := (Blank.words line)[i]?.bind (Numeral.unsigned? Numeral.maxWord32)
      match number? 1, number? 2 with
      | some numberThen, some numberNow => .ok ⟨id, numberThen, numberNow⟩
      | _, _ =>
          .error (.malformedBlame ("bad line numbers: " ++ Quoted.quote (String.ofList line)))

/-- A key and its value, which begins behind the first space. -/
def keyValue (line : List Char) : List Char × Option (List Char) :=
  (line.takeWhile (· != ' '),
    if line.contains ' ' then some ((line.dropWhile (· != ' ')).drop 1) else none)

/-- What is told of a commit, after the detail of a key. -/
def tellKey (known : BlameCommit) (key : String) (value : Option (List Char)) : BlameCommit :=
  let text := value.map String.ofList
  let number := value.bind Numeral.signed64?
  match key with
  | "author" => { known with author := text }
  | "author-mail" => { known with authorMail := text }
  | "author-time" => { known with authorTime := number }
  | "author-tz" => { known with authorZone := text }
  | "committer" => { known with committer := text }
  | "committer-mail" => { known with committerMail := text }
  | "committer-time" => { known with committerTime := number }
  | "committer-tz" => { known with committerZone := text }
  | "summary" => { known with summary := text }
  | "boundary" => { known with boundary := true }
  | "previous" =>
      { known with previous := (value.bind fun v => (Blank.words v)[0]?).map String.ofList }
  | "filename" => { known with filename := text }
  | _ => known

/-- What is told of a commit, after one more line of details. -/
def tell (known : BlameCommit) (line : List Char) : BlameCommit :=
  tellKey known (String.ofList (keyValue line).1) (keyValue line).2

/-- Where the reader stands: between records, or in the record of a header. -/
structure Reader where
  /-- The record that is open. -/
  current : Option Header := none
  /-- The lines read so far, last first. -/
  lines : List BlameLine := []
  commits : Table String BlameCommit := ∅

namespace Reader

/-- Read one line between records: a blank line or a header. -/
def between (reader : Reader) (line : List Char) : Except Error Reader :=
  if (Blank.trim line).isEmpty then .ok reader
  else
    match header line with
    | .error error => .error error
    | .ok head =>
        .ok { reader with
          current := some head
          commits := Blame.remember reader.commits { id := head.id } }

/-- Read one line of the record of `head`: a detail, or the tab line that ends it. -/
def inside (reader : Reader) (head : Header) (line : List Char) : Reader :=
  match line with
  | '\t' :: content =>
      { reader with
        current := none
        lines := { commit := head.id, context := String.ofList content,
                   numberThen := head.numberThen, numberNow := head.numberNow } :: reader.lines }
  | _ =>
      let known := (reader.commits.get? head.id).getD { id := head.id }
      { reader with commits := reader.commits.insert head.id (tell known line) }

/-- Read one line. -/
def step (reader : Reader) (line : List Char) : Except Error Reader :=
  match reader.current with
  | none => reader.between line
  | some head => .ok (reader.inside head line)

/-- The blame that was read, unless a record is open. -/
def finish (reader : Reader) : Except Error Blame :=
  match reader.current with
  | none => .ok ⟨reader.lines.reverse, reader.commits⟩
  | some head => .error (.malformedBlame ("missing content line for commit " ++ head.id))

end Reader

/-- Read lines one after the other. -/
def readLines (reader : Reader) : List (List Char) → Except Error Reader
  | [] => .ok reader
  | line :: rest =>
      match reader.step line with
      | .error error => .error error
      | .ok next => readLines next rest

/-- The blame that a text describes. -/
def parse (output : String) : Except Error Blame :=
  match readLines {} (Pieces.split '\n' output.toList) with
  | .error error => .error error
  | .ok reader => reader.finish

end TokenBlame.Porcelain
