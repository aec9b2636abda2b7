/-
# TokenBlame.CommentService -- removing comments with the help of a service

A service is asked for every file and answers with a status and a body, or breaks off.
Only a complete answer with the status 200 is a file without comments; after any other
answer the file stays as it is.

A request is a POST of the file to the path `/comment` below the address of the
service, with the name of the file in the query.
-/
import TokenBlame.Error
import TokenBlame.Text.Form

set_option autoImplicit false

namespace TokenBlame

/-- The answer of a comment service to one request. -/
inductive CommentService.Reply where
  /-- A status and a body. -/
  | complete (status : Nat) (body : Bytes)
  /-- The connection ended before the answer did. -/
  | brokenOff
  deriving DecidableEq, Repr

/-- A comment service that can be reached: its answer for a file name and a content. -/
structure CommentService where
  answer : (name : String) → Bytes → CommentService.Reply

namespace CommentService

/-- How to come by a service. -/
inductive Config where
  /-- Start a command. -/
  | spawn (command : String)
  /-- Use the service at an address. -/
  | endpoint (url : String)
  deriving DecidableEq, Repr

/-- The command that is started unless another one is asked for. -/
def defaultCommand : String := "rust-code-analysis-web"

/-- The file without comments, if the answer has it. -/
def Reply.stripped? : Reply → Option Bytes
  | complete status body => if status = 200 then some body else none
  | brokenOff => none

/-- A file after the service was asked. -/
def strip (service : CommentService) (name : String) (content : Bytes) : Bytes :=
  ((service.answer name content).stripped?).getD content

/-! ## Requests -/

/-- A request. -/
structure Request where
  method : String
  target : String
  contentType : String
  body : Bytes
  deriving DecidableEq, Repr

/-- An address without slashes at its end. -/
def trimSlashes (url : String) : String :=
  String.ofList ((url.toList.reverse.dropWhile (· == '/')).reverse)

/-- Whether a byte stands for itself in the path of an address. -/
def isPlainInPath (b : UInt8) : Bool :=
  0x20 < b && b < 0x7F && !(("\"<>`\x7b\x7d".toList.map Char.toNat).contains b.toNat)

/-- The target of a request, below the path and query that the address has. -/
def target (below name : String) : String :=
  let whole := (trimSlashes below ++ "/comment").toList.takeWhile (· != '#')
  let path := String.ofList (whole.takeWhile (· != '?'))
  let query := String.ofList (whole.dropWhile (· != '?'))
  let path := String.ofList ((Utf8.encode path).flatMap fun b =>
    if isPlainInPath b then [Char.ofNat b.toNat] else Form.percent b)
  (if path.isEmpty then "/" else path) ++ (if query.isEmpty then "?" else query ++ "&") ++
    "file_name=" ++ Form.encode name

/-- The request for a file. -/
def request (below name : String) (content : Bytes) : Request :=
  ⟨"POST", target below name, "application/octet-stream", content⟩

end CommentService

end TokenBlame
