/-
# TokenBlame.Server -- the blame server's routes

There are three routes: `/api/v1/blame` and `/blame` show the blame of a file, as JSON
and as a page, and `/api/v1/files` lists the files of a revision.  The query names the
path and the revision, which is HEAD by default.

`handle` is the answer to one request.  Errors are answered as JSON: 404 for what was
not found, 400 for a bad path, 500 for anything else.
-/
import TokenBlame.Page
import TokenBlame.Request
import TokenBlame.Text.Form
import TokenBlame.Viewer

set_option autoImplicit false

namespace TokenBlame

/-- The answer to a request; the content type is empty where there is none. -/
structure Response where
  status : Nat
  contentType : String := ""
  body : String := ""
  deriving DecidableEq, Repr

namespace Response

/-- A JSON document. -/
def json (status : Nat) (document : Json) : Response :=
  ⟨status, "application/json", document.compact⟩

/-- The status of an error. -/
def statusOf (error : Error) : Nat :=
  if error.isNotFound then 404
  else
    match error with
    | .invalidPath _ => 400
    | _ => 500

/-- The answer for an error. -/
def ofError (error : Error) : Response :=
  json (statusOf error) (.ofMembers [("error", .ofString error.message)])

/-- What a status is called. -/
def phrase : Nat → String
  | 200 => "OK"
  | 400 => "Bad Request"
  | 404 => "Not Found"
  | 405 => "Method Not Allowed"
  | _ => "Internal Server Error"

/-- A response as it is sent. -/
def print (response : Response) : String :=
  "HTTP/1.1 " ++ toString response.status ++ " " ++ phrase response.status ++ "\r\n" ++
    (if response.contentType.isEmpty then ""
      else "content-type: " ++ response.contentType ++ "\r\n") ++
    "content-length: " ++ toString response.body.utf8ByteSize ++ "\r\n\r\n" ++ response.body

end Response

namespace Server

/-- The routes. -/
inductive Route where
  | blameDocument
  | blamePage
  | files
  deriving DecidableEq, Repr

/-- The route of a path. -/
def Route.ofPath? : String → Option Route
  | "/api/v1/blame" => some blameDocument
  | "/blame" => some blamePage
  | "/api/v1/files" => some files
  | _ => none

/-- The fields that the query of a route has; the others are passed over. -/
def Route.fields : Route → List String
  | blameDocument => ["path", "rev"]
  | blamePage => ["path", "rev"]
  | files => ["rev"]

/-- The revision where the query names none. -/
def defaultRevision : String := "HEAD"

/-- The first name that was seen before. -/
def firstRepeated (seen : List String) : List String → Option String
  | [] => none
  | name :: rest => if seen.contains name then some name else firstRepeated (name :: seen) rest

/-- The value of a field in a query. -/
def value? (query : List (String × String)) (field : String) : Option String :=
  query.lookup field

/-- The answer to a query that cannot be read. -/
def badQuery (reason : String) : Response :=
  ⟨400, "text/plain; charset=utf-8", "Failed to deserialize query string: " ++ reason⟩

/-- A field name as an error has it. -/
def quoted (field : String) : String := "\x60" ++ field ++ "\x60"

/-- The answer of a route that shows a file. -/
def showFile (viewer : Viewer) (source : RevisionSource) (repository : Git.Repository)
    (revision path : String) (format : AttributedFile → Response) : Response × Viewer :=
  match viewer.annotate source repository revision path with
  | (.error error, next) => (.ofError error, next)
  | (.ok file, next) => (format file, next)

/-- The answer of a route to a query. -/
def Route.answer (route : Route) (viewer : Viewer) (source : RevisionSource)
    (repository : Git.Repository) (query : List (String × String)) : Response × Viewer :=
  let known := query.filter fun field => route.fields.contains field.1
  let revision := (value? known "rev").getD defaultRevision
  match firstRepeated [] (known.map (·.1)) with
  | some field => (badQuery ("duplicate field " ++ quoted field), viewer)
  | none =>
      match route, value? known "path" with
      | .files, _ =>
          match Destination.treePaths repository revision with
          | .error error => (.ofError error, viewer)
          | .ok paths => (.json 200 (.array (paths.map .ofString)), viewer)
      | _, none => (badQuery ("missing field " ++ quoted "path"), viewer)
      | .blameDocument, some path =>
          showFile viewer source repository revision path fun file => .json 200 file.toJson
      | .blamePage, some path =>
          showFile viewer source repository revision path fun file =>
            ⟨200, "text/html; charset=utf-8", Page.html file⟩

/-- The answer to a request.  A HEAD request is answered like a GET request, without the
body. -/
def handle (viewer : Viewer) (source : RevisionSource) (repository : Git.Repository)
    (request : Request) : Response × Viewer :=
  match Route.ofPath? request.path with
  | none => ({ status := 404 }, viewer)
  | some route =>
      let query := Form.pairs request.query
      if request.method = "GET" then route.answer viewer source repository query
      else if request.method = "HEAD" then
        let (response, next) := route.answer viewer source repository query
        ({ response with body := "" }, next)
      else ({ status := 405 }, viewer)

/-- What is answered to a request that cannot be read. -/
def badRequest : Response := { status := 400 }

/-- Method and target of the first line of a request. -/
def requestLine? (line : String) : Option (String × String) :=
  match Blank.words line.toList with
  | [method, target, _] => some (String.ofList method, String.ofList target)
  | _ => none

end Server

end TokenBlame
