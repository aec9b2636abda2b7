/-
# TokenBlame.Page -- an attributed file as a page or as a document

A page shows the text of the file between `<pre>` and `</pre>`, a line a line.  Every
fragment of a commit is a link to the id of the commit in the commit's colour; other
text stands as it is.  In the text the four characters that mean something in HTML
are written as entities.
-/
import TokenBlame.AttributedFile
import TokenBlame.Json.Printer

set_option autoImplicit false

namespace TokenBlame.Page

/-- The forms in which an attributed file is printed. -/
inductive Format where
  | html
  | json
  deriving DecidableEq, Repr

/-- A character of the text. -/
def escape (c : Char) : List Char :=
  if c = '&' then ['&', 'a', 'm', 'p', ';']
  else if c = '<' then ['&', 'l', 't', ';']
  else if c = '>' then ['&', 'g', 't', ';']
  else if c = '"' then ['&', 'q', 'u', 'o', 't', ';']
  else [c]

/-- A text without characters that mean something. -/
def escapeText (text : String) : String :=
  String.ofList (text.toList.flatMap escape)

/-- The colour of text whose commit is not in the table. -/
def defaultColor : String := "#000000"

/-- The colour of a commit; of several entries of one commit the last one counts. -/
def color (commits : List AttributedCommit) (id : String) : String :=
  match commits.reverse.find? fun commit => commit.source == id with
  | some commit => commit.color
  | none => defaultColor

/-- A fragment: a link if it has a commit. -/
def fragment (commits : List AttributedCommit) (fragment : Fragment) : String :=
  match fragment.commit with
  | none => escapeText fragment.text
  | some id =>
      "<a href=\"" ++ id ++ "\" style=\"color: " ++ color commits id ++ ";\">" ++
        escapeText fragment.text ++ "</a>"

/-- A line with the newline that ends it. -/
def line (commits : List AttributedCommit) (line : AttributedLine) : String :=
  String.join (line.fragments.map (fragment commits)) ++ "\n"

/-- What stands before the first line. -/
def top : String :=
  "<html>\n<head>\n<title>Blame</title>\n</head>\n<body>\n<pre>\n"

/-- What stands behind the last line. -/
def bottom : String :=
  "</pre>\n</body>\n</html>\n"

/-- The page of an attributed file. -/
def html (file : AttributedFile) : String :=
  top ++ String.join (file.lines.map (line file.commits)) ++ bottom

/-- An attributed file in one of the forms. -/
def render (format : Format) (file : AttributedFile) : String :=
  match format with
  | .html => html file
  | .json => file.toJson.pretty

end TokenBlame.Page
