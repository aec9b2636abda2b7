/-
# TokenBlame.SourceCommit -- a commit of the source repository

What is kept of a source commit: its id and parents, its description and date,
the paths it touched, and which of them were copied or renamed from another path.
Paths that are not valid UTF-8 cannot be replayed and are kept apart.

`toJson` and `ofJson?` are the two directions of its JSON form: an object with one
member a field, or, for reading, an array of the fields in order.  A reader passes
over members it does not know, refuses a field that occurs twice, and takes the list
of unreadable paths to be empty when it is not there.
-/
import TokenBlame.Json.Basic
import TokenBlame.Table

set_option autoImplicit false

namespace TokenBlame

/-- A commit of the source repository. -/
structure SourceCommit where
  id : String
  parents : List String
  description : String
  /-- Seconds since 1970. -/
  time : Int
  /-- Offset from universal time in minutes. -/
  offsetMinutes : Int
  /-- Paths added, modified or removed. -/
  touched : List String
  /-- The path that a copied or renamed path comes from. -/
  copies : Table String String
  /-- Touched paths that are not valid UTF-8, as they would be shown. -/
  nonUtf8Paths : List String
  deriving DecidableEq

namespace SourceCommit

/-- Whether a commit has several parents. -/
def isMerge (commit : SourceCommit) : Bool :=
  commit.parents.length > 1

/-! ## Writing -/

/-- The JSON form of a commit; an empty list of unreadable paths is left out. -/
def toJson (commit : SourceCommit) : Json :=
  let members : List (String × Json) := [
    ("id", .ofString commit.id),
    ("parents", .array (commit.parents.map .ofString)),
    ("description", .ofString commit.description),
    ("time", .ofInt commit.time),
    ("offset_minutes", .ofInt commit.offsetMinutes),
    ("touched", .array (commit.touched.map .ofString)),
    ("copies", .ofMembers (commit.copies.entries.map fun (new, old) => (new, .ofString old)))]
  .ofMembers (members ++ if commit.nonUtf8Paths.isEmpty then []
    else [("non_utf8_paths", .array (commit.nonUtf8Paths.map .ofString))])

/-! ## Reading -/

/-- An integer in a range. -/
def integerIn? (range : Int × Int) (json : Json) : Option Int :=
  json.integer?.filter fun n => range.1 ≤ n && n ≤ range.2

/-- A table of texts; the last one of several members of one name counts. -/
def table? (json : Json) : Option (Table String String) := do
  let members ← json.members?
  let entries ← members.mapM fun (name, value) => value.text?.map fun text => (name, text)
  return Table.ofList entries

/-- A commit from the values of its fields. -/
def ofFields? (id parents description time offset touched copies : Json)
    (nonUtf8 : Option Json) : Option SourceCommit := do
  return {
    id := ← id.text?
    parents := ← parents.texts?
    description := ← description.text?
    time := ← integerIn? Numeral.range64 time
    offsetMinutes := ← integerIn? Numeral.range32 offset
    touched := ← touched.texts?
    copies := ← table? copies
    nonUtf8Paths := ← match nonUtf8 with
      | none => some []
      | some paths => paths.texts? }

/-- The value of the only member of a name; none where the name is missing, and
nothing at all where it occurs twice. -/
def field? (members : List (String × Json)) (name : String) : Option (Option Json) :=
  match members.filter fun member => member.1 == name with
  | [] => some none
  | [member] => some (some member.2)
  | _ => none

/-- The value of a member that has to be there once. -/
def required? (members : List (String × Json)) (name : String) : Option Json :=
  (field? members name).join

/-- The commit of a JSON document. -/
def ofJson? : Json → Option SourceCommit
  | .array [id, parents, description, time, offset, touched, copies] =>
      ofFields? id parents description time offset touched copies none
  | .array [id, parents, description, time, offset, touched, copies, nonUtf8] =>
      ofFields? id parents description time offset touched copies (some nonUtf8)
  | .object found => do
      let members ← (Json.object found).members?
      ofFields? (← required? members "id") (← required? members "parents")
        (← required? members "description") (← required? members "time")
        (← required? members "offset_minutes") (← required? members "touched")
        (← required? members "copies") (← field? members "non_utf8_paths")
  | _ => none

end SourceCommit

end TokenBlame
