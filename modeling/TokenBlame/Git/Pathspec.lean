/-
# TokenBlame.Git.Pathspec -- names that are read as patterns

A list of names selects paths.  The first name, in the order of their bytes, that has
something to say of a path decides.  A name selects the path that it is, everything
inside it if it is a directory without wildcards, and what it matches as a glob; a name
that is `*` selects everything.  A name that begins with `!` refuses what its rest
selects; of what remains it selects itself and everything inside it.

Names are read the way lines of a file with patterns are.  A name that begins with `#`
says nothing, blanks at the end are cut off, and so is everything behind the end of a
line.  Where no name says anything, every path is selected.

Whatever the names say, a path has to begin the way all of them begin, up to the first
wildcard.
-/
import TokenBlame.Git.TreePath
import TokenBlame.Text.Blank
import TokenBlame.Text.Glob

set_option autoImplicit false

namespace TokenBlame.Git.Pathspec

/-! ## Reading names -/

/-- The bytes of a name, each with whether the byte before it escapes it. -/
def marked : Bool → Bytes → List (UInt8 × Bool)
  | _, [] => []
  | true, b :: rest => (b, true) :: marked false rest
  | false, b :: rest => (b, false) :: marked (b == Glob.escape) rest

theorem map_marked (escaped : Bool) (name : Bytes) : (marked escaped name).map (·.1) = name := by
  induction name generalizing escaped with
  | nil => simp [marked]
  | cons b rest ih => cases escaped <;> simp [marked, ih]

/-- The byte before the end of a line that some systems write. -/
def carriageReturn : UInt8 := 0x0D

/-- White space inside a line. -/
def isGap (b : UInt8) : Bool :=
  b == 0x20 || b == 0x09

/-- The beginning of a name, up to the end of a line or a page that is not escaped. -/
def firstLine (name : Bytes) : Bytes :=
  ((marked false name).takeWhile fun (b, escaped) =>
    escaped || !Blank.isBlankByte b || isGap b || b == carriageReturn).map (·.1)

/-- A name without one carriage return at its end. -/
def withoutReturn (name : Bytes) : Bytes :=
  if name.getLast? = some carriageReturn then name.dropLast else name

/-- A name without the gaps at its end that are not escaped. -/
def withoutGaps (name : Bytes) : Bytes :=
  (((marked false name).reverse.dropWhile fun (b, escaped) => !escaped && isGap b).map
    (·.1)).reverse

/-- A name without a slash at its end. -/
def withoutSlash (name : Bytes) : Bytes :=
  if name.getLast? = some TreePath.slash then name.dropLast else name

/-- A name with what was escaped and is blank as it is.  A backslash at the end is lost. -/
def plainBlanks : Bytes → Bytes
  | [] => []
  | [b] => if b = Glob.escape then [] else [b]
  | a :: b :: rest =>
      if a = Glob.escape then
        if Blank.isBlankByte b then b :: plainBlanks rest else a :: b :: plainBlanks rest
      else a :: plainBlanks (b :: rest)

/-- A name as a pattern. -/
inductive Pattern where
  | everything
  | glob (text : Bytes) (hasWildcards isNegated : Bool)
  deriving DecidableEq, Repr

namespace Pattern

/-- The byte in front of a negated pattern. -/
def negation : UInt8 := 0x21

/-- The byte in front of a remark. -/
def remark : UInt8 := 0x23

/-- Whether a name is no pattern because of how it begins. -/
def isRemark (name : Bytes) : Bool :=
  name.head? == some remark || name.head? == some 0x0A ||
    [carriageReturn, 0x0A].isPrefixOf name

/-- Read a name; none if it says nothing. -/
def ofName? (name : Bytes) : Option Pattern :=
  if name = [] ∨ name = [Glob.star] then some everything
  else if isRemark name then none
  else
    let isNegated := name.head? == some negation
    let rest := firstLine (if isNegated then name.tail else name)
    let text := if rest.head? = some TreePath.slash then rest.tail else rest
    let text := withoutGaps (withoutReturn text)
    if text.isEmpty then none
    else
      let text := withoutSlash text
      let hasWildcards := (marked false text).any fun (b, escaped) => !escaped && Glob.isWildcard b
      some (glob (plainBlanks text) hasWildcards isNegated)

/-- Whether a path is a text or lies inside it. -/
def isWithin (text path : Bytes) : Bool :=
  text == path || (text ++ [TreePath.slash]).isPrefixOf path

/-- What a pattern says of a path. -/
def verdict? : Pattern → Bytes → Option Bool
  | everything, _ => some true
  | glob text hasWildcards isNegated, path =>
      if text = path ∨ Glob.isMatch text path ∨ (!hasWildcards ∧ isWithin text path) then
        some !isNegated
      else if isNegated ∧ isWithin (negation :: text) path then some true
      else none

end Pattern

/-! ## The common beginning -/

/-- The common beginning of two texts. -/
def common (a b : Bytes) : Bytes :=
  ((a.zip b).takeWhile fun (x, y) => x == y).map (·.1)

/-- The beginning of a text in front of the first wildcard that has no backslash before
it; `last` is the byte before the text. -/
def untilWildcard (last : Option UInt8) : Bytes → Bytes
  | [] => []
  | b :: rest =>
      if Glob.isWildcard b ∧ last ≠ some Glob.escape then []
      else b :: untilWildcard (some b) rest

/-- A text without the backslashes that escape something. -/
def unescaped : Bytes → Bytes
  | [] => []
  | [b] => [b]
  | a :: b :: rest =>
      if a = Glob.escape then b :: unescaped rest else a :: unescaped (b :: rest)

/-- How a path has to begin. -/
def beginning : List Bytes → Bytes
  | [] => []
  | name :: names => unescaped (untilWildcard none (names.foldl common name))

/-! ## Selecting -/

/-- Whether names select a path. -/
def covers (names : List TreePath) (path : TreePath) : Bool :=
  let names := (names.mergeSort TreePath.bytewise).map TreePath.join
  let patterns := names.filterMap Pattern.ofName?
  (beginning names).isPrefixOf path.join &&
    (patterns.isEmpty || (patterns.findSome? (·.verdict? path.join)).getD false)

end TokenBlame.Git.Pathspec
