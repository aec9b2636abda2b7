/-
# TokenBlame.BackMap -- from blamed tokens back to the source text

The tokens of a file keep their order in the source text, so each is looked for
behind the one before it, and at the leftmost place.  The text from the place of one
token to the place of the next is a span that belongs to the commit of the first; the
text before the first token belongs to no commit.  A token that is not found is
passed over.

The spans put together are the text.  They are then cut where lines end, and the
pieces are gathered line by line.
-/
import TokenBlame.AttributedFile
import TokenBlame.Blame
import TokenBlame.Text.Lines

set_option autoImplicit false

namespace TokenBlame.BackMap

/-! ## Spans -/

/-- A stretch of the text and the commit it belongs to. -/
structure Span where
  owner : Option String
  text : List Char
  deriving DecidableEq, Repr

/-- The spans of the rest of a text.  The span that is open belongs to `owner` and
begins with `head`, and `rest` is searched. -/
def spansFrom (owner : Option String) (head rest : List Char) : List BlameLine → List Span
  | [] => [⟨owner, head ++ rest⟩]
  | line :: lines =>
      match Pieces.splitAtFirst line.context.toList rest with
      | none => spansFrom owner head rest lines
      | some (before, behind) =>
          ⟨owner, head ++ before⟩ :: spansFrom (some line.commit) line.context.toList behind lines

/-- The spans of a text. -/
def spans (blame : List BlameLine) (text : List Char) : List Span :=
  spansFrom none [] text blame

/-- The places at which the lines of a blame are found in the rest of a text that
begins at `place`, and `none` for those that are not found. -/
def placesFrom (place : Nat) (rest : List Char) : List BlameLine → List (Option Nat)
  | [] => []
  | line :: lines =>
      match Pieces.splitAtFirst line.context.toList rest with
      | none => none :: placesFrom place rest lines
      | some (before, behind) =>
          some (place + before.length) ::
            placesFrom (place + before.length + line.context.toList.length) behind lines

/-- The places at which the lines of a blame are found in a text, in characters. -/
def places (blame : List BlameLine) (text : List Char) : List (Option Nat) :=
  placesFrom 0 text blame

/-! ## Lines -/

/-- The fragments of a span, each with whether it ends its line. -/
def Span.fragments (span : Span) : List (Fragment × Bool) :=
  (Lines.segments span.text).map fun (text, ends) => (⟨span.owner, String.ofList text⟩, ends)

/-- The fragments of the line that is open, and the lines behind it. -/
def gatherAux (fragments : List (Fragment × Bool)) : List Fragment × List (List Fragment) :=
  fragments.foldr (fun (fragment, ends) (line, others) =>
    if ends then ([fragment], if line.isEmpty then others else line :: others)
    else (fragment :: line, others)) ([], [])

/-- Gather fragments line by line. -/
def gather (fragments : List (Fragment × Bool)) : List (List Fragment) :=
  let (line, others) := gatherAux fragments
  if line.isEmpty then others else line :: others

/-- Lines with their numbers, from one. -/
def number (lines : List (List Fragment)) : List AttributedLine :=
  lines.zipIdx.map fun (fragments, i) => ⟨i + 1, fragments⟩

/-- The lines of `text`, attributed by the blame of its tokens.  A file without blamed
lines has no lines to show. -/
def lines (blame : List BlameLine) (text : List Char) : List AttributedLine :=
  if blame.isEmpty then [] else number (gather ((spans blame text).flatMap Span.fragments))

end TokenBlame.BackMap
