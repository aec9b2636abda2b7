/-
# TokenBlame.Text.CommonLines -- the lines that two texts have in common

`common` pairs up the elements of two lists: a longest common subsequence, given by
positions.  Elements that stand at the front of both lists are paired at once, so a
stretch that was put in or taken out begins as late as it can.

`lengths` is the table behind it: for every end piece of the older list the lengths of
the longest common subsequences with the end pieces of the newer list.
-/

set_option autoImplicit false

namespace TokenBlame.CommonLines

variable {α : Type} [DecidableEq α]

/-- The lengths for `x` in front of an older list, from those of that list. -/
def extend (x : α) : List α → List Nat → List Nat
  | y :: newer, below :: belows =>
      let row := extend x newer belows
      (if x = y then belows.headD 0 + 1 else max below (row.headD 0)) :: row
  | _, _ => [0]

/-- The rows of lengths of the end pieces of `older`, the longest piece first. -/
def lengths (older newer : List α) : List (List Nat) :=
  older.foldr (fun x rows => extend x newer (rows.headD []) :: rows)
    [List.replicate (newer.length + 1) 0]

/-- The length for the end pieces that begin at two positions. -/
def lengthAt (rows : List (List Nat)) (i j : Nat) : Nat :=
  (rows.getD i []).getD j 0

/-- Pair the end pieces that begin at positions `i` and `j`. -/
def pairFrom (rows : List (List Nat)) (i j : Nat) : List α → List α → List (Nat × Nat)
  | [], _ => []
  | _, [] => []
  | x :: older, y :: newer =>
      if x = y then (i, j) :: pairFrom rows (i + 1) (j + 1) older newer
      else if lengthAt rows i (j + 1) ≤ lengthAt rows (i + 1) j then
        pairFrom rows (i + 1) j older (y :: newer)
      else pairFrom rows i (j + 1) (x :: older) newer
termination_by older newer => older.length + newer.length

/-- The positions of common elements in the older and the newer list. -/
def common (older newer : List α) : List (Nat × Nat) :=
  pairFrom (lengths older newer) 0 0 older newer

end TokenBlame.CommonLines
