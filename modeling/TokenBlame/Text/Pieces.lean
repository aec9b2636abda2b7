/-
# TokenBlame.Text.Pieces -- cutting a list at separators

Everything that is cut in this library is cut in one of three ways:

* `split`: at every separator, so `n` separators leave `n + 1` pieces, empty ones
  included;
* `runs`: into the maximal runs of the elements that satisfy a test;
* `splitAtFirst`: around the leftmost occurrence of a pattern.

`chunksOf` cuts a list into pieces of one length, whatever its elements are.
-/

set_option autoImplicit false

namespace TokenBlame.Pieces

variable {α : Type}

/-! ## Cutting at a separator -/

/-- The first piece and the others, the separators being the elements that satisfy `isSep`. -/
def splitAux (isSep : α → Bool) (xs : List α) : List α × List (List α) :=
  xs.foldr (fun x (piece, others) =>
    if isSep x then ([], piece :: others) else (x :: piece, others)) ([], [])

/-- The pieces between the separators: one more than there are separators. -/
def splitBy (isSep : α → Bool) (xs : List α) : List (List α) :=
  (splitAux isSep xs).1 :: (splitAux isSep xs).2

/-- The pieces between the occurrences of `sep`. -/
def split [DecidableEq α] (sep : α) (xs : List α) : List (List α) :=
  splitBy (fun x => decide (x = sep)) xs

/-! ## Maximal runs -/

/-- Put a run in front of the others unless it is empty. -/
def consRun (run : List α) (others : List (List α)) : List (List α) :=
  if run.isEmpty then others else run :: others

/-- The run at the front, which may be empty, and the runs after it. -/
def runsAux (keep : α → Bool) (xs : List α) : List α × List (List α) :=
  xs.foldr (fun x (run, others) =>
    if keep x then (x :: run, others) else ([], consRun run others)) ([], [])

/-- The maximal non-empty runs of elements that satisfy `keep`, in order. -/
def runs (keep : α → Bool) (xs : List α) : List (List α) :=
  consRun (runsAux keep xs).1 (runsAux keep xs).2

/-! ## The leftmost occurrence -/

/-- Search `rest` for `pattern`, `passed` holding what lies before `rest`, last first. -/
def splitAtFirstFrom [DecidableEq α] (pattern : List α) (passed : List α) :
    List α → Option (List α × List α)
  | [] => if pattern.isEmpty then some (passed.reverse, []) else none
  | x :: rest =>
      if pattern.isPrefixOf (x :: rest) then
        some (passed.reverse, (x :: rest).drop pattern.length)
      else splitAtFirstFrom pattern (x :: passed) rest

/-- What lies before and what lies after the leftmost occurrence of `pattern`. -/
def splitAtFirst [DecidableEq α] (pattern xs : List α) : Option (List α × List α) :=
  splitAtFirstFrom pattern [] xs

/-! ## Pieces of one length -/

/-- Pieces of `size` elements, the last one shorter when the length asks for it. -/
def chunksOf (size : Nat) (xs : List α) : List (List α) :=
  (List.range ((xs.length + size - 1) / size)).map fun i => (xs.drop (i * size)).take size

end TokenBlame.Pieces
