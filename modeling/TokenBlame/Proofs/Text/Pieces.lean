/-
# TokenBlame.Proofs.Text.Pieces -- cuts at separators and around patterns

A list is cut at its first separator and then behind it (`splitBy_append`).  The pieces, each
ended by the separator, are the list again (`flatMap_split`), and pieces that do not have it are
what such a list is cut into (`split_ended`).

`splitAtFirst` finds an occurrence whenever there is one (`splitAtFirst_leftmost`), and
what it finds is one (`eq_of_splitAtFirst`).  Where nothing in front of a pattern could
begin it, it finds the pattern at its own place (`splitAtFirst_of_not_mem`).
-/
import TokenBlame.Text.Pieces

set_option autoImplicit false

namespace TokenBlame.Pieces

variable {α : Type} [DecidableEq α]

/-! ## Cutting at a separator -/

section Split

variable {β : Type}

theorem splitBy_cons (isSep : β → Bool) (x : β) (xs : List β) :
    splitBy isSep (x :: xs) =
      if isSep x then [] :: splitBy isSep xs
      else (x :: (splitAux isSep xs).1) :: (splitAux isSep xs).2 := by
  have step : splitAux isSep (x :: xs) =
      if isSep x then ([], splitBy isSep xs)
      else (x :: (splitAux isSep xs).1, (splitAux isSep xs).2) := rfl
  unfold splitBy at step ⊢
  rw [step]
  split <;> rfl

theorem splitBy_extend {isSep : β → Bool} {head : List β} (none : ∀ x ∈ head, isSep x = false)
    (rest : List β) :
    splitBy isSep (head ++ rest) = (head ++ (splitAux isSep rest).1) :: (splitAux isSep rest).2 := by
  induction head with
  | nil => rfl
  | cons x head ih =>
      have own : isSep x = false := none x List.mem_cons_self
      obtain ⟨piece, others⟩ := List.cons_eq_cons.1 (ih fun y member =>
        none y (List.mem_cons_of_mem _ member))
      rw [List.cons_append, splitBy_cons, own, piece, others]
      rfl

theorem splitBy_of_none {isSep : β → Bool} {xs : List β} (none : ∀ x ∈ xs, isSep x = false) :
    splitBy isSep xs = [xs] := by
  have whole := splitBy_extend none []
  simpa [splitAux] using whole

theorem splitBy_append {p : β → Bool} {head : List β} (none : ∀ x ∈ head, p x = false)
    {s : β} (here : p s = true) (rest : List β) :
    splitBy p (head ++ s :: rest) = head :: splitBy p rest := by
  have cut : splitAux p (s :: rest) = ([], splitBy p rest) := by
    obtain ⟨piece, others⟩ := List.cons_eq_cons.1 ((splitBy_cons p s rest).trans (if_pos here))
    exact Prod.ext piece others
  rw [splitBy_extend none, cut, List.append_nil]

theorem not_isSep_of_mem {isSep : β → Bool} {xs piece : List β}
    (member : piece ∈ splitBy isSep xs) : ∀ x ∈ piece, isSep x = false := by
  induction xs generalizing piece with
  | nil =>
      obtain rfl := List.mem_singleton.1 member
      exact fun x inside => absurd inside List.not_mem_nil
  | cons x xs ih =>
      rw [splitBy_cons] at member
      split at member
      · rcases List.mem_cons.1 member with rfl | later
        · simp
        · exact ih later
      · rename_i other
        rcases List.mem_cons.1 member with rfl | later
        · refine List.forall_mem_cons.2 ⟨by simpa using other, ih List.mem_cons_self⟩
        · exact ih (List.mem_cons_of_mem _ later)

end Split

theorem not_mem_of_mem_split {sep : α} {xs piece : List α} (member : piece ∈ split sep xs) :
    sep ∉ piece := by
  intro inside
  simpa using not_isSep_of_mem member sep inside

/-- A list is cut at each of its separators on its own. -/
theorem split_append (sep : α) (xs ys : List α) :
    split sep (xs ++ sep :: ys) = split sep xs ++ split sep ys := by
  unfold split
  induction xs with
  | nil =>
      rw [List.nil_append, splitBy_cons, if_pos (by simp)]
      rfl
  | cons x xs ih =>
      obtain ⟨piece, others⟩ := List.cons_eq_cons.1 ih
      rw [List.cons_append, splitBy_cons, splitBy_cons, ih, piece, others]
      split <;> rfl

section Separator

variable {sep : α} {text : List α}

theorem not_isSep (none : sep ∉ text) : ∀ x ∈ text, decide (x = sep) = false :=
  fun _ member => decide_eq_false fun same => none (same ▸ member)

theorem split_of_not_mem (none : sep ∉ text) : split sep text = [text] :=
  splitBy_of_none (not_isSep none)

theorem split_behind (none : sep ∉ text) (rest : List α) :
    split sep (text ++ sep :: rest) = text :: split sep rest := by
  rw [split_append, split_of_not_mem none]
  rfl

/-- What stands in front of a list stands in front of its first piece. -/
theorem split_extend (none : sep ∉ text) {xs first : List α} {others : List (List α)}
    (cut : split sep xs = first :: others) : split sep (text ++ xs) = (text ++ first) :: others := by
  obtain ⟨rfl, rfl⟩ := List.cons_eq_cons.1 cut
  exact splitBy_extend (not_isSep none) xs

end Separator

/-- Put together again, the pieces are what was cut. -/
theorem flatMap_split (sep : α) (xs : List α) :
    (split sep xs).flatMap (fun piece => piece ++ [sep]) = xs ++ [sep] := by
  unfold split
  induction xs with
  | nil => rfl
  | cons x xs ih =>
      rw [splitBy_cons]
      split
      · rename_i here
        rw [List.flatMap_cons, ih, of_decide_eq_true here]
        rfl
      · have first : splitBy (fun x => decide (x = sep)) xs =
            (splitAux (fun x => decide (x = sep)) xs).1 ::
              (splitAux (fun x => decide (x = sep)) xs).2 := rfl
        rw [first, List.flatMap_cons] at ih
        rw [List.flatMap_cons, List.cons_append, List.cons_append, ih]
        rfl

/-- Pieces that are each ended by a separator are cut apart again. -/
theorem split_ended {sep : α} {pieces : List (List α)} (apart : ∀ piece ∈ pieces, sep ∉ piece) :
    split sep (pieces.flatMap fun piece => piece ++ [sep]) = pieces ++ [[]] := by
  induction pieces with
  | nil => rfl
  | cons piece pieces ih =>
      obtain ⟨own, others⟩ := List.forall_mem_cons.1 apart
      rw [List.flatMap_cons, List.append_assoc, List.singleton_append, split_behind own, ih others]
      rfl

/-! ## The leftmost occurrence -/

theorem splitAtFirstFrom_passed (pattern passed xs : List α) :
    splitAtFirstFrom pattern passed xs =
      (splitAtFirst pattern xs).map fun found => (passed.reverse ++ found.1, found.2) := by
  unfold splitAtFirst
  induction xs generalizing passed with
  | nil =>
      unfold splitAtFirstFrom
      split <;> simp
  | cons x rest ih =>
      unfold splitAtFirstFrom
      split
      · simp
      · rw [ih (x :: passed), ih [x]]
        cases splitAtFirstFrom pattern [] rest <;> simp

theorem splitAtFirst_nil (pattern : List α) :
    splitAtFirst pattern [] = if pattern.isEmpty then some ([], []) else none := by
  simp [splitAtFirst, splitAtFirstFrom]

theorem splitAtFirst_cons (pattern : List α) (x : α) (rest : List α) :
    splitAtFirst pattern (x :: rest) =
      if pattern.isPrefixOf (x :: rest) then some ([], (x :: rest).drop pattern.length)
      else (splitAtFirst pattern rest).map fun found => (x :: found.1, found.2) := by
  conv => lhs; unfold splitAtFirst splitAtFirstFrom
  split
  · rfl
  · rw [splitAtFirstFrom_passed]
    rfl

/-- What is found is an occurrence. -/
theorem eq_of_splitAtFirst {pattern xs before behind : List α}
    (found : splitAtFirst pattern xs = some (before, behind)) :
    xs = before ++ pattern ++ behind := by
  induction xs generalizing before with
  | nil =>
      rw [splitAtFirst_nil] at found
      split at found
      · rename_i empty
        cases found
        simpa using empty
      · cases found
  | cons x rest ih =>
      rw [splitAtFirst_cons] at found
      split at found
      · rename_i here
        cases found
        obtain ⟨tail, same⟩ := List.isPrefixOf_iff_prefix.1 here
        simp [← same]
      · obtain ⟨⟨before', behind'⟩, later, same⟩ := Option.map_eq_some_iff.1 found
        cases same
        rw [ih later]
        simp

/-- Nothing that occurs is missed, and no occurrence begins before the one that is found. -/
theorem splitAtFirst_leftmost (pattern before behind : List α) :
    ∃ before' behind', splitAtFirst pattern (before ++ pattern ++ behind) = some (before', behind') ∧
      before'.length ≤ before.length := by
  induction before with
  | nil =>
      refine ⟨[], behind, ?_, Nat.le_refl _⟩
      rw [List.nil_append]
      cases whole : pattern ++ behind with
      | nil =>
          obtain ⟨rfl, rfl⟩ := List.append_eq_nil_iff.1 whole
          rfl
      | cons x rest =>
          have here : pattern.isPrefixOf (x :: rest) = true :=
            List.isPrefixOf_iff_prefix.2 ⟨behind, whole⟩
          rw [splitAtFirst_cons, if_pos here, ← whole, List.drop_left]
  | cons x before ih =>
      obtain ⟨before', behind', found, le⟩ := ih
      rw [List.cons_append, List.cons_append, splitAtFirst_cons]
      split
      · exact ⟨[], _, rfl, Nat.zero_le _⟩
      · exact ⟨x :: before', behind', by rw [found]; rfl, Nat.succ_le_succ le⟩

/-- An occurrence is found at its place or before it; what then is left of the text up to the
end of that place ends where the occurrence ends. -/
theorem splitAtFirst_before (pattern before behind : List α) :
    ∃ before' left, splitAtFirst pattern (before ++ pattern ++ behind) = some (before', left ++ behind) ∧
      before'.length + left.length = before.length ∧ before' ++ pattern ++ left = before ++ pattern := by
  obtain ⟨before', behind', found, le⟩ := splitAtFirst_leftmost pattern before behind
  have whole := eq_of_splitAtFirst found
  have room : (before' ++ pattern).length ≤ (before ++ pattern).length := by
    simp only [List.length_append]
    omega
  obtain ⟨left, split⟩ : before' ++ pattern <+: before ++ pattern :=
    List.prefix_of_prefix_length_le ⟨behind', whole.symm⟩ (List.prefix_append _ _) room
  have rest : behind' = left ++ behind := by
    rw [← split, List.append_assoc (before' ++ pattern)] at whole
    exact (List.append_cancel_left whole).symm
  refine ⟨before', left, rest ▸ found, ?_, split⟩
  have := congrArg List.length split
  simp only [List.length_append] at this
  omega

/-- A pattern that begins a list is found there. -/
theorem splitAtFirst_here (pattern behind : List α) :
    splitAtFirst pattern (pattern ++ behind) = some ([], behind) := by
  obtain ⟨before, left, found, room, split⟩ := splitAtFirst_before pattern [] behind
  rw [List.length_nil, Nat.add_eq_zero_iff] at room
  obtain rfl := List.length_eq_zero_iff.1 room.1
  obtain rfl := List.length_eq_zero_iff.1 room.2
  simpa using found

/-- A gap that does not have the first element of a pattern is passed. -/
theorem splitAtFirst_skip {gap pattern : List α} (rest : List α) (nonempty : pattern ≠ [])
    (apart : ∀ x ∈ gap, pattern.head? ≠ some x) :
    splitAtFirst pattern (gap ++ rest) =
      (splitAtFirst pattern rest).map fun found => (gap ++ found.1, found.2) := by
  induction gap with
  | nil => simp
  | cons x gap ih =>
      have other : pattern.isPrefixOf (x :: (gap ++ rest)) = false := by
        obtain ⟨y, tail, rfl⟩ := List.exists_cons_of_ne_nil nonempty
        have differ := apart x List.mem_cons_self
        simp only [List.head?_cons, ne_eq, Option.some.injEq] at differ
        simp [List.isPrefixOf, differ]
      rw [List.cons_append, splitAtFirst_cons, other, if_neg (by simp),
        ih fun y member => apart y (List.mem_cons_of_mem _ member), Option.map_map]
      rfl

/-- A pattern is found at its own place behind a gap that does not have its first element. -/
theorem splitAtFirst_of_not_mem {gap pattern : List α} (behind : List α)
    (nonempty : pattern ≠ []) (apart : ∀ x ∈ gap, pattern.head? ≠ some x) :
    splitAtFirst pattern (gap ++ pattern ++ behind) = some (gap, behind) := by
  rw [List.append_assoc, splitAtFirst_skip _ nonempty apart, splitAtFirst_here]
  simp

/-- An occurrence that begins inside of a front whose last element the pattern does not have
ends inside of it. -/
theorem splitAtFirst_inside {pattern front : List α} (behind : List α) (nonempty : pattern ≠ [])
    (barrier : ∀ x ∈ front.getLast?, x ∉ pattern) :
    (∃ before behind', splitAtFirst pattern (front ++ behind) = some (before, behind') ∧
      before.length < front.length) ↔ pattern <:+: front := by
  constructor
  · rintro ⟨before, behind', found, less⟩
    have whole := eq_of_splitAtFirst found
    rcases List.prefix_or_prefix_of_prefix (List.prefix_append front behind)
      (whole ▸ List.prefix_append (before ++ pattern) behind') with longer | ⟨left, inside⟩
    · -- The front would end in the middle of the occurrence, or with it.
      obtain ⟨tail, rfl⟩ := List.prefix_of_prefix_length_le (List.prefix_append before pattern)
        longer (Nat.le_of_lt less)
      have some : tail ≠ [] := by
        rintro rfl
        simp at less
      have short : tail <+: pattern := (List.prefix_append_right_inj before).1 longer
      refine absurd (short.subset (List.getLast_mem some)) (barrier _ ?_)
      rw [List.getLast?_append, List.getLast?_eq_some_getLast some]
      rfl
    · exact ⟨before, left, inside⟩
  · rintro ⟨before, left, rfl⟩
    obtain ⟨before', behind', found, le⟩ := splitAtFirst_leftmost pattern before (left ++ behind)
    refine ⟨before', behind', by rw [List.append_assoc _ left, found], ?_⟩
    have := List.length_pos_iff.2 nonempty
    simp only [List.length_append]
    omega

/-! ## Pieces with what lies behind them -/

/-- Pieces put together, each with what lies between it and the next one. -/
def joined {β : Type} (pieces : List (List β × List β)) : List β :=
  pieces.flatMap fun piece => piece.1 ++ piece.2

@[simp] theorem joined_nil {β : Type} : joined ([] : List (List β × List β)) = [] := rfl

@[simp] theorem joined_cons {β : Type} (piece : List β × List β) (pieces : List (List β × List β)) :
    joined (piece :: pieces) = piece.1 ++ piece.2 ++ joined pieces := rfl

end TokenBlame.Pieces
