/-
# TokenBlame.Proofs.BackMap.Search -- what the forward search finds

The search runs over texts that are cut into pieces with gaps between them, where no
character of a token stands in a gap (`Readable`).  Every piece is then found
(`placesFrom_isSome`).  A visible piece is found at its own place (`visible_found`): a
blank piece in front of it may be found too early, but what it leaves behind is blank
again, and nothing blank begins a visible piece.

`owners` says of every character of a text which commit it belongs to.
-/
import TokenBlame.BackMap
import TokenBlame.Proofs.Text.Pieces
import Mathlib.Tactic.Convert

set_option autoImplicit false

namespace TokenBlame.BackMap

/-! ## Owners -/

/-- The owner of every character of a span. -/
def Span.owners (span : Span) : List (Option String) :=
  span.text.map fun _ => span.owner

/-- The owner of every character of a text. -/
def owners (blame : List BlameLine) (text : List Char) : List (Option String) :=
  (spans blame text).flatMap Span.owners

/-- The owner of every character of the rest of a text, `owner` having the span that is
open. -/
def ownersFrom (owner : Option String) (rest : List Char) : List BlameLine → List (Option String)
  | [] => rest.map fun _ => owner
  | line :: lines =>
      match Pieces.splitAtFirst line.context.toList rest with
      | none => ownersFrom owner rest lines
      | some (before, behind) =>
          before.map (fun _ => owner) ++ (line.context.toList.map fun _ => some line.commit) ++
            ownersFrom (some line.commit) behind lines

theorem owners_spansFrom (owner : Option String) (head rest : List Char) (lines : List BlameLine) :
    (spansFrom owner head rest lines).flatMap Span.owners =
      head.map (fun _ => owner) ++ ownersFrom owner rest lines := by
  induction lines generalizing owner head rest with
  | nil => simp [spansFrom, Span.owners, ownersFrom]
  | cons line lines ih =>
      unfold spansFrom ownersFrom
      cases Pieces.splitAtFirst line.context.toList rest with
      | none => exact ih owner head rest
      | some found =>
          simp only [List.flatMap_cons, ih, Span.owners, List.map_append, List.append_assoc]

theorem owners_eq (blame : List BlameLine) (text : List Char) :
    owners blame text = ownersFrom none text blame :=
  owners_spansFrom none [] text blame

theorem length_ownersFrom (owner : Option String) (rest : List Char) (lines : List BlameLine) :
    (ownersFrom owner rest lines).length = rest.length := by
  induction lines generalizing owner rest with
  | nil => simp [ownersFrom]
  | cons line lines ih =>
      unfold ownersFrom
      cases found : Pieces.splitAtFirst line.context.toList rest with
      | none => exact ih owner rest
      | some found' =>
          rw [Pieces.eq_of_splitAtFirst found]
          simp [ih]

/-- All characters from one place up to another have one owner. -/
def OwnedBy (owners : List (Option String)) (start stop : Nat) (owner : Option String) : Prop :=
  ∀ i, start ≤ i → i < stop → owners[i]? = some owner

theorem OwnedBy.append_left (xs : List (Option String)) {ys : List (Option String)}
    {owner : Option String} {start stop : Nat} (owned : OwnedBy ys start stop owner) :
    OwnedBy (xs ++ ys) (xs.length + start) (xs.length + stop) owner := by
  intro i above below
  rw [List.getElem?_append_right (by omega)]
  exact owned _ (by omega) (by omega)

theorem OwnedBy.replicate {β : Type} (xs : List β) (ys : List (Option String))
    (owner : Option String) : OwnedBy (xs.map (fun _ => owner) ++ ys) 0 xs.length owner := by
  intro i _ below
  rw [List.getElem?_append_left (by simpa using below)]
  rw [List.getElem?_map, List.getElem?_eq_getElem below]
  rfl

theorem OwnedBy.trans {owners : List (Option String)} {owner : Option String} {a b c : Nat}
    (first : OwnedBy owners a b owner) (second : OwnedBy owners b c owner) :
    OwnedBy owners a c owner := by
  intro i above below
  by_cases left : i < b
  · exact first i above left
  · exact second i (by omega) below

/-! ## The forward search -/

variable (isToken : Char → Bool)

/-- Pieces of a text whose gaps hold no character of a token.  Each piece is visible, made
of such characters, or blank, made of others. -/
structure Readable (pieces : List (List Char × List Char)) : Prop where
  visible_or_blank : ∀ piece ∈ pieces, piece.1 ≠ [] ∧
    ((∀ c ∈ piece.1, isToken c = true) ∨ ∀ c ∈ piece.1, isToken c = false)
  gaps : ∀ piece ∈ pieces, ∀ c ∈ piece.2, isToken c = false

variable {isToken}

theorem Readable.tail {piece : List Char × List Char} {pieces : List (List Char × List Char)}
    (readable : Readable isToken (piece :: pieces)) : Readable isToken pieces :=
  ⟨fun p member => readable.visible_or_blank p (List.mem_cons_of_mem _ member),
    fun p member => readable.gaps p (List.mem_cons_of_mem _ member)⟩

/-- A visible piece is found right behind a gap. -/
theorem splitAtFirst_visible {lead token : List Char} (behind : List Char) (nonempty : token ≠ [])
    (visible : ∀ c ∈ token, isToken c = true) (apart : ∀ c ∈ lead, isToken c = false) :
    Pieces.splitAtFirst token (lead ++ token ++ behind) = some (lead, behind) := by
  apply Pieces.splitAtFirst_of_not_mem behind nonempty
  intro c inside head
  have own := visible c (List.mem_of_mem_head? head)
  rw [apart c inside] at own
  cases own

/-- A blank piece is found at its place or before it.  What the search has not passed then of
the text up to the end of that place is blank. -/
theorem splitAtFirst_blank {lead token : List Char} (behind : List Char)
    (blank : ∀ c ∈ token, isToken c = false) (apart : ∀ c ∈ lead, isToken c = false) :
    ∃ before left, Pieces.splitAtFirst token (lead ++ token ++ behind) =
        some (before, left ++ behind) ∧
      before.length + left.length = lead.length ∧ ∀ c ∈ left, isToken c = false := by
  obtain ⟨before, left, found, room, split⟩ := Pieces.splitAtFirst_before token lead behind
  refine ⟨before, left, found, room, ?_⟩
  intro c member
  have inside : c ∈ lead ++ token := split ▸ List.mem_append_right _ member
  exact (List.mem_append.1 inside).elim (apart c) (blank c)

/-- A piece is found at its place or before it, and what the search has not passed then of
the text up to the end of that place is blank. -/
theorem splitAtFirst_piece {lead token : List Char} (behind : List Char)
    (shape : token ≠ [] ∧ ((∀ c ∈ token, isToken c = true) ∨ ∀ c ∈ token, isToken c = false))
    (apart : ∀ c ∈ lead, isToken c = false) :
    ∃ before left, Pieces.splitAtFirst token (lead ++ token ++ behind) =
        some (before, left ++ behind) ∧
      before.length + left.length = lead.length ∧ ∀ c ∈ left, isToken c = false := by
  obtain ⟨nonempty, visible | blank⟩ := shape
  · exact ⟨lead, [], splitAtFirst_visible behind nonempty visible apart, rfl, by simp⟩
  · exact splitAtFirst_blank behind blank apart

/-- Every line of a blame whose contexts are the pieces of a text is found in it. -/
theorem placesFrom_isSome {lead : List Char} {pieces : List (List Char × List Char)}
    {lines : List BlameLine} (readable : Readable isToken pieces)
    (apart : ∀ c ∈ lead, isToken c = false)
    (contexts : lines.map (·.context.toList) = pieces.map (·.1)) (place : Nat) :
    ∀ found ∈ placesFrom place (lead ++ Pieces.joined pieces) lines, found.isSome = true := by
  induction pieces generalizing lead lines place with
  | nil =>
      obtain rfl : lines = [] := by simpa using contexts
      simp [placesFrom]
  | cons piece pieces ih =>
      obtain ⟨token, gap⟩ := piece
      obtain ⟨line, lines, rfl, context, contexts⟩ := List.map_eq_cons_iff.1 contexts
      obtain ⟨before, left, found, -, leftApart⟩ :=
        splitAtFirst_piece (gap ++ Pieces.joined pieces)
          (readable.visible_or_blank _ List.mem_cons_self) apart
      simp only [Pieces.joined_cons, ← List.append_assoc] at found ⊢
      simp only [placesFrom, context, found, List.mem_cons]
      rintro _ (rfl | member)
      · rfl
      · refine ih readable.tail ?_ contexts _ _ member
        intro c inside
        exact (List.mem_append.1 inside).elim (leftApart c) (readable.gaps _ List.mem_cons_self c)

/-- **A visible piece is found at its own place, and its characters have its own commit**,
wherever the blank pieces before it were found. -/
theorem visible_found {lead : List Char} {pieces : List (List Char × List Char)}
    {lines : List BlameLine} (readable : Readable isToken pieces)
    (apart : ∀ c ∈ lead, isToken c = false)
    (contexts : lines.map (·.context.toList) = pieces.map (·.1)) (place : Nat)
    (owner : Option String) {earlier later : List (List Char × List Char)} {token gap : List Char}
    (split : pieces = earlier ++ (token, gap) :: later) (visible : ∀ c ∈ token, isToken c = true)
    {line : BlameLine} (at_ : lines[earlier.length]? = some line) :
    (placesFrom place (lead ++ Pieces.joined pieces) lines)[earlier.length]? =
        some (some (place + (lead ++ Pieces.joined earlier).length)) ∧
      OwnedBy (ownersFrom owner (lead ++ Pieces.joined pieces) lines)
        (lead ++ Pieces.joined earlier).length
        ((lead ++ Pieces.joined earlier).length + token.length) (some line.commit) := by
  induction earlier generalizing lead pieces lines place owner with
  | nil =>
      subst split
      obtain ⟨line', lines, rfl, context, contexts⟩ := List.map_eq_cons_iff.1 contexts
      obtain rfl : line' = line := by simpa using at_
      obtain ⟨nonempty, -⟩ := readable.visible_or_blank _ List.mem_cons_self
      have found := splitAtFirst_visible (gap ++ Pieces.joined later) nonempty visible apart
      simp only [List.nil_append, Pieces.joined_cons, Pieces.joined_nil, List.append_nil,
        ← List.append_assoc] at found ⊢
      simp only [placesFrom, ownersFrom, context, found, List.length_nil, List.getElem?_cons_zero]
      refine ⟨trivial, ?_⟩
      have own := (OwnedBy.replicate token
        (ownersFrom (some line'.commit) (gap ++ Pieces.joined later) lines)
        (some line'.commit)).append_left (lead.map fun _ => owner)
      simpa using own
  | cons piece earlier ih =>
      subst split
      obtain ⟨token', gap'⟩ := piece
      rw [List.cons_append] at readable contexts ⊢
      obtain ⟨line', lines, rfl, context, contexts⟩ := List.map_eq_cons_iff.1 contexts
      obtain ⟨before, left, found, room, leftApart⟩ :=
        splitAtFirst_piece (gap' ++ Pieces.joined (earlier ++ (token, gap) :: later))
          (readable.visible_or_blank _ List.mem_cons_self) apart
      have nextApart : ∀ c ∈ left ++ gap', isToken c = false := fun c inside =>
        (List.mem_append.1 inside).elim (leftApart c) (readable.gaps _ List.mem_cons_self c)
      obtain ⟨placed, owned⟩ := ih readable.tail nextApart contexts
        (place + before.length + token'.length) (some line'.commit) rfl (by simpa using at_)
      simp only [Pieces.joined_cons, ← List.append_assoc] at found placed owned ⊢
      simp only [placesFrom, ownersFrom, context, found, List.length_cons,
        List.getElem?_cons_succ, placed]
      have shifted := owned.append_left
        (before.map (fun _ => owner) ++ token'.map fun _ => some line'.commit)
      simp only [List.length_append, List.length_map] at shifted ⊢
      refine ⟨by congr 2; omega, ?_⟩
      convert shifted using 1 <;> omega

/-- Where all pieces are visible, a piece has the text up to the next piece. -/
theorem visible_owned {lead : List Char} {pieces : List (List Char × List Char)}
    {lines : List BlameLine} (readable : Readable isToken pieces)
    (apart : ∀ c ∈ lead, isToken c = false)
    (contexts : lines.map (·.context.toList) = pieces.map (·.1))
    (visible : ∀ piece ∈ pieces, ∀ c ∈ piece.1, isToken c = true) (owner : Option String) :
    OwnedBy (ownersFrom owner (lead ++ Pieces.joined pieces) lines) 0 lead.length owner ∧
      ∀ earlier token gap later, pieces = earlier ++ (token, gap) :: later →
        ∀ line, lines[earlier.length]? = some line →
          OwnedBy (ownersFrom owner (lead ++ Pieces.joined pieces) lines)
            (lead ++ Pieces.joined earlier).length
            (lead ++ Pieces.joined earlier ++ token ++ gap).length (some line.commit) := by
  induction pieces generalizing lead lines owner with
  | nil =>
      obtain rfl : lines = [] := by simpa using contexts
      refine ⟨?_, by simp⟩
      simpa [ownersFrom] using OwnedBy.replicate lead [] owner
  | cons piece pieces ih =>
      obtain ⟨token, gap⟩ := piece
      obtain ⟨line, lines, rfl, context, contexts⟩ := List.map_eq_cons_iff.1 contexts
      obtain ⟨nonempty, -⟩ := readable.visible_or_blank _ List.mem_cons_self
      have found := splitAtFirst_visible (gap ++ Pieces.joined pieces) nonempty
        (visible _ List.mem_cons_self) apart
      obtain ⟨gapOwned, later⟩ := ih readable.tail (readable.gaps _ List.mem_cons_self) contexts
        (fun p member => visible p (List.mem_cons_of_mem _ member)) (some line.commit)
      simp only [Pieces.joined_cons, ← List.append_assoc] at found ⊢
      simp only [ownersFrom, context, found]
      have own : OwnedBy (token.map (fun _ => some line.commit) ++
          ownersFrom (some line.commit) (gap ++ Pieces.joined pieces) lines) 0
          (token.length + gap.length) (some line.commit) :=
        (OwnedBy.replicate token _ _).trans
          (by simpa using gapOwned.append_left (token.map fun _ => some line.commit))
      refine ⟨by simpa using OwnedBy.replicate lead _ owner, ?_⟩
      intro earlier token' gap' behind split line' at_
      cases earlier with
      | nil =>
          obtain ⟨⟨rfl, rfl⟩, rfl⟩ : (token = token' ∧ gap = gap') ∧ pieces = behind := by
            simpa using split
          obtain rfl : line = line' := by simpa using at_
          have shifted := own.append_left (lead.map fun _ => owner)
          simpa [Nat.add_assoc] using shifted
      | cons piece earlier =>
          obtain ⟨rfl, rfl⟩ : (token, gap) = piece ∧ pieces = earlier ++ (token', gap') :: behind :=
            List.cons_eq_cons.1 split
          have shifted := (later earlier token' gap' behind rfl line' (by simpa using at_)).append_left
            (lead.map (fun _ => owner) ++ token.map fun _ => some line.commit)
          simpa [Nat.add_assoc] using shifted

end TokenBlame.BackMap
