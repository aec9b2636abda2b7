/-
# TokenBlame.Proofs.BackMap.Credits -- the lines that are shown credit each character

The credits of a line are its characters, each with the commit that its fragment is
attributed to.  The lines of a text have as credits the lines of the credits of the text
(`credits_lines`): gathering the fragments of the spans line by line neither moves a
character nor changes its commit.

A span that began with a newline could end a line whose carriage return is in the span
before it; no token begins with a newline.
-/
import TokenBlame.Proofs.BackMap.Search
import TokenBlame.Proofs.Text.Lines

set_option autoImplicit false

namespace TokenBlame.BackMap

/-! ## Credits -/

/-- The characters of fragments, each with its commit. -/
def credits (fragments : List Fragment) : List (Char × Option String) :=
  fragments.flatMap fun fragment => fragment.text.toList.map fun c => (c, fragment.commit)

/-- The characters of a span, each with its commit. -/
def Span.credits (span : Span) : List (Char × Option String) :=
  span.text.map fun c => (c, span.owner)

/-- Put together, the characters of credits are the text of the line. -/
theorem toList_text (line : AttributedLine) :
    line.text.toList = (credits line.fragments).map (·.1) := by
  unfold AttributedLine.text credits
  induction line.fragments with
  | nil => rfl
  | cons fragment fragments ih => simp [ih, Function.comp_def]

theorem text_spansFrom (owner : Option String) (head rest : List Char) (lines : List BlameLine) :
    (spansFrom owner head rest lines).flatMap (·.text) = head ++ rest := by
  induction lines generalizing owner head rest with
  | nil => simp [spansFrom]
  | cons line lines ih =>
      unfold spansFrom
      cases found : Pieces.splitAtFirst line.context.toList rest with
      | none => exact ih owner head rest
      | some around =>
          rw [Pieces.eq_of_splitAtFirst found]
          simp only [List.flatMap_cons, ih, List.append_assoc]

/-- The credits of the spans are the characters of the text with their owners. -/
theorem credits_spans (blame : List BlameLine) (text : List Char) :
    (spans blame text).flatMap Span.credits = text.zip (owners blame text) := by
  apply List.zip_of_prod
  · rw [List.map_flatMap]
    have whole : (spans blame text).flatMap (·.text) = text :=
      text_spansFrom none [] text blame
    simpa [Span.credits, Function.comp_def] using whole
  · rw [List.map_flatMap]
    unfold owners Span.credits Span.owners
    simp [Function.comp_def]

/-! ## Gathering -/

theorem gatherAux_cons (fragment : Fragment) (ends : Bool) (rest : List (Fragment × Bool)) :
    gatherAux ((fragment, ends) :: rest) =
      if ends then ([fragment], gather rest)
      else (fragment :: (gatherAux rest).1, (gatherAux rest).2) := rfl

theorem gatherAux_nonempty {rest : List (Fragment × Bool)} (some : rest ≠ []) :
    (gatherAux rest).1 ≠ [] := by
  obtain ⟨⟨fragment, ends⟩, rest, rfl⟩ := List.exists_cons_of_ne_nil some
  rw [gatherAux_cons]
  split <;> simp

/-- The lines are the one that is open and those behind it. -/
theorem gather_parts (rest : List (Fragment × Bool)) :
    (gather rest).head?.getD [] = (gatherAux rest).1 ∧ (gather rest).tail = (gatherAux rest).2 := by
  cases rest with
  | nil => exact ⟨rfl, rfl⟩
  | cons first rest =>
      have some := gatherAux_nonempty (List.cons_ne_nil first rest)
      have shape : gather (first :: rest) =
          if (gatherAux (first :: rest)).1.isEmpty then (gatherAux (first :: rest)).2
          else (gatherAux (first :: rest)).1 :: (gatherAux (first :: rest)).2 := rfl
      rw [shape, if_neg (by simpa using some)]
      exact ⟨rfl, rfl⟩

theorem gather_ended (fragment : Fragment) (rest : List (Fragment × Bool)) :
    gather ((fragment, true) :: rest) = [fragment] :: gather rest := rfl

theorem gather_open (fragment : Fragment) (rest : List (Fragment × Bool)) :
    gather ((fragment, false) :: rest) =
      (fragment :: (gather rest).head?.getD []) :: (gather rest).tail := by
  rw [(gather_parts rest).1, (gather_parts rest).2]
  rfl

/-- Fragments that end their lines are lines of their own. -/
theorem gather_ended_append (ended : List Fragment) (rest : List (Fragment × Bool)) :
    gather (ended.map (fun fragment => (fragment, true)) ++ rest) =
      ended.map (fun fragment => [fragment]) ++ gather rest := by
  induction ended with
  | nil => rfl
  | cons fragment ended ih =>
      rw [List.map_cons, List.cons_append, gather_ended, ih, List.map_cons, List.cons_append]

theorem fragments_number (found : List (List Fragment)) : (number found).map (·.fragments) = found := by
  unfold number
  rw [List.map_map]
  exact List.zipIdx_map_fst 0 found

theorem length_number (found : List (List Fragment)) : (number found).length = found.length := by
  simp [number]

theorem number_number (found : List (List Fragment)) :
    (number found).map (·.number) = List.range' 1 found.length := by
  refine List.ext_getElem (by simp [number]) fun i inside _ => ?_
  simp [number, Nat.add_comm]

/-- The fragments of the lines that are shown, line by line. -/
theorem fragments_lines (blame : List BlameLine) (text : List Char) :
    (lines blame text).map (·.fragments) =
      if blame.isEmpty then [] else gather ((spans blame text).flatMap Span.fragments) := by
  unfold lines
  split
  · rfl
  · exact fragments_number _

theorem number_lines (blame : List BlameLine) (text : List Char) :
    (lines blame text).map (·.number) = List.range' 1 (lines blame text).length := by
  unfold lines
  split
  · rfl
  · rw [number_number, length_number]

/-! ## Where the owners come from -/

theorem dropReturnBy_credits (owner : Option String) (line : List Char) :
    Lines.dropReturnBy (·.1) (line.map fun c => (c, owner)) =
      (Lines.dropReturn line).map fun c => (c, owner) := by
  unfold Lines.dropReturnBy Lines.dropReturn
  rw [List.getLast?_map, Option.map_map]
  simp only [Function.comp_def, Option.map_id']
  split <;> simp [List.map_dropLast]

/-- One more span in front of what is gathered. -/
theorem gather_span (span : Span) {rest : List (Fragment × Bool)}
    {behind : List (Char × Option String)} (apart : behind.head?.map (·.1) ≠ some '\n')
    (gathered : (gather rest).map credits = Lines.physicalBy (·.1) behind) :
    (gather (span.fragments ++ rest)).map credits =
      Lines.physicalBy (·.1) (span.credits ++ behind) := by
  obtain ⟨owner, text⟩ := span
  unfold Span.fragments Span.credits
  dsimp only
  induction text using Lines.line_induction (p := fun c => decide (c = '\n')) with
  | flat text none =>
      rw [Lines.segments_flat none]
      by_cases empty : text = []
      · simpa [empty] using gathered
      · have none' : ∀ x ∈ text.map fun c => (c, owner), decide (x.1 = '\n') = false := by
          simpa using none
        rw [if_neg (by simpa using empty), Lines.physicalBy_extend (by simpa using empty) none' apart,
          ← gathered, List.map_singleton, List.singleton_append, gather_open]
        cases gather rest <;> simp [credits]
  | line head newline text none here ih =>
      have none' : ∀ x ∈ head.map fun c => (c, owner), decide (x.1 = '\n') = false := by
        simpa using none
      have cut := Lines.physicalBy_append none' (show decide ((newline, owner).1 = '\n') = true from here)
        (text.map (fun c => (c, owner)) ++ behind)
      rw [Lines.segments_append none here, List.map_append, List.map_cons, List.map_cons,
        List.append_assoc, List.cons_append, List.cons_append, cut, ← ih, dropReturnBy_credits,
        gather_ended, List.map_cons]
      simp [credits]

/-! ## Spans that begin with a token -/

/-- A text that does not begin with a newline. -/
def Begins (text : List Char) : Prop :=
  ∃ c rest, text = c :: rest ∧ c ≠ '\n'

/-- All spans but the first begin with a token. -/
theorem spansFrom_begin (owner : Option String) (head rest : List Char) (lines : List BlameLine)
    (begins : ∀ line ∈ lines, Begins line.context.toList) :
    ∃ tail others, spansFrom owner head rest lines = ⟨owner, head ++ tail⟩ :: others ∧
      ∀ span ∈ others, Begins span.text := by
  induction lines generalizing owner head rest with
  | nil => exact ⟨rest, [], rfl, by simp⟩
  | cons line lines ih =>
      have later : ∀ line ∈ lines, Begins line.context.toList := fun l member =>
        begins l (List.mem_cons_of_mem _ member)
      unfold spansFrom
      cases Pieces.splitAtFirst line.context.toList rest with
      | none => exact ih owner head rest later
      | some around =>
          obtain ⟨tail, others, shape, own⟩ :=
            ih (some line.commit) line.context.toList around.2 later
          refine ⟨around.1, _, rfl, ?_⟩
          rw [shape]
          intro span member
          rcases List.mem_cons.1 member with rfl | member
          · obtain ⟨c, rest', same, other⟩ := begins line List.mem_cons_self
            exact ⟨c, rest' ++ tail, by rw [same, List.cons_append], other⟩
          · exact own span member

theorem gather_spans {others : List Span} (begins : ∀ span ∈ others, Begins span.text) :
    ((others.flatMap Span.credits).head?.map (·.1) ≠ some '\n') ∧
      (gather (others.flatMap Span.fragments)).map credits =
        Lines.physicalBy (·.1) (others.flatMap Span.credits) := by
  induction others with
  | nil => exact ⟨by simp, rfl⟩
  | cons span others ih =>
      obtain ⟨apart, gathered⟩ := ih fun s member => begins s (List.mem_cons_of_mem _ member)
      obtain ⟨c, rest, same, other⟩ := begins span List.mem_cons_self
      refine ⟨?_, gather_span span apart gathered⟩
      simpa [Span.credits, same] using other

/-- **The lines that are shown have the characters of the text, each with the commit of the
span it is in.** -/
theorem credits_lines (blame : List BlameLine) (text : List Char)
    (begins : ∀ line ∈ blame, Begins line.context.toList) :
    (lines blame text).map (fun line => credits line.fragments) =
      if blame.isEmpty then [] else Lines.physicalBy (·.1) (text.zip (owners blame text)) := by
  have whole : (lines blame text).map (fun line => credits line.fragments) =
      ((lines blame text).map (·.fragments)).map credits := by
    rw [List.map_map]
    rfl
  rw [whole, fragments_lines]
  by_cases empty : blame.isEmpty = true
  · rw [if_pos empty, if_pos empty]
    rfl
  · rw [if_neg empty, if_neg empty, ← credits_spans]
    obtain ⟨tail, others, shape, own⟩ := spansFrom_begin none [] text blame begins
    obtain ⟨apart, gathered⟩ := gather_spans own
    have first := gather_span ⟨none, [] ++ tail⟩ apart gathered
    rw [spans, shape, List.flatMap_cons, first, List.flatMap_cons]

end TokenBlame.BackMap
