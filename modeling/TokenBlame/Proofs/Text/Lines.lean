/-
# TokenBlame.Proofs.Text.Lines -- the lines of a text, one after the other

A text is free of newlines or it has a first one (`line_induction`).  The lines that are
shown follow that: one more line in front (`segments_append`), or the only one
(`segments_flat`).

`physicalBy` cuts a list whose elements have characters in the same way, so that what is
known of the single characters goes into the lines with them.

Bytes may be cut before they are decoded or behind that (`split_decodeLossyChars`).
-/
import TokenBlame.Proofs.Text.Pieces
import TokenBlame.Proofs.Text.Utf8
import TokenBlame.Text.Lines

set_option autoImplicit false

namespace TokenBlame.Lines

/-- A text without a newline, or a first line, its newline and the text behind it. -/
theorem line_induction {α : Type} {p : α → Bool} {motive : List α → Prop}
    (flat : ∀ text, (∀ x ∈ text, p x = false) → motive text)
    (line : ∀ head newline rest, (∀ x ∈ head, p x = false) → p newline = true →
      motive rest → motive (head ++ newline :: rest))
    (text : List α) : motive text := by
  have passed : ∀ head : List α, (∀ x ∈ head, p x = false) → motive (head ++ text) := by
    induction text with
    | nil =>
        intro head none
        rw [List.append_nil]
        exact flat head none
    | cons x text ih =>
        intro head none
        cases here : p x with
        | true => exact line head x text none here (ih [] (by simp))
        | false =>
            rw [List.append_cons]
            refine ih (head ++ [x]) fun y member => ?_
            rcases List.mem_append.1 member with before | same
            · exact none y before
            · rw [List.mem_singleton.1 same]
              exact here
  exact passed [] (by simp)

/-! ## Segments -/

theorem segments_flat {text : List Char} (none : ∀ c ∈ text, decide (c = '\n') = false) :
    segments text = if text.isEmpty then [] else [(text, false)] := by
  simp [segments, Pieces.split, Pieces.splitBy_of_none none]

theorem segments_append {head : List Char} (none : ∀ c ∈ head, decide (c = '\n') = false)
    {newline : Char} (here : decide (newline = '\n') = true) (rest : List Char) :
    segments (head ++ newline :: rest) = (dropReturn head, true) :: segments rest := by
  have cut := Pieces.splitBy_append none here rest
  have some : Pieces.splitBy (fun c => decide (c = '\n')) rest ≠ [] := List.cons_ne_nil _ _
  obtain ⟨piece, pieces, shape⟩ := List.exists_cons_of_ne_nil some
  simp only [segments, Pieces.split, cut, shape, List.dropLast_cons_cons, List.map_cons,
    List.getLast?_cons_cons, List.cons_append]

/-- Newlines are empty lines. -/
theorem segments_newlines (n : Nat) :
    segments (List.replicate n '\n') = List.replicate n ([], true) := by
  induction n with
  | zero => rfl
  | succ n ih =>
      have cut : segments ([] ++ '\n' :: List.replicate n '\n') = _ :=
        segments_append (by simp) (by decide) _
      rw [List.replicate_succ, List.replicate_succ, ← ih]
      exact cut

theorem physical_flat {text : List Char} (none : ∀ c ∈ text, decide (c = '\n') = false) :
    physical text = if text.isEmpty then [] else [text] := by
  unfold physical
  rw [segments_flat none]
  split <;> rfl

theorem physical_append {head : List Char} (none : ∀ c ∈ head, decide (c = '\n') = false)
    {newline : Char} (here : decide (newline = '\n') = true) (rest : List Char) :
    physical (head ++ newline :: rest) = dropReturn head :: physical rest := by
  unfold physical
  rw [segments_append none here, List.map_cons]

/-! ## Cutting at every newline -/

theorem cut_flat {text : List Char} (none : ∀ c ∈ text, decide (c = '\n') = false) :
    cut text = [text] := by
  have last : text.getLast? ≠ some '\n' := by
    intro last
    exact absurd (none _ (List.mem_of_getLast? last)) (by decide)
  unfold cut
  rw [Pieces.split, Pieces.splitBy_of_none none]
  dsimp only
  rw [if_neg last]

theorem cut_append {head : List Char} (none : ∀ c ∈ head, decide (c = '\n') = false)
    (rest : List Char) :
    cut (head ++ '\n' :: rest) = head :: (if rest = [] then [] else cut rest) := by
  have parts := Pieces.splitBy_append none (s := '\n') (by decide) rest
  unfold cut
  rw [Pieces.split, parts, List.getLast?_append, Option.or_of_isSome (by simp)]
  rcases rest with _ | ⟨c, rest⟩
  · rfl
  · have some : Pieces.splitBy (fun x => decide (x = '\n')) (c :: rest) ≠ [] := List.cons_ne_nil _ _
    obtain ⟨piece, pieces, shape⟩ := List.exists_cons_of_ne_nil some
    rw [if_neg (List.cons_ne_nil _ _), List.getLast?_cons_cons, Pieces.split, shape]
    dsimp only
    split
    · rfl
    · rfl

/-! ## Lines of more than characters -/

section PhysicalBy

variable {α : Type} (char : α → Char)

/-- Without one carriage return at the end. -/
def dropReturnBy (line : List α) : List α :=
  if line.getLast?.map char = some '\r' then line.dropLast else line

/-- The lines of a list whose elements have characters. -/
def physicalBy (text : List α) : List (List α) :=
  let pieces := Pieces.splitBy (fun x => decide (char x = '\n')) text
  let last := pieces.getLast?.getD []
  pieces.dropLast.map (dropReturnBy char) ++ (if last.isEmpty then [] else [last])

variable {char}

theorem physicalBy_flat {text : List α} (none : ∀ x ∈ text, decide (char x = '\n') = false) :
    physicalBy char text = if text.isEmpty then [] else [text] := by
  simp [physicalBy, Pieces.splitBy_of_none none]

theorem physicalBy_append {head : List α} (none : ∀ x ∈ head, decide (char x = '\n') = false)
    {newline : α} (here : decide (char newline = '\n') = true) (rest : List α) :
    physicalBy char (head ++ newline :: rest) = dropReturnBy char head :: physicalBy char rest := by
  have cut := Pieces.splitBy_append none here rest
  have some : Pieces.splitBy (fun x => decide (char x = '\n')) rest ≠ [] := List.cons_ne_nil _ _
  obtain ⟨piece, pieces, shape⟩ := List.exists_cons_of_ne_nil some
  simp only [physicalBy, cut, shape, List.dropLast_cons_cons, List.map_cons,
    List.getLast?_cons_cons, List.cons_append]

theorem dropReturnBy_map (line : List α) :
    (dropReturnBy char line).map char = dropReturn (line.map char) := by
  unfold dropReturnBy dropReturn
  rw [List.getLast?_map]
  split <;> simp [List.map_dropLast]

/-- What is known of the characters does not change the lines. -/
theorem physicalBy_map (text : List α) :
    (physicalBy char text).map (List.map char) = physical (text.map char) := by
  induction text using line_induction (p := fun x => decide (char x = '\n')) with
  | flat text none =>
      rw [physicalBy_flat none, physical, segments_flat (by simpa using none)]
      cases text <;> simp
  | line head newline rest none here ih =>
      have none' : ∀ c ∈ head.map char, decide (c = '\n') = false := by
        intro c member
        obtain ⟨x, inside, rfl⟩ := List.mem_map.1 member
        exact none x inside
      have cut := segments_append none' here (rest.map char)
      rw [physicalBy_append none here, List.map_cons, ih, dropReturnBy_map, List.map_append,
        List.map_cons]
      unfold physical
      rw [cut, List.map_cons]

/-- Characters in front of a text that does not begin with a newline begin its first line. -/
theorem physicalBy_extend {head rest : List α} (nonempty : head ≠ [])
    (none : ∀ x ∈ head, decide (char x = '\n') = false)
    (apart : rest.head?.map char ≠ some '\n') :
    physicalBy char (head ++ rest) =
      (head ++ ((physicalBy char rest).head?.getD [])) :: (physicalBy char rest).tail := by
  induction rest using line_induction (p := fun x => decide (char x = '\n')) with
  | flat rest none' =>
      have both : ∀ x ∈ head ++ rest, decide (char x = '\n') = false := fun x member =>
        (List.mem_append.1 member).elim (none x) (none' x)
      rw [physicalBy_flat both, physicalBy_flat none', if_neg (by simp [nonempty])]
      cases rest <;> simp
  | line line newline rest none' here ih =>
      have both : ∀ x ∈ head ++ line, decide (char x = '\n') = false := fun x member =>
        (List.mem_append.1 member).elim (none x) (none' x)
      rw [← List.append_assoc, physicalBy_append both here, physicalBy_append none' here]
      have some : line ≠ [] := by
        rintro rfl
        exact apart (by simpa using here)
      have last : (head ++ line).getLast? = line.getLast? := by
        rw [List.getLast?_append, List.getLast?_eq_some_getLast some, Option.some_or]
      simp only [dropReturnBy, last, List.head?_cons, List.tail_cons, Option.getD_some]
      split
      · rw [List.dropLast_append_of_ne_nil some]
      · rfl

end PhysicalBy

/-! ## Lines of bytes -/

/-- A line of bytes is a line when it is read as text. -/
theorem flat_decodeLossyChars {line : Bytes} (flat : ∀ b ∈ line, decide (b = 0x0A) = false) :
    ∀ c ∈ Utf8.decodeLossyChars line, decide (c = '\n') = false := by
  intro c member
  refine decide_eq_false ?_
  rintro rfl
  exact of_decide_eq_false (flat _ (Utf8.newline_mem member)) rfl

/-- Bytes are cut at the newlines of their text, whatever else they spell. -/
theorem split_decodeLossyChars (bytes : Bytes) :
    Pieces.split '\n' (Utf8.decodeLossyChars bytes) =
      (Pieces.split 0x0A bytes).map Utf8.decodeLossyChars := by
  unfold Pieces.split
  induction bytes using line_induction (p := fun b : UInt8 => decide (b = 0x0A)) with
  | flat line flat =>
      rw [Pieces.splitBy_of_none flat, Pieces.splitBy_of_none (flat_decodeLossyChars flat)]
      rfl
  | line head newline rest flat here ih =>
      obtain rfl : newline = 0x0A := of_decide_eq_true here
      rw [Utf8.decodeLossyChars_append_ascii head (by decide), Pieces.splitBy_append flat here,
        Pieces.splitBy_append (flat_decodeLossyChars flat) (by decide), ih, List.map_cons]

/-- Lines that are each ended by a newline are the lines of their text. -/
theorem cut_ended {lines : List Bytes} (nonempty : lines ≠ []) (flat : ∀ line ∈ lines, 0x0A ∉ line) :
    cut (Utf8.decodeLossyChars (lines.flatMap fun line => line ++ [0x0A])) =
      lines.map Utf8.decodeLossyChars := by
  have last : (Utf8.decodeLossyChars (lines.flatMap fun line => line ++ [0x0A])).getLast? =
      some '\n' := by
    rw [← List.dropLast_concat_getLast nonempty, List.flatMap_append, List.flatMap_singleton,
      ← List.append_assoc, Utf8.decodeLossyChars_append_ascii _ (by decide)]
    simp
  unfold cut
  rw [split_decodeLossyChars, Pieces.split_ended flat]
  dsimp only
  rw [if_pos last, List.map_append, List.map_singleton, List.dropLast_concat]

end TokenBlame.Lines
