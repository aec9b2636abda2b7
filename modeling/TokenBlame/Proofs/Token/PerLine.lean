/-
# TokenBlame.Proofs.Token.PerLine -- the tokens of an indented file, line by line

Where indentation makes tokens, a file is cut at its newlines, and the tokens of a line are its
indentation, if it has one, and what are its tokens where indentation makes none
(`indented_tokens_per_line`).

The indentation of a line is the run of all the blanks that begin it (`Indents`).  There is none
on a line on which nothing follows the blanks, or a carriage return, a vertical tab or a form feed
does.
-/
import TokenBlame.Proofs.Token.Layout

set_option autoImplicit false

namespace TokenBlame.Token

/-! ## The indentation of a line -/

/-- The blanks that begin a line: at least one, all there are, and behind them a byte that is
something to indent. -/
structure Indents (line run : Bytes) : Prop where
  nonempty : run ≠ []
  blanks : ∀ b ∈ run, b = 0x20 ∨ b = 0x09
  followed : ∃ b rest, line = run ++ b :: rest ∧ (b ≠ 0x20 ∧ b ≠ 0x09) ∧
    b ≠ 0x0D ∧ b ≠ 0x0B ∧ b ≠ 0x0C

/-- The indentation of a line, if it has one. -/
def indentation? (line : Bytes) : Option Bytes :=
  let run := line.takeWhile isIndent
  if !run.isEmpty && (line.dropWhile isIndent).head?.any fun b => !isInvisible b then some run
  else none

theorem isInvisible_iff {b : UInt8} : isInvisible b = true ↔
    b = 0x20 ∨ b = 0x09 ∨ b = 0x0A ∨ b = 0x0B ∨ b = 0x0C ∨ b = 0x0D := by
  simp only [isInvisible, Bool.or_eq_true, Bool.and_eq_true, decide_eq_true_eq, beq_iff_eq,
    UInt8.le_iff_toNat_le, ← UInt8.toNat_inj]
  simp
  omega

/-- What stands behind the blanks of a line ends them. -/
theorem indentation?_append {run rest : Bytes} {b : UInt8}
    (blanks : ∀ b ∈ run, isIndent b = true) (other : isIndent b = false) :
    indentation? (run ++ b :: rest) = if !run.isEmpty && !isInvisible b then some run else none := by
  have here : ¬isIndent b = true := Bool.eq_false_iff.1 other
  have front : (run ++ b :: rest).takeWhile isIndent = run := by
    rw [List.takeWhile_append_of_pos blanks, List.takeWhile_cons_of_neg here, List.append_nil]
  have behind : (run ++ b :: rest).dropWhile isIndent = b :: rest := by
    rw [List.dropWhile_append_of_pos blanks, List.dropWhile_cons_of_neg here]
  unfold indentation?
  rw [front, behind]
  rfl

theorem indentation?_blanks {line : Bytes} (blanks : ∀ b ∈ line, isIndent b = true) :
    indentation? line = none := by
  have behind : (line ++ []).dropWhile isIndent = [] := List.dropWhile_append_of_pos blanks
  rw [List.append_nil] at behind
  simp [indentation?, behind]

/-- A line is blank, or a byte behind its blanks is none. -/
theorem blanks_cases (line : Bytes) : (∀ b ∈ line, isIndent b = true) ∨
    ∃ run b rest, line = run ++ b :: rest ∧ (∀ b ∈ run, isIndent b = true) ∧ isIndent b = false := by
  induction line with
  | nil => exact .inl (by simp)
  | cons b line ih =>
      cases blank : isIndent b with
      | false => exact .inr ⟨[], b, line, rfl, by simp, blank⟩
      | true =>
          refine ih.imp (fun blanks => List.forall_mem_cons.2 ⟨blank, blanks⟩) ?_
          rintro ⟨run, other, rest, rfl, blanks, apart⟩
          exact ⟨b :: run, other, rest, rfl, List.forall_mem_cons.2 ⟨blank, blanks⟩, apart⟩

theorem indentation?_eq_some_iff {line run : Bytes} (flat : 0x0A ∉ line) :
    indentation? line = some run ↔ Indents line run := by
  constructor
  · intro found
    rcases blanks_cases line with blanks | ⟨front, b, rest, rfl, blanks, apart⟩
    · rw [indentation?_blanks blanks] at found
      cases found
    · rw [indentation?_append blanks apart] at found
      split at found
      · rename_i counts
        obtain rfl := Option.some.inj found
        obtain ⟨some, visible⟩ := Bool.and_eq_true_iff.1 counts
        have seen : ¬isInvisible b = true := by simpa using visible
        simp only [isInvisible_iff, not_or] at seen
        obtain ⟨notBlank, notTab, -, notVertical, notFeed, notReturn⟩ := seen
        exact ⟨by simpa using some, fun c member => isIndent_iff.1 (blanks c member), b, rest, rfl,
          ⟨notBlank, notTab⟩, notReturn, notVertical, notFeed⟩
      · cases found
  · rintro ⟨nonempty, blanks, b, rest, rfl, ⟨notBlank, notTab⟩, notReturn, notVertical, notFeed⟩
    have notNewline : b ≠ 0x0A := by
      rintro rfl
      exact flat (by simp)
    have apart : isIndent b = false := Bool.eq_false_iff.2 fun blank =>
      (isIndent_iff.1 blank).elim notBlank notTab
    have seen : isInvisible b = false := Bool.eq_false_iff.2 fun invisible => by
      rcases isInvisible_iff.1 invisible with h | h | h | h | h | h <;> contradiction
    rw [indentation?_append (fun c member => isIndent_iff.2 (blanks c member)) apart, seen]
    simpa using nonempty

/-! ## Line by line -/

/-- A line is scanned as one in which indentation makes no tokens, behind its indentation. -/
theorem lineTokens_flat {line : Bytes} (flat : ∀ b ∈ line, (b == 0x0A) = false) :
    (scan true line).lineTokens = (indentation? line).toList ++ (scan false line).tokens := by
  obtain ⟨indent, next⟩ := scan_front false line
  rw [scan_line flat]
  unfold Scan.lineTokens indentation?
  rw [indent, next]
  by_cases counts : (!(line.takeWhile isIndent).isEmpty &&
      (line.dropWhile isIndent).head?.any fun b => !isInvisible b) = true
  · simp only [if_pos counts, Option.toList_some, List.singleton_append]
  · simp only [if_neg counts, Option.toList_none, List.nil_append]

/-- How files are cut into tokens where indentation makes some, against a file in which it
makes none. -/
structure CutByLines (path plain : String) : Prop where
  /-- The lines are what is between the newlines. -/
  cut : ∀ content, (∀ line ∈ Pieces.split 0x0A content, 0x0A ∉ line) ∧
    (Pieces.split 0x0A content).flatMap (fun line => line ++ [0x0A]) = content ++ [0x0A]
  /-- Each line has its indentation in front of what are its tokens anywhere else. -/
  lines : ∀ content, tokens path content =
    (Pieces.split 0x0A content).flatMap fun line => (indentation? line).toList ++ tokens plain line
  /-- The indentation is the blanks in front, on the lines that have something to indent. -/
  indentation : ∀ content, ∀ line ∈ Pieces.split 0x0A content, ∀ run,
    indentation? line = some run ↔ Indents line run

theorem lineTokens_split (content : Bytes) :
    (scan true content).lineTokens = (Pieces.split 0x0A content).flatMap fun line =>
      (indentation? line).toList ++ (scan false line).tokens := by
  unfold Pieces.split
  induction content using Lines.line_induction (p := fun b : UInt8 => decide (b = 0x0A)) with
  | flat line flat =>
      rw [Pieces.splitBy_of_none flat, List.flatMap_singleton]
      exact lineTokens_flat flat
  | line head newline rest flat here ih =>
      obtain rfl : newline = 0x0A := of_decide_eq_true here
      rw [lineTokens_append_newline, Pieces.splitBy_append flat here, List.flatMap_cons, ih,
        lineTokens_flat flat]

/-- **The tokens of an indented file are those of its lines**, each behind its indentation. -/
theorem indented_tokens_per_line {path plain : String} (indented : isIndented path = true)
    (bare : isIndented plain = false) : CutByLines path plain where
  cut content := ⟨fun _ => Pieces.not_mem_of_mem_split, Pieces.flatMap_split 0x0A content⟩
  lines := by
    intro content
    unfold tokens
    rw [indented, bare]
    exact lineTokens_split content
  indentation := fun _ _ member _ =>
    indentation?_eq_some_iff (Pieces.not_mem_of_mem_split member)

/-- Two indentations, one in front of a byte that is no UTF-8, and three lines without any. -/
theorem five_lines_exact :
    isIndented "a.py" = true ∧ isIndented "a" = false ∧ CutByLines "a.py" "a" ∧
      tokens "a.py" ([0x09, 0x0B, 0x78, 0x0A] ++ [0x20, 0x0A] ++ [0x20, 0x09, 0xFF, 0x0A] ++
        [0x20, 0x0D, 0x0A] ++ [0x09, 0x78, 0x20, 0x79]) =
        [[0x78], [0x20, 0x09], [0x09], [0x78], [0x79]] :=
  ⟨by decide, by decide, indented_tokens_per_line (by decide) (by decide), by decide⟩

end TokenBlame.Token
