/-
# TokenBlame.Proofs.Token.Layout -- where the indentations of a file stand

A `Cut` fixes the places of words and punctuation, since no byte of them is left to the gaps.
The blanks of an indentation may also stand in gaps: behind a line's last token or on a blank
line.  A `Layout` is a cut in which every indentation begins a line and is followed by
something visible, as it was when it was made a token.

Every file has one (`nonempty_layout`).  A file is scanned line by line
(`lineTokens_append_newline`): the tokens of a line are those of the rest of it behind its
blanks, and the blanks if they count.
-/
import TokenBlame.Proofs.Text.Lines
import TokenBlame.Proofs.Token.Cut

set_option autoImplicit false

namespace TokenBlame.Token

/-! ## Scanning line by line -/

/-- What is known of bytes when a line end and other tokens are put behind them. -/
def Scan.continued (s : Scan) (others : List Bytes) : Scan :=
  ⟨s.word, s.indent, s.next.or (some 0x0A), s.later ++ others⟩

theorem Scan.tokens_continued (s : Scan) (others : List Bytes) :
    (s.continued others).tokens = s.tokens ++ others := by
  unfold Scan.tokens Scan.continued
  split <;> rfl

/-- A line end is nothing to indent, just as the end of the file. -/
theorem Scan.lineTokens_continued (s : Scan) (others : List Bytes) :
    (s.continued others).lineTokens = s.lineTokens ++ others := by
  have counts : (s.continued others).next.any (fun b => !isInvisible b) =
      s.next.any fun b => !isInvisible b := by
    obtain ⟨word, indent, next, later⟩ := s
    cases next <;> rfl
  have indent : (s.continued others).indent = s.indent := rfl
  unfold Scan.lineTokens
  rw [counts, indent, Scan.tokens_continued]
  split <;> rfl

theorem Scan.push_continued (b : UInt8) (s : Scan) (others : List Bytes) :
    (s.continued others).push true b = (s.push true b).continued others := by
  unfold Scan.push
  rw [Scan.tokens_continued, Scan.lineTokens_continued]
  split
  · rfl
  split
  · rfl
  split
  · rfl
  split <;> rfl

theorem scan_append_newline (line rest : Bytes) :
    scan true (line ++ 0x0A :: rest) =
      (scan true line).continued (scan true rest).lineTokens := by
  induction line with
  | nil => rfl
  | cons b line ih =>
      show (scan true (line ++ 0x0A :: rest)).push true b = _
      rw [ih, Scan.push_continued]
      rfl

/-- The tokens of a file are those of its first line and those of the lines behind it. -/
theorem lineTokens_append_newline (line rest : Bytes) :
    (scan true (line ++ 0x0A :: rest)).lineTokens =
      (scan true line).lineTokens ++ (scan true rest).lineTokens := by
  rw [scan_append_newline, Scan.lineTokens_continued]

/-- Within a line it makes no difference to a scan whether indentations are tokens. -/
theorem scan_line {line : Bytes} (flat : ∀ b ∈ line, (b == 0x0A) = false) :
    scan true line = scan false line := by
  induction line with
  | nil => rfl
  | cons b line ih =>
      have own : (b == 0x0A) = false := flat b List.mem_cons_self
      show (scan true line).push true b = (scan false line).push false b
      rw [ih fun b' member => flat b' (List.mem_cons_of_mem _ member)]
      simp [Scan.push, own]

/-- A scan knows the blanks at the front and the byte behind them. -/
theorem scan_front (indented : Bool) (content : Bytes) :
    (scan indented content).indent = content.takeWhile isIndent ∧
      (scan indented content).next = (content.dropWhile isIndent).head? := by
  induction content with
  | nil => exact ⟨rfl, rfl⟩
  | cons b content ih =>
      obtain ⟨indent, next⟩ := ih
      have other : isTokenByte b = true → isIndent b = false := by
        intro token
        cases blank : isIndent b with
        | false => rfl
        | true => rw [not_isTokenByte_of_isIndent blank] at token; cases token
      show ((scan indented content).push indented b).indent = _ ∧
        ((scan indented content).push indented b).next = _
      unfold Scan.push
      split
      · rename_i word
        simp [other (isTokenByte_of_isWordByte word)]
      split
      · rename_i mark
        simp [other (isTokenByte_of_isPunctuation mark)]
      split
      · rename_i blank
        simp [blank, indent, next]
      · rename_i blank
        split <;> simp [blank]

/-! ## Layouts -/

/-- What follows here begins a line. -/
def BeginsLine (before : Bytes) : Prop :=
  ∀ b ∈ before.getLast?, b = 0x0A

/-- Something visible follows at once. -/
def Seen (behind : Bytes) : Prop :=
  ∃ b ∈ behind.head?, isInvisible b = false

/-- A cut whose indentations stand where they were made tokens. -/
structure Layout (path : String) (content : Bytes) extends Cut path content where
  indentation : ∀ earlier token gap later, pieces = earlier ++ (token, gap) :: later →
    IsIndentation token →
      BeginsLine (lead ++ Pieces.joined earlier) ∧ Seen (gap ++ Pieces.joined later)

theorem BeginsLine.concat (before : Bytes) : BeginsLine (before ++ [0x0A]) := by
  simp [BeginsLine]

theorem Seen.append {behind : Bytes} (seen : Seen behind) (more : Bytes) : Seen (behind ++ more) := by
  obtain ⟨b, first, visible⟩ := seen
  refine ⟨b, ?_, visible⟩
  rw [Option.mem_def] at first ⊢
  rw [List.head?_append, first, Option.some_or]

theorem IsVisible.not_isIndentation {token : Bytes} (visible : IsVisible token) :
    ¬IsIndentation token := by
  rintro ⟨nonempty, blanks⟩
  obtain ⟨b, rest, rfl⟩ := List.exists_cons_of_ne_nil nonempty
  have own := visible.2 b List.mem_cons_self
  rw [not_isTokenByte_of_isIndent (blanks b List.mem_cons_self)] at own
  cases own

/-- A reading of the bytes behind `before` as tokens and bytes that are in no token, from left to
right, each indentation at its place. -/
inductive Reads : Bytes → Bytes → List Bytes → Prop
  | done (before : Bytes) : Reads before [] []
  | skip {before : Bytes} {b : UInt8} {content : Bytes} {found : List Bytes}
      (apart : isTokenByte b = false) (rest : Reads (before ++ [b]) content found) :
      Reads before (b :: content) found
  | token {before token content : Bytes} {found : List Bytes}
      (own : IsIndentation token → BeginsLine before ∧ Seen content)
      (rest : Reads (before ++ token) content found) :
      Reads before (token ++ content) (token :: found)

variable {before : Bytes}

theorem Reads.append {first second : Bytes} {found others : List Bytes}
    (one : Reads before first found) (two : Reads (before ++ first) second others) :
    Reads before (first ++ second) (found ++ others) := by
  induction one with
  | done => simpa using two
  | skip apart _ ih => exact .skip apart (ih (by simpa using two))
  | token own _ ih =>
      rw [List.append_assoc]
      exact .token (fun blanks => (own blanks).imp_right (Seen.append · second))
        (ih (by simpa using two))

theorem Reads.gap {gap content : Bytes} {found : List Bytes}
    (apart : ∀ b ∈ gap, isTokenByte b = false) (rest : Reads (before ++ gap) content found) :
    Reads before (gap ++ content) found := by
  induction gap generalizing before with
  | nil => simpa using rest
  | cons b gap ih =>
      exact .skip (apart b List.mem_cons_self)
        (ih (fun b' member => apart b' (List.mem_cons_of_mem _ member)) (by simpa using rest))

/-- Visible tokens may stand anywhere. -/
theorem Reads.pieces {lead : Bytes} {pieces : List (Bytes × Bytes)}
    (lead_gap : ∀ b ∈ lead, isTokenByte b = false)
    (gaps : ∀ piece ∈ pieces, ∀ b ∈ piece.2, isTokenByte b = false)
    (visible : ∀ piece ∈ pieces, IsVisible piece.1) :
    Reads before (lead ++ Pieces.joined pieces) (pieces.map (·.1)) := by
  induction pieces generalizing before lead with
  | nil => exact .gap lead_gap (.done _)
  | cons piece pieces ih =>
      have later : Reads (before ++ lead ++ piece.1) (piece.2 ++ Pieces.joined pieces)
          (pieces.map (·.1)) := ih (gaps piece List.mem_cons_self)
        (fun p member => gaps p (List.mem_cons_of_mem _ member))
        (fun p member => visible p (List.mem_cons_of_mem _ member))
      rw [Pieces.joined_cons, List.append_assoc]
      exact .gap lead_gap (.token
        (fun blanks => absurd blanks (visible piece List.mem_cons_self).not_isIndentation) later)

/-- A line is read as its indentation, if that counts, and the rest. -/
theorem reads_line {line : Bytes} (flat : ∀ b ∈ line, (b == 0x0A) = false)
    (begins : BeginsLine before) : Reads before line (scan true line).lineTokens := by
  obtain ⟨lead, pieces, covers⟩ := scan_covers false line
  obtain ⟨indent, next⟩ := scan_front false line
  have visible : ∀ piece ∈ pieces, IsVisible piece.1 := by
    intro piece member
    have own := (scan_shaped false line).tokens piece.1 (covers.tokens_eq ▸ List.mem_map_of_mem member)
    exact own.resolve_right fun h => by cases h.1
  rw [scan_line flat]
  unfold Scan.lineTokens
  rw [← covers.tokens_eq]
  split
  · rename_i counts
    obtain ⟨gap, split⟩ := covers.indent
    have whole : (scan false line).indent ++ (gap ++ Pieces.joined pieces) = line := by
      rw [← List.append_assoc, split, covers.whole]
    have behind : gap ++ Pieces.joined pieces = line.dropWhile isIndent := by
      refine List.append_cancel_left (whole.trans ?_)
      rw [indent, List.takeWhile_append_dropWhile]
    have seen : Seen (gap ++ Pieces.joined pieces) := by
      rw [next, ← behind] at counts
      obtain ⟨-, counts⟩ := Bool.and_eq_true_iff.1 counts
      obtain ⟨b, first, visible⟩ := (Option.any_eq_true _ _).1 counts
      exact ⟨b, first, by simpa using visible⟩
    conv => arg 2; rw [← whole]
    exact .token (fun _ => ⟨begins, seen⟩) (.pieces
      (fun b member => covers.lead_gap b (split ▸ List.mem_append_right _ member)) covers.gaps visible)
  · conv => arg 2; rw [← covers.whole]
    exact .pieces covers.lead_gap covers.gaps visible

/-- A file is read line by line. -/
theorem reads_scan {content : Bytes} (begins : BeginsLine before) :
    Reads before content (scan true content).lineTokens := by
  induction content using Lines.line_induction (p := fun b : UInt8 => b == 0x0A) generalizing before with
  | flat line flat => exact reads_line flat begins
  | line head newline rest flat here ih =>
      obtain rfl : newline = 0x0A := by simpa using here
      rw [lineTokens_append_newline]
      exact (reads_line flat begins).append
        (.skip (by decide) (ih (BeginsLine.concat _)))

/-- A reading is a cut, and its indentations are where they were read. -/
theorem Reads.layout {content : Bytes} {found : List Bytes} (reads : Reads before content found) :
    ∃ lead pieces, lead ++ Pieces.joined pieces = content ∧ pieces.map (·.1) = found ∧
      (∀ b ∈ lead, isTokenByte b = false) ∧
      (∀ piece ∈ pieces, ∀ b ∈ piece.2, isTokenByte b = false) ∧
      ∀ earlier token gap later, pieces = earlier ++ (token, gap) :: later → IsIndentation token →
        BeginsLine (before ++ lead ++ Pieces.joined earlier) ∧ Seen (gap ++ Pieces.joined later) := by
  induction reads with
  | done => exact ⟨[], [], rfl, rfl, by simp, by simp, by simp⟩
  | skip apart _ ih =>
      obtain ⟨lead, pieces, whole, tokens_eq, lead_gap, gaps, placed⟩ := ih
      refine ⟨_ :: lead, pieces, by rw [List.cons_append, whole], tokens_eq, ?_, gaps, ?_⟩
      · exact List.forall_mem_cons.2 ⟨apart, lead_gap⟩
      · simpa using placed
  | @token before token content found own _ ih =>
      obtain ⟨lead, pieces, whole, tokens_eq, lead_gap, gaps, placed⟩ := ih
      refine ⟨[], (token, lead) :: pieces, ?_, ?_, by simp, ?_, ?_⟩
      · rw [List.nil_append, Pieces.joined_cons, List.append_assoc, whole]
      · rw [List.map_cons, tokens_eq]
      · exact List.forall_mem_cons.2 ⟨lead_gap, gaps⟩
      · intro earlier token' gap later split blanks
        cases earlier with
        | nil =>
            obtain ⟨same, rfl⟩ := List.cons_eq_cons.1 split
            obtain ⟨rfl, rfl⟩ := Prod.mk.inj same
            rw [whole]
            simpa using own blanks
        | cons piece earlier =>
            obtain ⟨rfl, rest⟩ := List.cons_eq_cons.1 split
            simpa [Pieces.joined] using placed earlier token' gap later rest blanks

/-- Every file has a layout. -/
theorem nonempty_layout (path : String) (content : Bytes) : Nonempty (Layout path content) := by
  by_cases indented : isIndented path = true
  · have reads : Reads [] content (scan true content).lineTokens := reads_scan (by simp [BeginsLine])
    obtain ⟨lead, pieces, whole, tokens_eq, lead_gap, gaps, placed⟩ := reads.layout
    exact ⟨⟨lead, pieces, whole, by rw [tokens, if_pos indented, tokens_eq], lead_gap, gaps⟩, placed⟩
  · obtain ⟨cut⟩ := nonempty_cut path content
    refine ⟨⟨cut, ?_⟩⟩
    intro earlier token gap later split blanks
    have own : token ∈ tokens path content := by
      rw [← cut.tokens_eq, split]
      simp
    rcases mem_tokens own with visible | ⟨indented', -⟩
    · exact absurd blanks visible.not_isIndentation
    · exact absurd indented' indented

end TokenBlame.Token
