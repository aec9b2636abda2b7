/-
# TokenBlame.Proofs.BackMap.Indentation -- who has the text between the tokens of an indented file

The text from a token's own place up to the next token's own place should belong to the token's
line, whether it is code, trailing blanks or blank lines.  It does unless the next token is
found too early, and that can only happen to an indentation: its blanks may stand in front of
its own line as well.

Since an indentation begins a line and has no newline in it, a place where it is found too early
is between the end of the token in front of it, wherever that one was found, and its own place
(`overtaken_indentation`).  So blanks at the end of a line, or on a line of their own, are taken
for the next indentation if they are as long (`trailing_blank_taken`).
-/
import TokenBlame.Proofs.BackMap.Forward
import TokenBlame.Proofs.Token.Layout

set_option autoImplicit false

namespace TokenBlame.BackMap

open Token

variable {blame : List BlameLine} {path : String} {content : Bytes}

/-- How many characters of a file are in front of the place behind some of its pieces. -/
def placeBehind (cut : Cut path content) (earlier : List (Bytes × Bytes)) : Nat :=
  (Utf8.decodeLossyChars (cut.lead ++ Pieces.joined earlier)).length

/-! ## Places in a cut -/

theorem decode_behind (cut : Cut path content) {earlier later : List (Bytes × Bytes)}
    (split : cut.pieces = earlier ++ later) :
    ∃ behind, Utf8.decodeLossyChars content =
      Utf8.decodeLossyChars (cut.lead ++ Pieces.joined earlier) ++ behind := by
  refine ⟨Pieces.joined (later.map decodePiece), ?_⟩
  rw [decode_cut cut, decode_earlier cut split, split, List.append_assoc]
  simp [Pieces.joined]

/-- A token and the gap behind it are between its place and the next one. -/
theorem placeBehind_concat (cut : Cut path content) {earlier later : List (Bytes × Bytes)}
    {token gap : Bytes} (split : cut.pieces = earlier ++ (token, gap) :: later) :
    placeBehind cut (earlier ++ [(token, gap)]) =
      placeBehind cut earlier + token.length + (Utf8.decodeLossyChars gap).length := by
  have longer : cut.pieces = (earlier ++ [(token, gap)]) ++ later := by simpa using split
  have own : token ∈ tokens path content :=
    token_of_mem_pieces cut (show (token, gap) ∈ cut.pieces from split ▸ by simp)
  unfold placeBehind
  rw [decode_earlier cut longer, decode_earlier cut split]
  simp [decodePiece, Pieces.joined, decode_token (ascii_of_mem_tokens own).2]
  omega

theorem newline_of_beginsLine {before : Bytes} (begins : BeginsLine before) :
    ∀ c ∈ (Utf8.decodeLossyChars before).getLast?, c = '\n' := by
  rcases List.eq_nil_or_concat before with rfl | ⟨front, b, rfl⟩
  · simp
  · obtain rfl : b = 0x0A := begins b (by simp)
    rw [List.concat_eq_append, Utf8.decodeLossyChars_append_ascii front (by decide)]
    intro c last
    have : Char.ofNat (0x0A : UInt8).toNat = c := by simpa using last
    rw [← this]
    rfl

theorem not_newline_of_isIndentation {token : Bytes} (blanks : IsIndentation token) :
    '\n' ∉ Utf8.decodeLossyChars token :=
  fun member => absurd (blanks.2 _ (Utf8.newline_mem member)) (by decide)

/-- The tokens of a file stand in its text at their own places. -/
theorem Blames.stand (blames : Blames blame path content) (cut : Cut path content)
    {earlier later : List (Bytes × Bytes)} {token gap : Bytes}
    (split : cut.pieces = earlier ++ (token, gap) :: later) :
    ∃ own line, Stand 0 (Utf8.decodeLossyChars content) blame own ∧
      own[earlier.length]? = some (placeBehind cut earlier) ∧
      blame[earlier.length]? = some line ∧ line.context = Utf8.decodeLossy token := by
  have contexts : blame.map (·.context) =
      ((earlier ++ (token, gap) :: later).map (·.1)).map Utf8.decodeLossy := by
    rw [← split, cut.tokens_eq]
    exact blames
  have found := stand_decoded cut.lead (fun piece member =>
    ascii_of_mem_tokens (token_of_mem_pieces cut (split ▸ member))) contexts
  rwa [← split, cut.whole] at found

/-! ## Who has the text between two tokens -/

/-- **An indentation is found too early exactly if its blanks stand between** the end of the
token in front of it, at the place where that one was found, and its own line. -/
theorem overtaken_indentation (blames : Blames blame path content) (layout : Layout path content)
    {earlier later : List (Bytes × Bytes)} {token gap next gap' : Bytes}
    (split : layout.pieces = earlier ++ (token, gap) :: (next, gap') :: later)
    (blanks : IsIndentation next) {place : Nat}
    (here : (places blame (Utf8.decodeLossyChars content))[earlier.length]? = some (some place))
    (early : place ≤ placeBehind layout.toCut earlier) :
    Overtaken blame (Utf8.decodeLossyChars content) earlier.length
        (placeBehind layout.toCut (earlier ++ [(token, gap)])) ↔
      Utf8.decodeLossyChars next <:+: (Utf8.decodeLossyChars
        (layout.lead ++ Pieces.joined (earlier ++ [(token, gap)]))).drop (place + token.length) := by
  have longer : layout.pieces = (earlier ++ [(token, gap)]) ++ (next, gap') :: later := by
    simpa using split
  obtain ⟨own, line, stand, -, at_, context⟩ := blames.stand layout.toCut split
  obtain ⟨line', then_, context'⟩ := blames.line_at layout.toCut longer
  rw [List.length_append, List.length_singleton] at then_
  obtain ⟨begins, -⟩ := layout.indentation _ _ _ _ longer blanks
  obtain ⟨behind, whole⟩ := decode_behind layout.toCut longer
  have member : token ∈ tokens path content :=
    token_of_mem_pieces layout.toCut (show (token, gap) ∈ layout.pieces from split ▸ by simp)
  have size : line.context.toList.length = token.length := by
    rw [context, Utf8.decodeLossy, String.toList_ofList, decode_token (ascii_of_mem_tokens member).2,
      List.length_map]
  have chars : line'.context.toList = Utf8.decodeLossyChars next := by
    rw [context', Utf8.decodeLossy, String.toList_ofList]
  have room := placeBehind_concat layout.toCut split
  have found := overtaken_iff_infix stand at_ then_ here whole
    (by rw [size]; unfold placeBehind at room early; omega)
    (by rw [chars, decode_token blanks.lt]; simpa using blanks.1)
    (by
      intro c last
      rw [newline_of_beginsLine begins c last, chars]
      exact not_newline_of_isIndentation blanks)
  rw [size, chars] at found
  exact found

/-- What the blame of the tokens of an indented file recovers from the text of the file. -/
structure Indents (blame : List BlameLine) (path : String) (content : Bytes) : Prop where
  /-- The file has its tokens at places of their own, indentations at the beginning of lines. -/
  layout : Nonempty (Layout path content)
  /-- The lines that are shown have the characters of the text with their owners. -/
  shown : (lines blame (Utf8.decodeLossyChars content)).map (fun line => credits line.fragments) =
    if blame.isEmpty then []
    else Lines.physicalBy (·.1) ((Utf8.decodeLossyChars content).zip
      (owners blame (Utf8.decodeLossyChars content)))
  /-- A token is found at its own place or before it, a visible one at its own place.  The text
  from its own place up to the next token's is its line's, unless the next token is an
  indentation whose blanks stand between the end of what was found and its own place. -/
  credited : ∀ layout : Layout path content, ∀ earlier token gap later,
    layout.pieces = earlier ++ (token, gap) :: later →
    ∃ line place, blame[earlier.length]? = some line ∧ line.context = Utf8.decodeLossy token ∧
      (places blame (Utf8.decodeLossyChars content))[earlier.length]? = some (some place) ∧
      place ≤ placeBehind layout.toCut earlier ∧
      (IsVisible token → place = placeBehind layout.toCut earlier) ∧
      (∀ stop, placeBehind layout.toCut earlier < stop →
        stop ≤ placeBehind layout.toCut (earlier ++ [(token, gap)]) →
        Held blame (Utf8.decodeLossyChars content) earlier.length
          (placeBehind layout.toCut earlier) stop line) ∧
      (Overtaken blame (Utf8.decodeLossyChars content) earlier.length
          (placeBehind layout.toCut (earlier ++ [(token, gap)])) ↔
        ∃ next gap' rest, later = (next, gap') :: rest ∧ IsIndentation next ∧
          Utf8.decodeLossyChars next <:+: (Utf8.decodeLossyChars
            (layout.lead ++ Pieces.joined (earlier ++ [(token, gap)]))).drop
              (place + token.length))

/-- The last token, and one in front of a visible token, is not overtaken. -/
theorem not_overtaken_visible (blames : Blames blame path content) (cut : Cut path content)
    {earlier later : List (Bytes × Bytes)} {token gap : Bytes}
    (split : cut.pieces = earlier ++ (token, gap) :: later)
    (visible : ∀ piece ∈ later.head?, IsVisible piece.1) :
    ¬Overtaken blame (Utf8.decodeLossyChars content) earlier.length
      (placeBehind cut (earlier ++ [(token, gap)])) := by
  intro overtaken
  obtain ⟨own, -, stand, -⟩ := blames.stand cut split
  obtain ⟨place, less, found⟩ := (overtaken_iff stand).1 overtaken
  have longer : cut.pieces = (earlier ++ [(token, gap)]) ++ later := by simpa using split
  have count : (earlier ++ [(token, gap)]).length = earlier.length + 1 := by simp
  cases later with
  | nil =>
      have none : blame.length = earlier.length + 1 := by
        have := congrArg List.length (blames.contexts cut)
        simpa [longer] using this
      obtain ⟨all, located, -⟩ := stand.located
      have short := (Stand.of_located located).length_eq
      rw [located, List.getElem?_map, List.getElem?_eq_none (by omega)] at found
      cases found
  | cons piece rest =>
      obtain ⟨line, at_, -⟩ := blames.line_at cut longer
      have own := (blames.visible cut longer (visible piece rfl) at_).1
      rw [count, found] at own
      have : place = placeBehind cut (earlier ++ [(token, gap)]) :=
        Option.some.inj (Option.some.inj own)
      omega

/-- **Attribution with indentations.**  Whatever commits the tokens of a file are blamed on,
the text from a token's place up to the next one is credited to the token's line exactly as long
as the next token is no indentation that is found too early. -/
theorem indented_tokens_credited (blame : List BlameLine) (path : String) (content : Bytes)
    (blames : Blames blame path content) : Indents blame path content where
  layout := nonempty_layout path content
  shown := credits_lines blame _ blames.begins
  credited := by
    intro layout earlier token gap later split
    obtain ⟨own, line, stand, here, at_, context⟩ := blames.stand layout.toCut split
    obtain ⟨place, early, found⟩ := stand.found_at here
    have longer : layout.pieces = (earlier ++ [(token, gap)]) ++ later := by simpa using split
    obtain ⟨behind, whole⟩ := decode_behind layout.toCut longer
    refine ⟨line, place, at_, context, found, early, ?_, ?_, ?_⟩
    · intro visible
      have own := (blames.visible layout.toCut split visible at_).1
      exact Option.some.inj (Option.some.inj (found.symm.trans own))
    · intro stop above below
      refine stand.held at_ here above ?_
      rw [whole, List.length_append]
      exact Nat.le_trans below (Nat.le_add_right _ _)
    · constructor
      · intro overtaken
        rcases later with _ | ⟨⟨next, gap'⟩, rest⟩
        · exact absurd overtaken (not_overtaken_visible blames layout.toCut split (by simp))
        · have member : next ∈ tokens path content :=
            token_of_mem_pieces layout.toCut
              (show (next, gap') ∈ layout.pieces from split ▸ by simp)
          rcases mem_tokens member with visible | ⟨-, blanks⟩
          · refine absurd overtaken (not_overtaken_visible blames layout.toCut split ?_)
            simpa using visible
          · exact ⟨next, gap', rest, rfl, blanks,
              (overtaken_indentation blames layout split blanks found early).1 overtaken⟩
      · rintro ⟨next, gap', rest, rfl, blanks, between⟩
        exact (overtaken_indentation blames layout split blanks found early).2 between

/-- The blank behind `if` is taken for the indentation of the next line: it and the line end
behind it do not belong to the line of `if`. -/
theorem trailing_blank_taken :
    let blame := [⟨"c1", "if", 1, 1, false⟩, ⟨"c2", " ", 1, 2, false⟩, ⟨"c3", "x", 1, 3, false⟩]
    let content := Utf8.encode "if \n x"
    Blames blame "a.py" content ∧ Indents blame "a.py" content ∧
      OwnedBy (owners blame (Utf8.decodeLossyChars content)) 0 2 (some "c1") ∧
      ¬OwnedBy (owners blame (Utf8.decodeLossyChars content)) 0 4 (some "c1") := by
  intro blame content
  have blames : Blames blame "a.py" content := by decide
  refine ⟨blames, indented_tokens_credited blame "a.py" content blames, ?_, fun owned => ?_⟩
  · intro i _ below
    obtain rfl | rfl : i = 0 ∨ i = 1 := by omega
    · decide
    · decide
  · exact absurd (owned 2 (by decide) (by decide)) (by decide)

end TokenBlame.BackMap
