/-
# TokenBlame.Proofs.BackMap.Tokens -- blamed tokens are found where they were cut

A file is read twice: its tokens are cut out of its bytes, and they are found again in the
text that its bytes decode to.  Tokens are ASCII, so decoding splits at every token
(`decode_cut`); what lies between them decodes to characters that are in no token.  With
that the text is `Readable`, and each visible token is found at its own place.
-/
import TokenBlame.Proofs.BackMap.Credits
import TokenBlame.Proofs.Text.Utf8
import TokenBlame.Proofs.Token.Cut

set_option autoImplicit false

namespace TokenBlame.BackMap

open Token

/-! ## Characters of tokens -/

/-- A character that visible tokens are made of. -/
def isTokenChar (c : Char) : Bool :=
  decide (c.toNat < 0x80) && isTokenByte (UInt8.ofNat c.toNat)

theorem isTokenChar_ofNat {b : UInt8} (ascii : b.toNat < 0x80) :
    isTokenChar (Char.ofNat b.toNat) = isTokenByte b := by
  have same : (Char.ofNat b.toNat).toNat = b.toNat := Utf8.toNat_ofNat (by omega)
  unfold isTokenChar
  rw [same, UInt8.ofNat_toNat, decide_eq_true ascii, Bool.true_and]

/-- What is in no token decodes to characters that are in no token. -/
theorem isTokenChar_decode {bytes : Bytes} (apart : ∀ b ∈ bytes, isTokenByte b = false) :
    ∀ c ∈ Utf8.decodeLossyChars bytes, isTokenChar c = false := by
  intro c member
  rcases Utf8.mem_decodeLossyChars member with wide | ⟨b, inside, ascii, rfl⟩
  · unfold isTokenChar
    rw [decide_eq_false (by omega), Bool.false_and]
  · rw [isTokenChar_ofNat ascii, apart b inside]

/-! ## Decoding a cut -/

/-- The text of a token and the text of the gap behind it. -/
def decodePiece (piece : Bytes × Bytes) : List Char × List Char :=
  (Utf8.decodeLossyChars piece.1, Utf8.decodeLossyChars piece.2)

theorem decode_joined (lead : Bytes) {pieces : List (Bytes × Bytes)}
    (ascii : ∀ piece ∈ pieces, piece.1 ≠ [] ∧ ∀ b ∈ piece.1, b.toNat < 0x80) :
    Utf8.decodeLossyChars (lead ++ Pieces.joined pieces) =
      Utf8.decodeLossyChars lead ++ Pieces.joined (pieces.map decodePiece) := by
  induction pieces generalizing lead with
  | nil => simp
  | cons piece pieces ih =>
      obtain ⟨token, gap⟩ := piece
      obtain ⟨nonempty, own⟩ := ascii _ List.mem_cons_self
      have later := ih gap fun p member => ascii p (List.mem_cons_of_mem _ member)
      obtain ⟨b, bytes, rfl⟩ := List.exists_cons_of_ne_nil nonempty
      have first : b.toNat < 0x80 := own b List.mem_cons_self
      have others : ∀ b ∈ bytes, b.toNat < 0x80 := fun b' member =>
        own b' (List.mem_cons_of_mem _ member)
      have alone := Utf8.decodeLossyChars_ascii own []
      have cut := Utf8.decodeLossyChars_append_ascii lead first
        (bytes ++ (gap ++ Pieces.joined pieces))
      rw [List.append_nil, Utf8.decodeLossyChars_nil, List.append_nil] at alone
      rw [Pieces.joined_cons, List.map_cons, decodePiece, Pieces.joined_cons, alone,
        List.map_cons, ← List.append_assoc, List.cons_append, List.append_assoc, List.cons_append]
      simp only [List.cons_append, List.append_assoc] at cut ⊢
      rw [cut, Utf8.decodeLossyChars_ascii others, later]

variable {path : String} {content : Bytes}

theorem token_of_mem_pieces (cut : Cut path content) {piece : Bytes × Bytes}
    (member : piece ∈ cut.pieces) : piece.1 ∈ tokens path content :=
  cut.tokens_eq ▸ List.mem_map_of_mem member

/-- Decoding splits at every token. -/
theorem decode_cut (cut : Cut path content) :
    Utf8.decodeLossyChars content =
      Utf8.decodeLossyChars cut.lead ++ Pieces.joined (cut.pieces.map decodePiece) := by
  conv => lhs; rw [← cut.whole]
  exact decode_joined cut.lead fun piece member => ascii_of_mem_tokens (token_of_mem_pieces cut member)

theorem decode_earlier (cut : Cut path content) {earlier later : List (Bytes × Bytes)}
    (split : cut.pieces = earlier ++ later) :
    Utf8.decodeLossyChars (cut.lead ++ Pieces.joined earlier) =
      Utf8.decodeLossyChars cut.lead ++ Pieces.joined (earlier.map decodePiece) :=
  decode_joined cut.lead fun _ member =>
    ascii_of_mem_tokens (token_of_mem_pieces cut (split ▸ List.mem_append_left _ member))

theorem decode_token {token : Bytes} (ascii : ∀ b ∈ token, b.toNat < 0x80) :
    Utf8.decodeLossyChars token = token.map fun b => Char.ofNat b.toNat := by
  have alone := Utf8.decodeLossyChars_ascii ascii []
  rwa [List.append_nil, Utf8.decodeLossyChars_nil, List.append_nil] at alone

theorem isTokenChar_token {token : Bytes} (visible : IsVisible token) :
    ∀ c ∈ Utf8.decodeLossyChars token, isTokenChar c = true := by
  rw [decode_token visible.lt]
  intro c member
  obtain ⟨b, inside, rfl⟩ := List.mem_map.1 member
  rw [isTokenChar_ofNat (visible.lt b inside), visible.2 b inside]

theorem readable_cut (cut : Cut path content) :
    Readable isTokenChar (cut.pieces.map decodePiece) := by
  constructor
  · intro piece member
    obtain ⟨bytes, inside, rfl⟩ := List.mem_map.1 member
    have own := token_of_mem_pieces cut inside
    obtain ⟨nonempty, ascii⟩ := ascii_of_mem_tokens own
    unfold decodePiece
    dsimp only
    refine ⟨by rw [decode_token ascii]; simpa using nonempty, ?_⟩
    rcases mem_tokens own with visible | ⟨-, blanks⟩
    · exact Or.inl (isTokenChar_token visible)
    · exact Or.inr (isTokenChar_decode fun b member =>
        not_isTokenByte_of_isIndent (blanks.2 b member))
  · intro piece member
    obtain ⟨bytes, inside, rfl⟩ := List.mem_map.1 member
    exact isTokenChar_decode (cut.gaps bytes inside)

theorem begins_token {token : Bytes} (member : token ∈ tokens path content) :
    Begins (Utf8.decodeLossyChars token) := by
  obtain ⟨nonempty, ascii⟩ := ascii_of_mem_tokens member
  have some : Utf8.decodeLossyChars token ≠ [] := by
    rw [decode_token ascii]
    simpa using nonempty
  obtain ⟨c, text, chars⟩ := List.exists_cons_of_ne_nil some
  refine ⟨c, text, chars, ?_⟩
  rintro rfl
  exact newline_not_mem member (Utf8.newline_mem (chars ▸ List.mem_cons_self))

/-! ## The blame of the tokens of a file -/

/-- A blame has one line for each token of a file. -/
def Blames (blame : List BlameLine) (path : String) (content : Bytes) : Prop :=
  blame.map (·.context) = (tokens path content).map Utf8.decodeLossy

instance (blame : List BlameLine) (path : String) (content : Bytes) :
    Decidable (Blames blame path content) :=
  inferInstanceAs (Decidable (_ = _))

section Blames

variable {blame : List BlameLine}

theorem Blames.contexts (blames : Blames blame path content) (cut : Cut path content) :
    blame.map (·.context.toList) = (cut.pieces.map decodePiece).map (·.1) := by
  have chars := congrArg (List.map String.toList) blames
  rw [← cut.tokens_eq] at chars
  simpa [decodePiece, Utf8.decodeLossy, Function.comp_def] using chars

theorem Blames.line_at (blames : Blames blame path content) (cut : Cut path content)
    {earlier later : List (Bytes × Bytes)} {token gap : Bytes}
    (split : cut.pieces = earlier ++ (token, gap) :: later) :
    ∃ line, blame[earlier.length]? = some line ∧ line.context = Utf8.decodeLossy token := by
  have here : (blame.map (·.context))[earlier.length]? = some (Utf8.decodeLossy token) := by
    rw [blames, ← cut.tokens_eq, split]
    simp
  rw [List.getElem?_map] at here
  exact Option.map_eq_some_iff.1 here

theorem Blames.begins (blames : Blames blame path content) :
    ∀ line ∈ blame, Begins line.context.toList := by
  intro line member
  have inside : line.context ∈ (tokens path content).map Utf8.decodeLossy :=
    blames ▸ List.mem_map_of_mem member
  obtain ⟨token, own, same⟩ := List.mem_map.1 inside
  rw [← same, Utf8.decodeLossy, String.toList_ofList]
  exact begins_token own

theorem Blames.places (blames : Blames blame path content) :
    ∀ place ∈ places blame (Utf8.decodeLossyChars content), place.isSome = true := by
  obtain ⟨cut⟩ := nonempty_cut path content
  rw [decode_cut cut]
  exact placesFrom_isSome (readable_cut cut) (isTokenChar_decode cut.lead_gap) (blames.contexts cut) 0

theorem Blames.visible (blames : Blames blame path content) (cut : Cut path content)
    {earlier later : List (Bytes × Bytes)} {token gap : Bytes}
    (split : cut.pieces = earlier ++ (token, gap) :: later) (visible : IsVisible token)
    {line : BlameLine} (at_ : blame[earlier.length]? = some line) :
    (BackMap.places blame (Utf8.decodeLossyChars content))[earlier.length]? =
        some (some (Utf8.decodeLossyChars (cut.lead ++ Pieces.joined earlier)).length) ∧
      OwnedBy (owners blame (Utf8.decodeLossyChars content))
        (Utf8.decodeLossyChars (cut.lead ++ Pieces.joined earlier)).length
        ((Utf8.decodeLossyChars (cut.lead ++ Pieces.joined earlier)).length + token.length)
        (some line.commit) := by
  have split' : cut.pieces.map decodePiece =
      earlier.map decodePiece ++ decodePiece (token, gap) :: later.map decodePiece := by
    rw [split, List.map_append, List.map_cons]
  have size : (Utf8.decodeLossyChars token).length = token.length := by
    rw [decode_token visible.lt, List.length_map]
  obtain ⟨placed, owned⟩ := visible_found (readable_cut cut) (isTokenChar_decode cut.lead_gap)
    (blames.contexts cut) 0 none split' (isTokenChar_token visible)
    (show blame[(earlier.map decodePiece).length]? = some line by rwa [List.length_map])
  rw [decode_cut cut, decode_earlier cut split, owners_eq]
  rw [List.length_map, Nat.zero_add] at placed
  rw [size] at owned
  exact ⟨placed, owned⟩

theorem Blames.plain (blames : Blames blame path content) (cut : Cut path content)
    (plain : isIndented path = false) :
    OwnedBy (owners blame (Utf8.decodeLossyChars content)) 0
        (Utf8.decodeLossyChars cut.lead).length none ∧
      ∀ earlier token gap later, cut.pieces = earlier ++ (token, gap) :: later →
        ∀ line, blame[earlier.length]? = some line →
          OwnedBy (owners blame (Utf8.decodeLossyChars content))
            (Utf8.decodeLossyChars (cut.lead ++ Pieces.joined earlier)).length
            (Utf8.decodeLossyChars
              (cut.lead ++ Pieces.joined (earlier ++ [(token, gap)]))).length
            (some line.commit) := by
  have visible : ∀ piece ∈ cut.pieces.map decodePiece, ∀ c ∈ piece.1, isTokenChar c = true := by
    intro piece member
    obtain ⟨bytes, inside, rfl⟩ := List.mem_map.1 member
    rcases mem_tokens (token_of_mem_pieces cut inside) with visible | ⟨indented, -⟩
    · exact isTokenChar_token visible
    · rw [plain] at indented
      cases indented
  obtain ⟨lead, owned⟩ := visible_owned (readable_cut cut) (isTokenChar_decode cut.lead_gap)
    (blames.contexts cut) visible none
  rw [← decode_cut cut, ← owners_eq] at lead owned
  refine ⟨lead, ?_⟩
  intro earlier token gap later split line at_
  have split' : cut.pieces.map decodePiece =
      earlier.map decodePiece ++ decodePiece (token, gap) :: later.map decodePiece := by
    rw [split, List.map_append, List.map_cons]
  have longer : cut.pieces = (earlier ++ [(token, gap)]) ++ later := by
    rw [split, List.append_assoc, List.singleton_append]
  have own := owned (earlier.map decodePiece) _ _ _ split' line (by rwa [List.length_map])
  rw [decode_earlier cut split, decode_earlier cut longer]
  simpa [decodePiece, List.map_append, Pieces.joined] using own

end Blames

/-- What the blame of the tokens of a file recovers from the text of the file. -/
structure Recovered (blame : List BlameLine) (path : String) (content : Bytes) : Prop where
  /-- Every blame line is located. -/
  located : ∀ place ∈ places blame (Utf8.decodeLossyChars content), place.isSome = true
  /-- The lines that are shown have the characters of the text with their owners. -/
  shown : (lines blame (Utf8.decodeLossyChars content)).map (fun line => credits line.fragments) =
    if blame.isEmpty then []
    else Lines.physicalBy (·.1) ((Utf8.decodeLossyChars content).zip
      (owners blame (Utf8.decodeLossyChars content)))
  /-- The file can be cut into its tokens and what lies between them. -/
  cut : Nonempty (Cut path content)
  /-- Decoding neither merges nor splits tokens. -/
  decoded : ∀ cut : Cut path content, ∀ earlier token gap later,
    cut.pieces = earlier ++ (token, gap) :: later →
    Utf8.decodeLossyChars content =
      Utf8.decodeLossyChars (cut.lead ++ Pieces.joined earlier) ++
        Utf8.decodeLossyChars token ++ Utf8.decodeLossyChars (gap ++ Pieces.joined later)
  /-- A word or punctuation is located at its own place, and its text is its line's. -/
  visible : ∀ cut : Cut path content, ∀ earlier token gap later,
    cut.pieces = earlier ++ (token, gap) :: later → IsVisible token →
    ∃ line, blame[earlier.length]? = some line ∧ line.context = Utf8.decodeLossy token ∧
      (places blame (Utf8.decodeLossyChars content))[earlier.length]? =
        some (some (Utf8.decodeLossyChars (cut.lead ++ Pieces.joined earlier)).length) ∧
      OwnedBy (owners blame (Utf8.decodeLossyChars content))
        (Utf8.decodeLossyChars (cut.lead ++ Pieces.joined earlier)).length
        ((Utf8.decodeLossyChars (cut.lead ++ Pieces.joined earlier)).length + token.length)
        (some line.commit)
  /-- Without indentations the text up to the first token is nobody's. -/
  before : isIndented path = false → ∀ cut : Cut path content,
    OwnedBy (owners blame (Utf8.decodeLossyChars content)) 0
      (Utf8.decodeLossyChars cut.lead).length none
  /-- Without indentations the text up to the next token is the token's. -/
  behind : isIndented path = false → ∀ cut : Cut path content, ∀ earlier token gap later,
    cut.pieces = earlier ++ (token, gap) :: later →
    ∃ line, blame[earlier.length]? = some line ∧ line.context = Utf8.decodeLossy token ∧
      OwnedBy (owners blame (Utf8.decodeLossyChars content))
        (Utf8.decodeLossyChars (cut.lead ++ Pieces.joined earlier)).length
        (Utf8.decodeLossyChars (cut.lead ++ Pieces.joined (earlier ++ [(token, gap)]))).length
        (some line.commit)

/-- **Tokenizing and locating agree.**  Whatever commits the tokens of a file are blamed on,
the back map locates each of them and credits its text to its own commit. -/
theorem blamed_tokens_recovered (blame : List BlameLine) (path : String) (content : Bytes)
    (blames : Blames blame path content) : Recovered blame path content where
  located := blames.places
  shown := credits_lines blame _ blames.begins
  cut := nonempty_cut path content
  decoded := by
    intro cut earlier token gap later split
    have own : token ∈ tokens path content :=
      token_of_mem_pieces cut (show (token, gap) ∈ cut.pieces from split ▸ by simp)
    have behind : ∀ piece ∈ later, piece.1 ≠ [] ∧ ∀ b ∈ piece.1, b.toNat < 0x80 := fun piece member =>
      ascii_of_mem_tokens (token_of_mem_pieces cut (split ▸ by simp [member]))
    rw [decode_cut cut, decode_earlier cut split, decode_joined gap behind, split,
      List.map_append, List.map_cons]
    simp [decodePiece, Pieces.joined]
  visible := by
    intro cut earlier token gap later split visible
    obtain ⟨line, at_, context⟩ := blames.line_at cut split
    exact ⟨line, at_, context, blames.visible cut split visible at_⟩
  before := fun plain cut => (blames.plain cut plain).1
  behind := by
    intro plain cut earlier token gap later split
    obtain ⟨line, at_, context⟩ := blames.line_at cut split
    exact ⟨line, at_, context, (blames.plain cut plain).2 earlier token gap later split line at_⟩

/-- The early match of an indentation: the blanks behind `if` are taken for the indentation of
the next line, and `x` is found all the same. -/
theorem blamed_indentation_recovered :
    let blame := [⟨"c1", "if", 1, 1, false⟩, ⟨"c2", " ", 1, 2, false⟩, ⟨"c3", "x", 1, 3, false⟩]
    let content := Utf8.encode "if \n x"
    Blames blame "a.py" content ∧ Recovered blame "a.py" content ∧
      places blame (Utf8.decodeLossyChars content) = [some 0, some 2, some 5] := by
  intro blame content
  have blames : Blames blame "a.py" content := by decide
  exact ⟨blames, blamed_tokens_recovered blame "a.py" content blames, by decide⟩

end TokenBlame.BackMap
