/-
# TokenBlame.Proofs.Token.Stored -- files that hold one token a line

A file of tokens is ASCII, and its lines are its tokens, since no token has a newline
(`lines_tokenize`).  Whatever hunks a blame of it is made of, as long as they have each line once,
it has one line for each token, in order, and the text of that line is the token
(`tokens_stored_by_line`).

A file without tokens is empty, and has no line that could be blamed.
-/
import TokenBlame.BlameEngine
import TokenBlame.Proofs.Blame.Tiling
import TokenBlame.Proofs.Text.Lines
import TokenBlame.Proofs.Token.Cut

set_option autoImplicit false

namespace TokenBlame.Token

variable {path : String} {content : Bytes}

theorem ascii_tokenize : ∀ b ∈ tokenize path content, b.toNat < 0x80 := by
  intro b member
  obtain ⟨token, own, inside⟩ := List.mem_flatMap.1 member
  rcases List.mem_append.1 inside with within | newline
  · exact (ascii_of_mem_tokens own).2 b within
  · rw [List.mem_singleton.1 newline]
    decide

theorem split_tokenize :
    Pieces.split 0x0A (tokenize path content) = tokens path content ++ [[]] :=
  Pieces.split_ended fun _ => newline_not_mem

/-- The lines of a file of tokens are its tokens. -/
theorem lines_tokenize (nonempty : tokens path content ≠ []) :
    BlameEngine.lines (tokenize path content) = (tokens path content).map Utf8.decodeLossy := by
  unfold BlameEngine.lines tokenize lines
  rw [Lines.cut_ended nonempty fun _ => newline_not_mem, List.map_map]
  rfl

/-- The text of a token is written as the token. -/
theorem encode_decodeLossy {token : Bytes} (member : token ∈ tokens path content) :
    Utf8.encode (Utf8.decodeLossy token) = token := by
  rw [Utf8.encode, Utf8.decodeLossy, String.toList_ofList,
    Utf8.encodeChars_decodeLossyChars (ascii_of_mem_tokens member).2]

theorem encode_tokens :
    ((tokens path content).map Utf8.decodeLossy).map Utf8.encode = tokens path content := by
  rw [List.map_map]
  exact (List.map_congr_left fun _ => encode_decodeLossy).trans (List.map_id _)

theorem fileLines_tokenize :
    Git.fileLines (tokenize path content) = (tokens path content).map (· ++ [0x0A]) := by
  unfold Git.fileLines
  rw [split_tokenize]
  simp

/-- As many lines are stored as there are tokens. -/
theorem length_fileLines :
    (Git.fileLines (tokenize path content)).length = (tokens path content).length := by
  rw [fileLines_tokenize, List.length_map]

/-- A file of tokens that is stored and read again. -/
structure ReadBack (path : String) (content : Bytes) : Prop where
  ascii : ∀ b ∈ tokenize path content, b.toNat < 0x80
  /-- Without a token nothing is stored. -/
  empty : tokens path content = [] → tokenize path content = []
  /-- The lines that are read are the texts of the tokens. -/
  lines : tokens path content ≠ [] →
    BlameEngine.lines (tokenize path content) = (tokens path content).map Utf8.decodeLossy
  /-- So nothing of the tokens is lost. -/
  undone : tokens path content ≠ [] →
    (BlameEngine.lines (tokenize path content)).map Utf8.encode = tokens path content
  /-- There are as many lines as tokens, of a file that has any or none. -/
  counted : (Git.fileLines (tokenize path content)).length = (tokens path content).length
  /-- Blamed by hunks, each line is a token. -/
  blamed : ∀ hunks, Blame.Tiles hunks (Git.fileLines (tokenize path content)).length →
    (Blame.ofHunks (BlameEngine.lines (tokenize path content)) hunks).lines.map
      (fun line => Utf8.encode line.context) = tokens path content
  /-- There are no more of them, and they are numbered as the tokens are. -/
  numbered : ∀ hunks, Blame.Tiles hunks (Git.fileLines (tokenize path content)).length →
    (Blame.ofHunks (BlameEngine.lines (tokenize path content)) hunks).lines.map (·.numberNow) =
      List.range' 1 (tokens path content).length

theorem encode_contexts {hunks : List Blame.Hunk}
    (tiles : Blame.Tiles hunks (tokens path content).length) :
    (Blame.ofHunks (BlameEngine.lines (tokenize path content)) hunks).lines.map
      (fun line => Utf8.encode line.context) = tokens path content := by
  by_cases some : tokens path content = []
  · have none := Blame.length_ofHunks (BlameEngine.lines (tokenize path content)) tiles
    rw [some, List.length_nil, List.length_eq_zero_iff] at none
    rw [some, none, List.map_nil]
  · have sized : Blame.Tiles hunks (BlameEngine.lines (tokenize path content)).length := by
      rwa [lines_tokenize some, List.length_map]
    have written := congrArg (List.map Utf8.encode) (Blame.contexts_ofHunks _ sized)
    rw [List.map_map] at written
    exact written.trans (by rw [lines_tokenize some, encode_tokens])

/-- **One line is blamed for each token**, whatever bytes the file is made of. -/
theorem tokens_stored_by_line (path : String) (content : Bytes) : ReadBack path content where
  ascii := ascii_tokenize
  empty none := by rw [tokenize, none]; rfl
  lines := lines_tokenize
  undone nonempty := by rw [lines_tokenize nonempty, encode_tokens]
  counted := length_fileLines
  blamed _ tiles := encode_contexts (length_fileLines ▸ tiles)
  numbered _ tiles := Blame.numbers_ofHunks _ (length_fileLines ▸ tiles)

/-- An indentation is a line as well, and a later hunk may come first. -/
theorem late_hunk_blamed :
    Blame.Tiles [⟨{ id := "b" }, 3, 1, 1⟩, ⟨{ id := "a" }, 1, 1, 2⟩] 3 ∧
      (Blame.ofHunks (BlameEngine.lines (tokenize "a.py" [0x20, 0x78, 0xFF, 0x79]))
        [⟨{ id := "b" }, 3, 1, 1⟩, ⟨{ id := "a" }, 1, 1, 2⟩]).lines.map
          (fun line => Utf8.encode line.context) = [[0x20], [0x78], [0x79]] := by
  refine ⟨by decide, ?_⟩
  have blamed := (tokens_stored_by_line "a.py" [0x20, 0x78, 0xFF, 0x79]).blamed
    [⟨{ id := "b" }, 3, 1, 1⟩, ⟨{ id := "a" }, 1, 1, 2⟩] (by decide)
  exact blamed.trans (by decide)

end TokenBlame.Token
