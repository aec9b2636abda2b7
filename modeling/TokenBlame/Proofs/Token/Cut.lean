/-
# TokenBlame.Proofs.Token.Cut -- a file as tokens with gaps between them

Every file can be read as its tokens in order with gaps in front of them, between them and
behind them in which no byte of a word and no punctuation stands (`Cut`, `nonempty_cut`).
Since all such bytes are in tokens, each word and each punctuation mark has its own place
in the file by this.

A token is either visible, a word or punctuation, or the blanks of an indentation
(`mem_tokens`).  Both are ASCII.
-/
import TokenBlame.Proofs.Text.Pieces
import TokenBlame.Token

set_option autoImplicit false

namespace TokenBlame.Token

/-! ## Bytes of tokens -/

/-- A byte that words are made of or that is a token of its own. -/
def isTokenByte (b : UInt8) : Bool :=
  isWordByte b || isPunctuation b

theorem isTokenByte_of_isWordByte {b : UInt8} (word : isWordByte b = true) :
    isTokenByte b = true := by
  simp [isTokenByte, word]

theorem isTokenByte_of_isPunctuation {b : UInt8} (mark : isPunctuation b = true) :
    isTokenByte b = true := by
  simp [isTokenByte, mark]

theorem isIndent_iff {b : UInt8} : isIndent b = true ↔ b = 0x20 ∨ b = 0x09 := by
  simp [isIndent]

theorem not_isTokenByte_of_isIndent {b : UInt8} (blank : isIndent b = true) :
    isTokenByte b = false := by
  rcases isIndent_iff.1 blank with rfl | rfl <;> decide

/-- Tokens are made of ASCII. -/
theorem lt_of_isTokenByte {b : UInt8} (token : isTokenByte b = true) : b.toNat < 0x80 := by
  rcases Bool.or_eq_true_iff.1 token with word | mark
  · simp only [isWordByte, Bool.or_eq_true, Bool.and_eq_true, decide_eq_true_eq, beq_iff_eq,
      UInt8.le_iff_toNat_le] at word
    rcases word with ((⟨-, high⟩ | ⟨-, high⟩) | ⟨-, high⟩) | rfl
    · exact Nat.lt_of_le_of_lt high (by decide)
    · exact Nat.lt_of_le_of_lt high (by decide)
    · exact Nat.lt_of_le_of_lt high (by decide)
    · decide
  · obtain ⟨c, member, same⟩ := List.any_eq_true.1 mark
    have bound : punctuation.all (fun c => decide (c.toNat < 0x80)) = true := by decide
    rw [← beq_iff_eq.1 same]
    exact of_decide_eq_true (List.all_eq_true.1 bound c member)

theorem lt_of_isIndent {b : UInt8} (blank : isIndent b = true) : b.toNat < 0x80 := by
  rcases isIndent_iff.1 blank with rfl | rfl <;> decide

/-! ## Tokens and what lies between them -/

/-- A reading of a file as its tokens in order, with gaps that hold no byte of a word and
no punctuation in front of them, between them and behind them. -/
structure Cut (path : String) (content : Bytes) where
  /-- What stands in front of the first token. -/
  lead : Bytes
  /-- The tokens, each with the gap behind it. -/
  pieces : List (Bytes × Bytes)
  whole : lead ++ Pieces.joined pieces = content
  tokens_eq : pieces.map (·.1) = tokens path content
  lead_gap : ∀ b ∈ lead, isTokenByte b = false
  gaps : ∀ piece ∈ pieces, ∀ b ∈ piece.2, isTokenByte b = false

/-- What a scan knows of the bytes it has seen: they are its tokens and gaps. -/
structure Scan.Covers (s : Scan) (content lead : Bytes) (pieces : List (Bytes × Bytes)) : Prop where
  whole : lead ++ Pieces.joined pieces = content
  tokens_eq : pieces.map (·.1) = s.tokens
  lead_gap : ∀ b ∈ lead, isTokenByte b = false
  gaps : ∀ piece ∈ pieces, ∀ b ∈ piece.2, isTokenByte b = false
  /-- A word that is open begins at once. -/
  word : s.word ≠ [] → lead = []
  /-- The blanks that are open begin what lies in front of the first token. -/
  indent : s.indent <+: lead

theorem Scan.finish_covers : Scan.finish.Covers [] [] [] :=
  ⟨rfl, rfl, by simp, by simp, by simp [finish], List.nil_prefix⟩

/-- Where the indentation counts it is one more token. -/
theorem Scan.Covers.line {s : Scan} {content lead : Bytes} {pieces : List (Bytes × Bytes)}
    (covers : s.Covers content lead pieces) :
    ∃ lead' pieces', lead' ++ Pieces.joined pieces' = content ∧ pieces'.map (·.1) = s.lineTokens ∧
      (∀ b ∈ lead', isTokenByte b = false) ∧
      ∀ piece ∈ pieces', ∀ b ∈ piece.2, isTokenByte b = false := by
  unfold lineTokens
  split
  · obtain ⟨gap, split⟩ := covers.indent
    refine ⟨[], (s.indent, gap) :: pieces, ?_, ?_, by simp, ?_⟩
    · rw [List.nil_append, Pieces.joined_cons, split, covers.whole]
    · rw [List.map_cons, covers.tokens_eq]
    · intro piece member b inside
      rcases List.mem_cons.1 member with rfl | member
      · exact covers.lead_gap b (split ▸ List.mem_append_right _ inside)
      · exact covers.gaps piece member b inside
  · exact ⟨lead, pieces, covers.whole, covers.tokens_eq, covers.lead_gap, covers.gaps⟩

section Push

variable {b : UInt8} {s t : Scan} {content lead : Bytes} {pieces : List (Bytes × Bytes)}

/-- A byte that is a token of its own, or begins one. -/
theorem Scan.Covers.single (covers : s.Covers content lead pieces)
    (tokens_eq : t.tokens = [b] :: s.tokens) (indent : t.indent = []) :
    t.Covers (b :: content) [] (([b], lead) :: pieces) where
  whole := by simp [← covers.whole]
  tokens_eq := by rw [List.map_cons, covers.tokens_eq, tokens_eq]
  lead_gap := by simp
  gaps := List.forall_mem_cons.2 ⟨covers.lead_gap, covers.gaps⟩
  word := fun _ => rfl
  indent := indent ▸ List.nil_prefix

/-- A byte that makes the open word longer. -/
theorem Scan.Covers.extend (covers : s.Covers content lead pieces) (opened : s.word ≠ [])
    (tokens_eq : t.tokens = (b :: s.word) :: s.later) (indent : t.indent = []) :
    ∃ pieces', t.Covers (b :: content) [] pieces' := by
  have first : pieces.map (·.1) = s.word :: s.later := by
    rw [covers.tokens_eq]
    simp [tokens, opened]
  obtain ⟨⟨word, gap⟩, rest, rfl, same, later⟩ := List.map_eq_cons_iff.1 first
  dsimp only at same
  subst same
  obtain rfl := covers.word opened
  obtain ⟨own, gaps⟩ := List.forall_mem_cons.1 covers.gaps
  refine ⟨(b :: s.word, gap) :: rest, ?_, ?_, by simp, List.forall_mem_cons.2 ⟨own, gaps⟩,
    fun _ => rfl, indent ▸ List.nil_prefix⟩
  · simp [← covers.whole]
  · rw [List.map_cons, later, tokens_eq]

/-- A byte that lies between tokens. -/
theorem Scan.covers_gap (whole : lead ++ Pieces.joined pieces = content)
    (tokens_eq : pieces.map (·.1) = t.tokens) (lead_gap : ∀ b ∈ lead, isTokenByte b = false)
    (gaps : ∀ piece ∈ pieces, ∀ b ∈ piece.2, isTokenByte b = false)
    (notToken : isTokenByte b = false) (closed : t.word = []) (indent : t.indent <+: b :: lead) :
    t.Covers (b :: content) (b :: lead) pieces where
  whole := by rw [List.cons_append, whole]
  tokens_eq := tokens_eq
  lead_gap := List.forall_mem_cons.2 ⟨notToken, lead_gap⟩
  gaps := gaps
  word := fun opened => absurd closed opened
  indent := indent

/-- One more byte extends the open word, begins a token or joins the gap. -/
theorem Scan.Covers.push {indented : Bool} (covers : s.Covers content lead pieces) :
    ∃ lead' pieces', (s.push indented b).Covers (b :: content) lead' pieces' := by
  have closed : ∀ {indent later next}, (Scan.mk [] indent next later).tokens = later := by
    simp [tokens]
  unfold Scan.push
  split
  · by_cases empty : s.word = []
    · exact ⟨[], _, covers.single (by simp [tokens, empty]) rfl⟩
    · exact ⟨[], covers.extend empty (by simp [tokens]) rfl⟩
  split
  · exact ⟨[], _, covers.single closed rfl⟩
  rename_i notWord notMark
  have notToken : isTokenByte b = false := by simp [isTokenByte, notWord, notMark]
  split
  · exact ⟨_, _, covers_gap covers.whole (covers.tokens_eq.trans closed.symm) covers.lead_gap
      covers.gaps notToken rfl (List.cons_prefix_cons.2 ⟨rfl, covers.indent⟩)⟩
  split
  · obtain ⟨lead', pieces', whole, tokens_eq, lead_gap, gaps⟩ := covers.line
    exact ⟨_, _, covers_gap whole (tokens_eq.trans closed.symm) lead_gap gaps notToken rfl
      List.nil_prefix⟩
  · exact ⟨_, _, covers_gap covers.whole (covers.tokens_eq.trans closed.symm) covers.lead_gap
      covers.gaps notToken rfl List.nil_prefix⟩

end Push

theorem scan_covers (indented : Bool) (content : Bytes) :
    ∃ lead pieces, (scan indented content).Covers content lead pieces := by
  induction content with
  | nil => exact ⟨[], [], Scan.finish_covers⟩
  | cons b content ih =>
      obtain ⟨lead, pieces, covers⟩ := ih
      exact covers.push

/-- Every file can be read as its tokens with gaps between them. -/
theorem nonempty_cut (path : String) (content : Bytes) : Nonempty (Cut path content) := by
  by_cases indented : isIndented path = true
  · obtain ⟨lead, pieces, covers⟩ := scan_covers true content
    obtain ⟨lead', pieces', whole, tokens_eq, lead_gap, gaps⟩ := covers.line
    exact ⟨lead', pieces', whole, by rw [tokens, if_pos indented, tokens_eq], lead_gap, gaps⟩
  · obtain ⟨lead, pieces, covers⟩ := scan_covers false content
    exact ⟨lead, pieces, covers.whole, by rw [tokens, if_neg indented, covers.tokens_eq],
      covers.lead_gap, covers.gaps⟩

/-! ## The shape of tokens -/

/-- Words and punctuation; the blanks of an indentation are no such token. -/
def IsVisible (token : Bytes) : Prop :=
  token ≠ [] ∧ ∀ b ∈ token, isTokenByte b = true

instance (token : Bytes) : Decidable (IsVisible token) :=
  inferInstanceAs (Decidable (_ ∧ _))

/-- The blanks of an indentation. -/
def IsIndentation (token : Bytes) : Prop :=
  token ≠ [] ∧ ∀ b ∈ token, isIndent b = true

structure Scan.Shaped (indented : Bool) (s : Scan) : Prop where
  word : ∀ b ∈ s.word, isTokenByte b = true
  indent : ∀ b ∈ s.indent, isIndent b = true
  later : ∀ token ∈ s.later, IsVisible token ∨ indented = true ∧ IsIndentation token

theorem Scan.Shaped.tokens {indented : Bool} {s : Scan} (shaped : s.Shaped indented) :
    ∀ token ∈ s.tokens, IsVisible token ∨ indented = true ∧ IsIndentation token := by
  unfold Scan.tokens
  split
  · exact shaped.later
  · rename_i some
    intro token member
    rcases List.mem_cons.1 member with rfl | member
    · exact Or.inl ⟨by simpa using some, shaped.word⟩
    · exact shaped.later token member

theorem Scan.Shaped.lineTokens {s : Scan} (shaped : s.Shaped true) :
    ∀ token ∈ s.lineTokens, IsVisible token ∨ true = true ∧ IsIndentation token := by
  unfold Scan.lineTokens
  split
  · rename_i counts
    intro token member
    rcases List.mem_cons.1 member with rfl | member
    · have some : s.indent ≠ [] := by
        intro none
        simp [none] at counts
      exact Or.inr ⟨rfl, some, shaped.indent⟩
    · exact shaped.tokens token member
  · exact shaped.tokens

theorem scan_shaped (indented : Bool) (content : Bytes) :
    (scan indented content).Shaped indented := by
  induction content with
  | nil => exact ⟨by simp [scan, Scan.finish], by simp [scan, Scan.finish], by simp [scan, Scan.finish]⟩
  | cons b content ih =>
      show Scan.Shaped indented (Scan.push indented b (scan indented content))
      generalize scan indented content = s at ih
      unfold Scan.push
      split
      · rename_i word
        refine ⟨?_, by simp, ih.later⟩
        intro b' member
        rcases List.mem_cons.1 member with rfl | member
        · exact isTokenByte_of_isWordByte word
        · exact ih.word b' member
      split
      · rename_i mark
        refine ⟨by simp, by simp, ?_⟩
        intro token member
        rcases List.mem_cons.1 member with rfl | member
        · exact Or.inl ⟨by simp, by simpa using isTokenByte_of_isPunctuation mark⟩
        · exact ih.tokens token member
      split
      · rename_i blank
        refine ⟨by simp, ?_, ih.tokens⟩
        intro b' member
        rcases List.mem_cons.1 member with rfl | member
        · exact blank
        · exact ih.indent b' member
      split
      · rename_i newline
        obtain ⟨rfl, -⟩ := Bool.and_eq_true_iff.1 newline
        exact ⟨by simp, by simp, ih.lineTokens⟩
      · exact ⟨by simp, by simp, ih.tokens⟩

/-- A token is a word, punctuation or, in an indented file, the blanks that begin a line. -/
theorem mem_tokens {path : String} {content token : Bytes} (member : token ∈ tokens path content) :
    IsVisible token ∨ isIndented path = true ∧ IsIndentation token := by
  unfold tokens at member
  split at member
  · rename_i indented
    rw [indented]
    exact (scan_shaped true content).lineTokens token member
  · exact ((scan_shaped false content).tokens token member).imp_right fun h => absurd h.1 (by simp)

theorem IsVisible.lt {token : Bytes} (visible : IsVisible token) :
    ∀ b ∈ token, b.toNat < 0x80 :=
  fun b member => lt_of_isTokenByte (visible.2 b member)

theorem IsIndentation.lt {token : Bytes} (blanks : IsIndentation token) :
    ∀ b ∈ token, b.toNat < 0x80 :=
  fun b member => lt_of_isIndent (blanks.2 b member)

theorem ascii_of_mem_tokens {path : String} {content token : Bytes}
    (member : token ∈ tokens path content) : token ≠ [] ∧ ∀ b ∈ token, b.toNat < 0x80 := by
  rcases mem_tokens member with visible | ⟨-, blanks⟩
  · exact ⟨visible.1, visible.lt⟩
  · exact ⟨blanks.1, blanks.lt⟩

/-- No token goes over the end of a line. -/
theorem newline_not_mem {path : String} {content token : Bytes}
    (member : token ∈ tokens path content) : 0x0A ∉ token := by
  intro inside
  rcases mem_tokens member with visible | ⟨-, blanks⟩
  · exact absurd (visible.2 _ inside) (by decide)
  · exact absurd (blanks.2 _ inside) (by decide)

end TokenBlame.Token
