/-
# TokenBlame.Proofs.Token.Lexing -- words that go as far as they can

Where indentation makes no tokens, a file is read from left to right as words that cannot be
extended, punctuation marks and bytes that are neither (`Lexes`).  A scan goes from right to left
and reads it so all the same (`lexes_scan`).

A scan keeps no more of a byte in no token than that it ends a word, so nothing is read across a
gap (`tokens_gap`), whatever the gap is made of.
-/
import TokenBlame.Proofs.Token.Cut

set_option autoImplicit false

namespace TokenBlame.Token

theorem not_isWordByte_of_isPunctuation {b : UInt8} (mark : isPunctuation b = true) :
    isWordByte b = false := by
  obtain ⟨c, member, same⟩ := List.any_eq_true.1 mark
  have apart : punctuation.all (fun c => !isWordByte (UInt8.ofNat c.toNat)) = true := by decide
  have own := List.all_eq_true.1 apart c member
  rw [beq_iff_eq.1 same, UInt8.ofNat_toNat] at own
  simpa using own

theorem not_isWordByte {b : UInt8} (apart : isTokenByte b = false) : isWordByte b = false :=
  (Bool.or_eq_false_iff.1 apart).1

/-! ## One byte more -/

namespace Scan

theorem tokens_of_nil {s : Scan} (none : s.word = []) : s.tokens = s.later := by
  simp [tokens, none]

/-- The same word in front of more tokens. -/
theorem tokens_of_longer {s t : Scan} {others : List Bytes} (word : t.word = s.word)
    (later : t.later = s.later ++ others) : t.tokens = s.tokens ++ others := by
  unfold tokens
  rw [word, later]
  split <;> rfl

theorem push_word {b : UInt8} (word : isWordByte b = true) (s : Scan) :
    (s.push false b).word = b :: s.word ∧ (s.push false b).later = s.later := by
  simp [push, word]

theorem push_mark {b : UInt8} (mark : isPunctuation b = true) (s : Scan) :
    (s.push false b).word = [] ∧ (s.push false b).later = [b] :: s.tokens := by
  simp [push, not_isWordByte_of_isPunctuation mark, mark]

theorem push_apart {b : UInt8} (apart : isTokenByte b = false) (s : Scan) :
    (s.push false b).word = [] ∧ (s.push false b).later = s.tokens := by
  obtain ⟨word, mark⟩ := Bool.or_eq_false_iff.1 apart
  by_cases blank : isIndent b = true <;> simp [push, word, mark, blank]

end Scan

/-- A byte is in a word, a token of its own or in no token. -/
theorem byte_cases (b : UInt8) :
    isWordByte b = true ∨ isPunctuation b = true ∨ isTokenByte b = false := by
  unfold isTokenByte
  cases isWordByte b <;> cases isPunctuation b <;> simp

/-! ## Reading from left to right -/

/-- A reading of a file as words that go as far as they can, marks and bytes in no token. -/
inductive Lexes : Bytes → List Bytes → Prop
  | done : Lexes [] []
  | gap {b : UInt8} {rest : Bytes} {found : List Bytes} (apart : isTokenByte b = false)
      (later : Lexes rest found) : Lexes (b :: rest) found
  | mark {b : UInt8} {rest : Bytes} {found : List Bytes} (mark : isPunctuation b = true)
      (later : Lexes rest found) : Lexes (b :: rest) ([b] :: found)
  | word {word rest : Bytes} {found : List Bytes} (nonempty : word ≠ [])
      (inside : ∀ b ∈ word, isWordByte b = true)
      (stops : ∀ b ∈ rest.head?, isWordByte b = false)
      (later : Lexes rest found) : Lexes (word ++ rest) (word :: found)

/-- What a scan knows of the bytes it has seen: a word that may go on, and a reading of what is
behind it. -/
structure Scan.Lexed (s : Scan) (content rest : Bytes) : Prop where
  whole : s.word ++ rest = content
  inside : ∀ b ∈ s.word, isWordByte b = true
  stops : ∀ b ∈ rest.head?, isWordByte b = false
  later : Lexes rest s.later

/-- The open word ends where the reading behind it begins. -/
theorem Scan.Lexed.tokens {s : Scan} {content rest : Bytes} (lexed : s.Lexed content rest) :
    Lexes content s.tokens := by
  unfold Scan.tokens
  rw [← lexed.whole]
  split
  · rename_i none
    rw [List.isEmpty_iff.1 none]
    exact lexed.later
  · rename_i some
    exact .word (by simpa using some) lexed.inside lexed.stops lexed.later

theorem Scan.Lexed.push {s : Scan} {content rest : Bytes} (lexed : s.Lexed content rest)
    (b : UInt8) : ∃ rest', (s.push false b).Lexed (b :: content) rest' := by
  rcases byte_cases b with word | mark | apart
  · obtain ⟨word_eq, later_eq⟩ := push_word word s
    refine ⟨rest, ?_, ?_, lexed.stops, later_eq ▸ lexed.later⟩
    · rw [word_eq, List.cons_append, lexed.whole]
    · rw [word_eq]
      exact List.forall_mem_cons.2 ⟨word, lexed.inside⟩
  · obtain ⟨word_eq, later_eq⟩ := push_mark mark s
    refine ⟨b :: content, by rw [word_eq, List.nil_append], by simp [word_eq], ?_,
      later_eq ▸ .mark mark lexed.tokens⟩
    simpa using not_isWordByte_of_isPunctuation mark
  · obtain ⟨word_eq, later_eq⟩ := push_apart apart s
    refine ⟨b :: content, by rw [word_eq, List.nil_append], by simp [word_eq], ?_,
      later_eq ▸ .gap apart lexed.tokens⟩
    simpa using not_isWordByte apart

/-- A scan reads a file. -/
theorem lexes_scan (content : Bytes) : Lexes content (scan false content).tokens := by
  have lexed : ∃ rest, (scan false content).Lexed content rest := by
    induction content with
    | nil => exact ⟨[], rfl, by simp [scan, Scan.finish], by simp, .done⟩
    | cons b content ih =>
        obtain ⟨rest, lexed⟩ := ih
        exact lexed.push b
  obtain ⟨rest, lexed⟩ := lexed
  exact lexed.tokens

/-! ## Separators -/

/-- Bytes between two tokens: at least one, and none that is in a token. -/
def IsGap (bytes : Bytes) : Prop :=
  bytes ≠ [] ∧ ∀ b ∈ bytes, isTokenByte b = false

instance (bytes : Bytes) : Decidable (IsGap bytes) :=
  inferInstanceAs (Decidable (_ ∧ _))

/-- In front of bytes that no word goes on to, a file is scanned as if they were not there. -/
theorem scan_append {rest : Bytes} (seam : (scan false rest).word = []) (content : Bytes) :
    (scan false (content ++ rest)).word = (scan false content).word ∧
      (scan false (content ++ rest)).later =
        (scan false content).later ++ (scan false rest).tokens := by
  induction content with
  | nil => exact ⟨seam, (Scan.tokens_of_nil seam).symm⟩
  | cons b content ih =>
      obtain ⟨word, later⟩ := ih
      have whole := Scan.tokens_of_longer word later
      show ((scan false (content ++ rest)).push false b).word =
          ((scan false content).push false b).word ∧
        ((scan false (content ++ rest)).push false b).later =
          ((scan false content).push false b).later ++ (scan false rest).tokens
      rcases byte_cases b with isWord | isMark | apart
      · simp [Scan.push_word isWord, word, later]
      · simp [Scan.push_mark isMark, whole]
      · simp [Scan.push_apart apart, whole]

/-- The bytes of a gap end a word and add no token. -/
theorem scan_gap {gap : Bytes} (isGap : IsGap gap) (rest : Bytes) :
    (scan false (gap ++ rest)).word = [] ∧
      (scan false (gap ++ rest)).tokens = (scan false rest).tokens := by
  obtain ⟨nonempty, apart⟩ := isGap
  induction gap with
  | nil => exact absurd rfl nonempty
  | cons b gap ih =>
      obtain ⟨word, later⟩ := Scan.push_apart (apart b List.mem_cons_self) (scan false (gap ++ rest))
      refine ⟨word, (Scan.tokens_of_nil word).trans (later.trans ?_)⟩
      by_cases last : gap = []
      · rw [last, List.nil_append]
      · exact (ih last fun b' member => apart b' (List.mem_cons_of_mem _ member)).2

section Plain

variable {path : String}

theorem tokens_plain (plain : isIndented path = false) (content : Bytes) :
    tokens path content = (scan false content).tokens := by
  unfold tokens
  rw [plain]
  rfl

/-- **Nothing is read across a gap.** -/
theorem tokens_gap (plain : isIndented path = false) (front behind : Bytes) {gap : Bytes}
    (isGap : IsGap gap) :
    tokens path (front ++ gap ++ behind) = tokens path front ++ tokens path behind := by
  obtain ⟨seam, same⟩ := scan_gap isGap behind
  obtain ⟨word, later⟩ := scan_append seam front
  rw [tokens_plain plain, tokens_plain plain, tokens_plain plain, List.append_assoc, ← same]
  exact Scan.tokens_of_longer word later

/-- Stretches with gaps behind them have the tokens that each of them has. -/
theorem tokens_joined (plain : isIndented path = false) {stretches : List (Bytes × Bytes)}
    (gaps : ∀ stretch ∈ stretches, IsGap stretch.2) (last : Bytes) :
    tokens path (Pieces.joined stretches ++ last) =
      (stretches.map (·.1)).flatMap (tokens path) ++ tokens path last := by
  induction stretches with
  | nil => rfl
  | cons stretch stretches ih =>
      rw [Pieces.joined_cons, List.append_assoc (stretch.1 ++ stretch.2),
        tokens_gap plain _ _ (gaps stretch List.mem_cons_self),
        ih fun other member => gaps other (List.mem_cons_of_mem _ member), List.map_cons,
        List.flatMap_cons, List.append_assoc]

end Plain

end TokenBlame.Token
