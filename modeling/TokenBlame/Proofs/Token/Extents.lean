/-
# TokenBlame.Proofs.Token.Extents -- the tokens of a file are its maximal words and its marks

Where a token stands can be said without reading the file: its extent is that of a run of bytes of
words that cannot be extended, or of a single mark (`IsToken`).  What is read from left to right
are the texts of all such extents, in order (`Lexes.exists_extents`).  A byte that words are made
of, or that is a mark, is then in exactly one token and every other byte in none (`Segmented`).

`plain_tokens_exact` puts this together for the files in which indentation makes no tokens.
-/
import TokenBlame.Proofs.Token.Lexing

set_option autoImplicit false

namespace TokenBlame.Token

/-! ## Extents -/

/-- Whether the byte at a place of a file is of a kind. -/
def has (isKind : UInt8 → Bool) (content : Bytes) (i : Nat) : Bool :=
  content[i]?.any isKind

/-- The bytes between two places of a file. -/
def slice (content : Bytes) (extent : Nat × Nat) : Bytes :=
  (content.drop extent.1).take (extent.2 - extent.1)

/-- A run of bytes of words that can be extended neither to the left nor to the right. -/
structure IsWord (content : Bytes) (extent : Nat × Nat) : Prop where
  nonempty : extent.1 < extent.2
  inside : ∀ i, extent.1 ≤ i → i < extent.2 → has isWordByte content i = true
  before : ∀ i, i + 1 = extent.1 → has isWordByte content i = false
  behind : has isWordByte content extent.2 = false

/-- A single punctuation mark. -/
structure IsMark (content : Bytes) (extent : Nat × Nat) : Prop where
  single : extent.2 = extent.1 + 1
  mark : has isPunctuation content extent.1 = true

/-- Where a token stands. -/
def IsToken (content : Bytes) (extent : Nat × Nat) : Prop :=
  IsWord content extent ∨ IsMark content extent

/-- The extents of the tokens of a file. -/
structure Extents (content : Bytes) (found : List Bytes) (extents : List (Nat × Nat)) : Prop where
  texts : found = extents.map (slice content)
  /-- From left to right, and none in another. -/
  ordered : extents.Pairwise fun e f => e.2 ≤ f.1
  /-- Every token is found, and nothing else. -/
  exact : ∀ e, e ∈ extents ↔ IsToken content e
  /-- No byte of a word and no mark is left out. -/
  covered : ∀ i, has isTokenByte content i = true → ∃ e ∈ extents, e.1 ≤ i ∧ i < e.2

section Has

variable {isKind : UInt8 → Bool} {front rest : Bytes} {i j : Nat}

theorem has_append_left (inside : i < front.length) :
    has isKind (front ++ rest) i = has isKind front i := by
  unfold has
  rw [List.getElem?_append_left inside]

theorem has_append_right : has isKind (front ++ rest) (front.length + i) = has isKind rest i := by
  unfold has
  rw [List.getElem?_append_right (Nat.le_add_right _ _), Nat.add_sub_cancel_left]

theorem has_zero : has isKind rest 0 = rest.head?.any isKind := by
  cases rest <;> rfl

theorem lt_of_has (here : has isKind rest i = true) : i < rest.length := by
  obtain ⟨b, member, -⟩ := (Option.any_eq_true _ _).1 here
  exact (List.getElem?_eq_some_iff.1 member).1

theorem has_of_forall (all : ∀ b ∈ rest, isKind b = true) (inside : i < rest.length) :
    has isKind rest i = true := by
  unfold has
  rw [List.getElem?_eq_getElem inside]
  exact all _ (List.getElem_mem inside)

theorem has_isTokenByte :
    has isTokenByte rest i = (has isWordByte rest i || has isPunctuation rest i) := by
  unfold has
  cases rest[i]? <;> rfl

theorem not_word_of_mark (mark : has isPunctuation rest i = true) :
    has isWordByte rest i = false := by
  unfold has at mark ⊢
  cases here : rest[i]? with
  | none => rfl
  | some b =>
      rw [here] at mark
      exact not_isWordByte_of_isPunctuation mark

end Has

section Extents

variable {content front rest : Bytes} {found : List Bytes} {extents own : List (Nat × Nat)}

theorem IsToken.lt {e : Nat × Nat} (token : IsToken content e) : e.1 < e.2 := by
  rcases token with word | mark
  · exact word.nonempty
  · rw [mark.single]
    exact Nat.lt_succ_self _

theorem IsToken.inside {e : Nat × Nat} (token : IsToken content e) {i : Nat} (above : e.1 ≤ i)
    (below : i < e.2) : has isTokenByte content i = true := by
  rw [has_isTokenByte]
  rcases token with word | mark
  · rw [word.inside i above below, Bool.true_or]
  · obtain rfl : e.1 = i := by
      have := mark.single
      omega
    rw [mark.mark, Bool.or_true]

/-- No byte is in two tokens. -/
theorem Extents.unique (shape : Extents content found extents) {i : Nat} {e f : Nat × Nat}
    (one : e ∈ extents) (other : f ∈ extents) (inOne : e.1 ≤ i ∧ i < e.2)
    (inOther : f.1 ≤ i ∧ i < f.2) : e = f := by
  obtain ⟨before, behind, rfl⟩ := List.append_of_mem one
  obtain ⟨-, later, earlier⟩ := List.pairwise_append.1 shape.ordered
  rcases List.mem_append.1 other with inFront | here
  · have apart := earlier f inFront e List.mem_cons_self
    omega
  rcases List.mem_cons.1 here with same | inBack
  · exact same.symm
  · have apart := (List.pairwise_cons.1 later).1 f inBack
    omega

/-! ## The extents of what is read -/

/-- An extent that lies further to the right. -/
def shift (n : Nat) (extent : Nat × Nat) : Nat × Nat :=
  (n + extent.1, n + extent.2)

theorem exists_shift {n : Nat} {e : Nat × Nat} (start : n ≤ e.1) (stop : n ≤ e.2) :
    ∃ e', e = shift n e' :=
  ⟨(e.1 - n, e.2 - n), Prod.ext (by simp [shift, start]) (by simp [shift, stop])⟩

theorem slice_shift (e : Nat × Nat) : slice (front ++ rest) (shift front.length e) = slice rest e := by
  unfold slice shift
  rw [List.drop_length_add_append, Nat.add_sub_add_left]

theorem slice_append_left {e : Nat × Nat} (start : e.1 ≤ e.2) (stop : e.2 ≤ front.length) :
    slice (front ++ rest) e = slice front e := by
  unfold slice
  rw [List.drop_append_of_le_length (Nat.le_trans start stop),
    List.take_append_of_le_length (by rw [List.length_drop]; omega)]

/-- No word goes on from a front into the rest. -/
def Seam (front rest : Bytes) : Prop :=
  ∀ i, i + 1 = front.length → has isWordByte front i = true → has isWordByte rest 0 = false

theorem isWord_shift (seam : Seam front rest) {e : Nat × Nat} :
    IsWord (front ++ rest) (shift front.length e) ↔ IsWord rest e := by
  constructor
  · rintro ⟨nonempty, inside, before, behind⟩
    dsimp only [shift] at nonempty inside before behind
    rw [has_append_right] at behind
    refine ⟨by omega, fun i above below => ?_, fun i next => ?_, behind⟩
    · have own := inside (front.length + i) (by omega) (by omega)
      rwa [has_append_right] at own
    · have own := before (front.length + i) (by omega)
      rwa [has_append_right] at own
  · rintro ⟨nonempty, inside, before, behind⟩
    refine ⟨Nat.add_lt_add_left nonempty _, fun i above below => ?_, fun i next => ?_, ?_⟩
    · obtain ⟨i, rfl⟩ := Nat.exists_eq_add_of_le (Nat.le_trans (Nat.le_add_right _ _) above)
      dsimp only [shift] at above below
      rw [has_append_right]
      exact inside i (by omega) (by omega)
    · dsimp only [shift] at next
      -- The byte in front of the word is in the rest as well, or it is the last one of the front.
      rcases Nat.eq_zero_or_pos e.1 with first | later
      · rw [has_append_left (by omega)]
        refine Bool.eq_false_iff.2 fun word => ?_
        have own := inside 0 (by omega) (by omega)
        rw [seam i (by omega) word] at own
        cases own
      · obtain ⟨i, rfl⟩ := Nat.exists_eq_add_of_le (show front.length ≤ i by omega)
        rw [has_append_right]
        exact before i (by omega)
    · dsimp only [shift]
      rw [has_append_right]
      exact behind

theorem isToken_shift (seam : Seam front rest) {e : Nat × Nat} :
    IsToken (front ++ rest) (shift front.length e) ↔ IsToken rest e := by
  refine or_congr (isWord_shift seam) ⟨fun ⟨single, mark⟩ => ⟨?_, ?_⟩, fun ⟨single, mark⟩ => ⟨?_, ?_⟩⟩
  · dsimp only [shift] at single
    omega
  · rwa [shift, has_append_right] at mark
  · dsimp only [shift]
    omega
  · rwa [shift, has_append_right]

theorem mem_map_shift (seam : Seam front rest) (exact : ∀ e, e ∈ extents ↔ IsToken rest e)
    {e : Nat × Nat} (behind : front.length ≤ e.1) :
    e ∈ extents.map (shift front.length) ↔ IsToken (front ++ rest) e := by
  constructor
  · intro member
    obtain ⟨f, inside, rfl⟩ := List.mem_map.1 member
    exact (isToken_shift seam).2 ((exact f).1 inside)
  · intro token
    obtain ⟨f, rfl⟩ := exists_shift behind (Nat.le_trans behind (Nat.le_of_lt token.lt))
    exact List.mem_map_of_mem ((exact f).2 ((isToken_shift seam).1 token))

/-- The tokens of a front, given by their extents in it, and those of the rest behind it. -/
theorem Extents.append (shape : Extents rest found extents) (seam : Seam front rest)
    (ordered : own.Pairwise fun e f => e.2 ≤ f.1)
    (within : ∀ e ∈ own, e.1 < e.2 ∧ e.2 ≤ front.length)
    (exact : ∀ e, e.1 < front.length → (e ∈ own ↔ IsToken (front ++ rest) e))
    (covered : ∀ i, has isTokenByte front i = true → ∃ e ∈ own, e.1 ≤ i ∧ i < e.2) :
    Extents (front ++ rest) (own.map (slice front) ++ found)
      (own ++ extents.map (shift front.length)) where
  texts := by
    have early : own.map (slice (front ++ rest)) = own.map (slice front) :=
      List.map_congr_left fun e member =>
        slice_append_left (Nat.le_of_lt (within e member).1) (within e member).2
    have late : (extents.map (shift front.length)).map (slice (front ++ rest)) = found := by
      rw [List.map_map, shape.texts]
      exact List.map_congr_left fun e _ => slice_shift e
    rw [List.map_append, early, late]
  ordered := by
    refine List.pairwise_append.2 ⟨ordered, List.pairwise_map.2 ?_, ?_⟩
    · exact shape.ordered.imp fun apart => Nat.add_le_add_left apart _
    · intro e inFront f inRest
      obtain ⟨f, -, rfl⟩ := List.mem_map.1 inRest
      exact Nat.le_trans (within e inFront).2 (Nat.le_add_right _ _)
  exact := by
    intro e
    rw [List.mem_append]
    by_cases inFront : e.1 < front.length
    · rw [← exact e inFront]
      refine or_iff_left fun inRest => ?_
      obtain ⟨f, -, rfl⟩ := List.mem_map.1 inRest
      exact absurd inFront (Nat.not_lt.2 (Nat.le_add_right _ _))
    · rw [← mem_map_shift seam shape.exact (Nat.not_lt.1 inFront)]
      refine or_iff_right fun inOwn => inFront ?_
      exact Nat.lt_of_lt_of_le (within e inOwn).1 (within e inOwn).2
  covered := by
    intro i here
    by_cases inFront : i < front.length
    · rw [has_append_left inFront] at here
      obtain ⟨e, member, around⟩ := covered i here
      exact ⟨e, List.mem_append_left _ member, around⟩
    · obtain ⟨i, rfl⟩ := Nat.exists_eq_add_of_le (Nat.not_lt.1 inFront)
      rw [has_append_right] at here
      obtain ⟨e, member, above, below⟩ := shape.covered i here
      exact ⟨_, List.mem_append_right _ (List.mem_map_of_mem member),
        Nat.add_le_add_left above _, Nat.add_lt_add_left below _⟩

/-- A byte in no token adds none. -/
theorem Extents.gap {b : UInt8} (shape : Extents rest found extents) (apart : isTokenByte b = false) :
    Extents (b :: rest) found (extents.map (shift 1)) := by
  have none : ∀ i, has isTokenByte [b] i = false := by
    intro i
    refine Bool.eq_false_iff.2 fun here => ?_
    obtain rfl : i = 0 := Nat.lt_one_iff.1 (lt_of_has here)
    exact absurd (apart.symm.trans here) Bool.false_ne_true
  show Extents ([b] ++ rest) (([] : List (Nat × Nat)).map (slice [b]) ++ found)
    ([] ++ extents.map (shift [b].length))
  refine shape.append ?_ .nil (by simp) ?_ ?_
  · intro i _ word
    have here := none i
    rw [has_isTokenByte, word, Bool.true_or] at here
    cases here
  · intro e first
    refine ⟨fun member => absurd member List.not_mem_nil, fun token => ?_⟩
    have here := token.inside (Nat.le_refl _) token.lt
    rw [has_append_left first, none] at here
    cases here
  · intro i here
    rw [none] at here
    cases here

/-- Bytes that are one token as a whole add that one. -/
theorem Extents.token (shape : Extents rest found extents) (seam : Seam front rest)
    (nonempty : front ≠ [])
    (exact : ∀ e, e.1 < front.length → (e = (0, front.length) ↔ IsToken (front ++ rest) e)) :
    Extents (front ++ rest) (front :: found)
      ((0, front.length) :: extents.map (shift front.length)) := by
  have whole : [(0, front.length)].map (slice front) = [front] := by simp [slice]
  show Extents (front ++ rest) ([front] ++ found)
    ([(0, front.length)] ++ extents.map (shift front.length))
  rw [← whole]
  refine shape.append seam (List.pairwise_singleton _ _) ?_ ?_ ?_
  · intro e member
    obtain rfl := List.mem_singleton.1 member
    exact ⟨List.length_pos_iff.2 nonempty, Nat.le_refl _⟩
  · intro e first
    rw [List.mem_singleton]
    exact exact e first
  · intro i here
    exact ⟨_, List.mem_singleton_self _, Nat.zero_le i, lt_of_has here⟩

theorem Extents.mark {b : UInt8} (shape : Extents rest found extents)
    (mark : isPunctuation b = true) :
    Extents (b :: rest) ([b] :: found) ((0, 1) :: extents.map (shift 1)) := by
  have notWord := not_isWordByte_of_isPunctuation mark
  show Extents ([b] ++ rest) ([b] :: found) ((0, [b].length) :: extents.map (shift [b].length))
  refine shape.token ?_ (by simp) ?_
  · intro i next word
    obtain rfl : i = 0 := Nat.succ.inj next
    exact absurd (notWord.symm.trans word) Bool.false_ne_true
  · intro e first
    obtain ⟨start, stop⟩ := e
    obtain rfl : start = 0 := Nat.lt_one_iff.1 first
    constructor
    · intro same
      exact Or.inr ⟨congrArg Prod.snd same, mark⟩
    · rintro (word | ⟨single, -⟩)
      · exact absurd (notWord.symm.trans (word.inside 0 (Nat.le_refl _) word.nonempty))
          Bool.false_ne_true
      · exact Prod.ext rfl single

theorem Extents.word (shape : Extents rest found extents) (nonempty : front ≠ [])
    (inside : ∀ b ∈ front, isWordByte b = true)
    (stops : ∀ b ∈ rest.head?, isWordByte b = false) :
    Extents (front ++ rest) (front :: found)
      ((0, front.length) :: extents.map (shift front.length)) := by
  have behind : has isWordByte rest 0 = false := by
    rw [has_zero]
    cases first : rest.head? with
    | none => rfl
    | some b => exact stops b first
  have within : ∀ i, i < front.length → has isWordByte (front ++ rest) i = true := by
    intro i inFront
    rw [has_append_left inFront]
    exact has_of_forall inside inFront
  have after : has isWordByte (front ++ rest) front.length = false := by
    rw [← Nat.add_zero front.length, has_append_right, behind]
  refine shape.token (fun _ _ _ => behind) nonempty fun e first => ?_
  constructor
  · rintro rfl
    exact Or.inl ⟨first, fun i _ below => within i below, fun i next => absurd next (by simp), after⟩
  · rintro (⟨-, inside', before, behind'⟩ | ⟨-, mark⟩)
    · have start : e.1 = 0 := by
        refine Nat.eq_zero_of_not_pos fun later => ?_
        have previous := before (e.1 - 1) (by omega)
        rw [within _ (by omega)] at previous
        cases previous
      have stop : e.2 = front.length := by
        refine Nat.le_antisymm (Nat.le_of_not_lt fun longer => ?_) (Nat.le_of_not_lt fun shorter => ?_)
        · rw [inside' _ (by omega) longer] at after
          cases after
        · rw [within _ shorter] at behind'
          cases behind'
      exact Prod.ext start stop
    · have apart := not_word_of_mark mark
      rw [within _ first] at apart
      cases apart

/-- Whatever is read are the tokens of the file, each with its extent. -/
theorem Lexes.exists_extents (lexes : Lexes content found) : ∃ extents, Extents content found extents := by
  induction lexes with
  | done =>
      refine ⟨[], rfl, .nil, fun e => ⟨fun member => absurd member List.not_mem_nil, fun token => ?_⟩, ?_⟩
      · exact absurd (lt_of_has (token.inside (Nat.le_refl _) token.lt)) (Nat.not_lt_zero _)
      · exact fun i here => absurd (lt_of_has here) (Nat.not_lt_zero _)
  | gap apart _ ih =>
      obtain ⟨extents, shape⟩ := ih
      exact ⟨_, shape.gap apart⟩
  | mark mark _ ih =>
      obtain ⟨extents, shape⟩ := ih
      exact ⟨_, shape.mark mark⟩
  | word nonempty inside stops _ ih =>
      obtain ⟨extents, shape⟩ := ih
      exact ⟨_, shape.word nonempty inside stops⟩

end Extents

/-! ## Files cut into tokens -/

/-- A file's tokens, told by the bytes of the file alone. -/
structure Segmented (content : Bytes) (found : List Bytes) (extents : List (Nat × Nat)) : Prop
    extends Extents content found extents where
  /-- A byte of a word or a mark is in exactly one token. -/
  once : ∀ i, has isTokenByte content i = true → ∃ e ∈ extents, (e.1 ≤ i ∧ i < e.2) ∧
    ∀ f ∈ extents, f.1 ≤ i ∧ i < f.2 → f = e
  /-- Every other byte is in none. -/
  nowhere : ∀ i, has isTokenByte content i = false → ∀ e ∈ extents, ¬(e.1 ≤ i ∧ i < e.2)

theorem Extents.segmented {content : Bytes} {found : List Bytes} {extents : List (Nat × Nat)}
    (shape : Extents content found extents) : Segmented content found extents where
  toExtents := shape
  once := by
    intro i here
    obtain ⟨e, member, around⟩ := shape.covered i here
    exact ⟨e, member, around, fun f other around' => shape.unique other member around' around⟩
  nowhere := by
    intro i apart e member around
    rw [((shape.exact e).1 member).inside around.1 around.2] at apart
    cases apart

/-- How files are cut into tokens where indentation makes none. -/
structure CutPlainly (path : String) : Prop where
  /-- The tokens are the maximal words and the single marks, in order. -/
  segmented : ∀ content, ∃ extents, Segmented content (tokens path content) extents
  /-- What is separated is cut on its own. -/
  separated : ∀ front gap behind, IsGap gap →
    tokens path (front ++ gap ++ behind) = tokens path front ++ tokens path behind
  /-- Files that differ in what separates their stretches are tokenized alike. -/
  respaced : ∀ (stretches others : List (Bytes × Bytes)) (last : Bytes),
    stretches.map (·.1) = others.map (·.1) → (∀ stretch ∈ stretches, IsGap stretch.2) →
    (∀ stretch ∈ others, IsGap stretch.2) →
    tokenize path (Pieces.joined stretches ++ last) = tokenize path (Pieces.joined others ++ last)

/-- **The tokens of a file are its maximal words and its marks**, and only whether bytes are
separated matters, not by what. -/
theorem plain_tokens_exact {path : String} (plain : isIndented path = false) : CutPlainly path where
  segmented := by
    intro content
    obtain ⟨extents, shape⟩ := (lexes_scan content).exists_extents
    exact ⟨extents, tokens_plain plain content ▸ shape.segmented⟩
  separated := fun front _ behind isGap => tokens_gap plain front behind isGap
  respaced := by
    intro stretches others last same gaps gaps'
    unfold tokenize
    rw [tokens_joined plain gaps, tokens_joined plain gaps', same]

/-- A byte that is no UTF-8 separates words as a blank does, and an underscore does not. -/
theorem split_words_exact :
    isIndented "a.c" = false ∧ CutPlainly "a.c" ∧
      tokens "a.c" ([0x78, 0x5F, 0x31, 0x2D, 0x3E] ++ [0xFF, 0x20] ++ [0x79, 0x7A, 0xC3]) =
        [[0x78, 0x5F, 0x31], [0x2D], [0x3E], [0x79, 0x7A]] :=
  ⟨by decide, plain_tokens_exact (by decide), by decide⟩

end TokenBlame.Token
