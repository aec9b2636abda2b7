/-
# TokenBlame.Proofs.BackMap.Stripped -- blame of a file whose comments were removed

Comments are taken out of a file before it is cut into tokens, and the tokens that survive are
looked for in the file as it was, comments included.  The search knows nothing of comments, so
it may find a token inside of one.  It is then early, never late
(`surviving_tokens_credited`): the token's own text is behind the place where it was found, and
it belongs to the token's line as long as the search has not found the next token by then, too.

That can happen: a comment that repeats two tokens that follow it takes the text of the first
one away (`commented_token_taken`).
-/
import TokenBlame.Proofs.BackMap.Forward
import TokenBlame.Proofs.BackMap.Tokens

set_option autoImplicit false

namespace TokenBlame.BackMap

open Token

/-! ## Stripped files -/

/-- What is left of a file that is given as stretches to keep, each with the comment behind
it. -/
def stripped (ranges : List (Bytes × Bytes)) : Bytes :=
  ranges.flatMap (·.1)

/-- The tokens of the stretches that are kept, one stretch after the other. -/
def keptTokens (path : String) (ranges : List (Bytes × Bytes)) : List Bytes :=
  ranges.flatMap fun range => tokens path range.1

/-- The tokens of the stretches and of the comments. -/
def rangeTokens (path : String) (ranges : List (Bytes × Bytes)) : List Bytes :=
  ranges.flatMap fun range => tokens path range.1 ++ tokens path range.2

/-- A file contains tokens in this order, with anything else between them. -/
def Spread (content : Bytes) (found : List Bytes) : Prop :=
  ∃ lead pieces, lead ++ Pieces.joined pieces = content ∧ pieces.map (·.1) = found

theorem Spread.nil (content : Bytes) : Spread content [] :=
  ⟨content, [], by simp, rfl⟩

theorem Spread.append {first second : Bytes} {found others : List Bytes}
    (one : Spread first found) (two : Spread second others) :
    Spread (first ++ second) (found ++ others) := by
  obtain ⟨lead, pieces, rfl, rfl⟩ := one
  obtain ⟨lead', pieces', rfl, rfl⟩ := two
  rcases List.eq_nil_or_concat pieces with rfl | ⟨front, ⟨token, gap⟩, rfl⟩
  · exact ⟨lead ++ lead', pieces', by simp, rfl⟩
  · exact ⟨lead, front ++ (token, gap ++ lead') :: pieces', by simp [Pieces.joined], by simp⟩

theorem spread_tokens (path : String) (content : Bytes) : Spread content (tokens path content) := by
  obtain ⟨cut⟩ := nonempty_cut path content
  exact ⟨cut.lead, cut.pieces, cut.whole, cut.tokens_eq⟩

theorem spread_ranges (path : String) (ranges : List (Bytes × Bytes)) :
    Spread (Pieces.joined ranges) (keptTokens path ranges) := by
  induction ranges with
  | nil => exact Spread.nil []
  | cons range ranges ih =>
      have own := ((spread_tokens path range.1).append (Spread.nil range.2)).append ih
      rwa [List.append_nil] at own

/-- The token at `index` among those that are kept, with what stands in front of it in the
file. -/
inductive Kept (path : String) : List (Bytes × Bytes) → Bytes → Nat → Bytes → Prop
  | intro (before after : List (Bytes × Bytes)) {kept : Bytes} (comment : Bytes)
      (cut : Cut path kept) {earlier later : List (Bytes × Bytes)} {token gap : Bytes}
      (split : cut.pieces = earlier ++ (token, gap) :: later) :
      Kept path (before ++ (kept, comment) :: after)
        (Pieces.joined before ++ (cut.lead ++ Pieces.joined earlier))
        ((keptTokens path before).length + earlier.length) token

variable {path : String} {ranges : List (Bytes × Bytes)} {front token : Bytes} {index : Nat}

theorem Kept.cons (keeps : Kept path ranges front index token) (range : Bytes × Bytes) :
    Kept path (range :: ranges) (range.1 ++ range.2 ++ front)
      ((tokens path range.1).length + index) token := by
  cases keeps with
  | intro before after comment cut split =>
      simpa [keptTokens, Nat.add_assoc] using Kept.intro (range :: before) after comment cut split

/-- Every token that is kept has a place in the file. -/
theorem exists_kept (at_ : (keptTokens path ranges)[index]? = some token) :
    ∃ front, Kept path ranges front index token := by
  induction ranges generalizing index with
  | nil => cases at_
  | cons range ranges ih =>
      rw [keptTokens, List.flatMap_cons] at at_
      by_cases here : index < (tokens path range.1).length
      · obtain ⟨cut⟩ := nonempty_cut path range.1
        rw [List.getElem?_append_left here, ← cut.tokens_eq, List.getElem?_map] at at_
        obtain ⟨⟨token', gap⟩, piece, rfl⟩ := Option.map_eq_some_iff.1 at_
        obtain ⟨inside, same⟩ := List.getElem?_eq_some_iff.1 piece
        have split : cut.pieces =
            cut.pieces.take index ++ (token', gap) :: cut.pieces.drop (index + 1) := by
          rw [← same, List.getElem_cons_drop, List.take_append_drop]
        have keeps := Kept.intro [] ranges range.2 cut split
        rw [List.length_take, Nat.min_eq_left (by omega)] at keeps
        exact ⟨_, by simpa [keptTokens] using keeps⟩
      · rw [List.getElem?_append_right (by omega)] at at_
        obtain ⟨front, keeps⟩ := ih at_
        have deeper := keeps.cons range
        rw [Nat.add_sub_cancel' (by omega)] at deeper
        exact ⟨_, deeper⟩

/-- The tokens that are kept are in front of a token's place and behind it. -/
theorem Kept.around (keeps : Kept path ranges front index token) :
    ∃ (earlier later : List Bytes) (behind : Bytes), Spread front earlier ∧ Spread behind later ∧
      earlier.length = index ∧ keptTokens path ranges = earlier ++ token :: later ∧
      Pieces.joined ranges = front ++ token ++ behind := by
  cases keeps with
  | @intro before after kept comment cut earlier later _ gap split =>
      have own : tokens path kept = earlier.map (·.1) ++ token :: later.map (·.1) := by
        rw [← cut.tokens_eq, split, List.map_append, List.map_cons]
      have whole : cut.lead ++ Pieces.joined earlier ++ token ++ (gap ++ Pieces.joined later) = kept := by
        conv => rhs; rw [← cut.whole, split]
        simp [Pieces.joined]
      have inFront : Spread (cut.lead ++ Pieces.joined earlier) (earlier.map (·.1)) := ⟨_, _, rfl, rfl⟩
      have inBack : Spread (gap ++ Pieces.joined later) (later.map (·.1)) := ⟨_, _, rfl, rfl⟩
      refine ⟨_, _, _, (spread_ranges path before).append inFront,
        (inBack.append (Spread.nil comment)).append (spread_ranges path after), by simp, ?_, ?_⟩
      · simp [keptTokens, own]
      · simp [Pieces.joined, ← whole]

/-! ## What survives -/

/-- What the blame of a stripped file recovers from the file as it was. -/
structure Survived (blame : List BlameLine) (path : String) (ranges : List (Bytes × Bytes)) :
    Prop where
  /-- Every token that is left after stripping is a token that was kept. -/
  kept : ∀ index token, (tokens path (stripped ranges))[index]? = some token →
    ∃ front, Kept path ranges front index token
  /-- The lines that are shown have the characters of the file with their owners. -/
  shown : (lines blame (Utf8.decodeLossyChars (Pieces.joined ranges))).map
      (fun line => credits line.fragments) =
    if blame.isEmpty then []
    else Lines.physicalBy (·.1) ((Utf8.decodeLossyChars (Pieces.joined ranges)).zip
      (owners blame (Utf8.decodeLossyChars (Pieces.joined ranges))))
  /-- A token that was kept stands at its own place and is found there or before, and its text
  belongs to its line unless it is overtaken, which takes that it was found before. -/
  credited : ∀ front index token, Kept path ranges front index token →
    ∃ line behind place, blame[index]? = some line ∧ line.context = Utf8.decodeLossy token ∧
      Utf8.decodeLossyChars (Pieces.joined ranges) =
        Utf8.decodeLossyChars front ++ Utf8.decodeLossyChars token ++ behind ∧
      (places blame (Utf8.decodeLossyChars (Pieces.joined ranges)))[index]? = some (some place) ∧
      place ≤ (Utf8.decodeLossyChars front).length ∧
      (place = (Utf8.decodeLossyChars front).length →
        ¬Overtaken blame (Utf8.decodeLossyChars (Pieces.joined ranges)) index
          ((Utf8.decodeLossyChars front).length + token.length)) ∧
      Held blame (Utf8.decodeLossyChars (Pieces.joined ranges)) index
        (Utf8.decodeLossyChars front).length
        ((Utf8.decodeLossyChars front).length + token.length) line

/-- **Attribution after stripping.**  Whatever is taken out of a file, as long as no two tokens
are joined by it, each token that is left is found at its own place or before it, and the text
at that place belongs to its line exactly as long as the next token is not found before the end
of it. -/
theorem surviving_tokens_credited (blame : List BlameLine) (path : String)
    (ranges : List (Bytes × Bytes))
    (unjoined : tokens path (stripped ranges) = keptTokens path ranges)
    (blames : Blames blame path (stripped ranges)) : Survived blame path ranges where
  kept := fun index token at_ => exists_kept (unjoined ▸ at_)
  shown := credits_lines blame _ blames.begins
  credited := by
    intro front index token keeps
    obtain ⟨_, _, _, ⟨lead, earlier, rfl, rfl⟩, ⟨gap, later, rfl, rfl⟩, count, split, whole⟩ :=
      keeps.around
    rw [List.length_map] at count
    subst count
    have pieces : Pieces.joined ranges =
        lead ++ Pieces.joined (earlier ++ (token, gap) :: later) := by
      rw [whole]
      simp [Pieces.joined]
    have tokens_eq : tokens path (stripped ranges) =
        (earlier ++ (token, gap) :: later).map (·.1) := by
      rw [unjoined, split, List.map_append, List.map_cons]
    have ascii : ∀ piece ∈ earlier ++ (token, gap) :: later,
        piece.1 ≠ [] ∧ ∀ b ∈ piece.1, b.toNat < 0x80 := fun piece member =>
      ascii_of_mem_tokens (tokens_eq ▸ List.mem_map_of_mem member)
    obtain ⟨own, line, stand, here, at_, context⟩ :=
      stand_decoded lead ascii (show blame.map (·.context) = _ from tokens_eq ▸ blames)
    obtain ⟨place, early, found⟩ := stand.found_at here
    have around := decode_around lead ascii
    obtain ⟨nonempty, own_ascii⟩ := ascii (token, gap) (by simp)
    have size : (Utf8.decodeLossyChars token).length = token.length := by
      rw [decode_token own_ascii, List.length_map]
    rw [pieces]
    refine ⟨line, _, place, at_, context, around, found, early, ?_, stand.held at_ here ?_ ?_⟩
    · rintro rfl
      have ahead := not_overtaken_of_found stand at_ found
      rwa [context, Utf8.decodeLossy, String.toList_ofList, size] at ahead
    · exact Nat.lt_add_of_pos_right (List.length_pos_iff.2 nonempty)
    · rw [around, List.length_append, List.length_append, size]
      exact Nat.le_add_right _ _

/-- A token that is found inside of a comment has its own text all the same: the text from the
comment on is its line's. -/
theorem commented_token_credited :
    let blame := [⟨"c1", "a", 1, 1, false⟩, ⟨"c2", "b", 1, 2, false⟩]
    let ranges := [(Utf8.encode "a ", Utf8.encode "/* b */"), (Utf8.encode " b", [])]
    tokens "a.js" (stripped ranges) = keptTokens "a.js" ranges ∧
      Blames blame "a.js" (stripped ranges) ∧ Survived blame "a.js" ranges ∧
      places blame "a /* b */ b".toList = [some 0, some 5] ∧
      OwnedBy (owners blame "a /* b */ b".toList) 10 11 (some "c2") := by
  intro blame ranges
  have unjoined : tokens "a.js" (stripped ranges) = keptTokens "a.js" ranges := by decide
  have blames : Blames blame "a.js" (stripped ranges) := by decide
  refine ⟨unjoined, blames, surviving_tokens_credited blame "a.js" ranges unjoined blames,
    by decide, fun i above below => ?_⟩
  obtain rfl : i = 10 := by omega
  decide

/-- **A comment takes a token's text away.**  `b c` is what is left of the file; both tokens are
found in the comment, and the place where `b` stands belongs to the line of `c`. -/
theorem commented_token_taken :
    let blame := [⟨"c1", "b", 1, 1, false⟩, ⟨"c2", "c", 1, 2, false⟩]
    let ranges := [([], Utf8.encode "/*b c*/"), (Utf8.encode "b c", [])]
    tokens "a.js" (Pieces.joined ranges) = rangeTokens "a.js" ranges ∧
      tokens "a.js" (stripped ranges) = keptTokens "a.js" ranges ∧
      Blames blame "a.js" (stripped ranges) ∧
      Kept "a.js" ranges (Utf8.encode "/*b c*/") 0 (Utf8.encode "b") ∧
      ¬OwnedBy (owners blame (Utf8.decodeLossyChars (Pieces.joined ranges))) 7 8 (some "c1") := by
  intro blame ranges
  have blank : ∀ b ∈ Utf8.encode " ", isTokenByte b = false := by
    intro b member
    obtain rfl := List.mem_singleton.1 (show b ∈ [0x20] from member)
    decide
  refine ⟨by decide, by decide, by decide, ?_, fun owned => ?_⟩
  · exact Kept.intro [([], Utf8.encode "/*b c*/")] [] [] ⟨[],
      [(Utf8.encode "b", Utf8.encode " "), (Utf8.encode "c", [])], by decide, by decide, by simp,
      by simpa using blank⟩ (show _ = [] ++ (_, _) :: _ from rfl)
  · exact absurd (owned 7 (by decide) (by decide)) (by decide)

end TokenBlame.BackMap
