/-
# TokenBlame.Proofs.BackMap.Rebuilt -- the lines that are shown are the lines of the text

Whatever a blame has for contexts, found in the text or not, in any order and of any commits: the
spans put together are the text, a span begins where a line is found and belongs to it
(`owner_spansFrom`, `startsFrom_spansFrom`), and the fragments of all spans come out as if the
text had been cut into lines at once (`text_rebuilt`).

The search may as well go through the bytes of the text (`bytePlaces`): all places at which it
cuts are between characters (`bytePlacesFrom_encodeChars`).
-/
import TokenBlame.Proofs.BackMap.Credits
import TokenBlame.Proofs.Text.Utf8

set_option autoImplicit false

namespace TokenBlame.BackMap

variable {blame : List BlameLine}

/-- A blame that has lines, with contexts that are parts of lines. -/
def Inline (blame : List BlameLine) : Prop :=
  blame ≠ [] ∧ ∀ line ∈ blame, line.context.toList ≠ [] ∧ '\n' ∉ line.context.toList

instance (blame : List BlameLine) : Decidable (Inline blame) :=
  inferInstanceAs (Decidable (_ ∧ _))

theorem Inline.begins (inline : Inline blame) : ∀ line ∈ blame, Begins line.context.toList := by
  intro line member
  obtain ⟨nonempty, flat⟩ := inline.2 line member
  obtain ⟨c, rest, same⟩ := List.exists_cons_of_ne_nil nonempty
  refine ⟨c, rest, same, ?_⟩
  rintro rfl
  exact flat (same ▸ List.mem_cons_self)

/-! ## Where spans begin and to whom they belong -/

/-- The lines that are found, in the order of the blame. -/
def located (lines : List BlameLine) (places : List (Option Nat)) : List BlameLine :=
  ((lines.zip places).filter fun found => found.2.isSome).map (·.1)

/-- The places at which spans begin, the first one at `place`. -/
def startsFrom (place : Nat) : List Span → List Nat
  | [] => []
  | span :: spans => place :: startsFrom (place + span.text.length) spans

theorem owner_spansFrom (owner : Option String) (head rest : List Char) (place : Nat)
    (lines : List BlameLine) :
    (spansFrom owner head rest lines).map (·.owner) =
      owner :: (located lines (placesFrom place rest lines)).map fun line => some line.commit := by
  induction lines generalizing owner head rest place with
  | nil => rfl
  | cons line lines ih =>
      unfold spansFrom placesFrom
      cases Pieces.splitAtFirst line.context.toList rest with
      | none => simpa [located] using ih owner head rest place
      | some around =>
          have later := ih (some line.commit) line.context.toList around.2
            (place + around.1.length + line.context.toList.length)
          simp only [List.map_cons, later]
          simp [located]

theorem startsFrom_spansFrom (owner : Option String) (head rest : List Char) (place : Nat)
    (lines : List BlameLine) :
    startsFrom place (spansFrom owner head rest lines) =
      place :: (placesFrom (place + head.length) rest lines).filterMap id := by
  induction lines generalizing owner head rest place with
  | nil => rfl
  | cons line lines ih =>
      unfold spansFrom placesFrom
      cases Pieces.splitAtFirst line.context.toList rest with
      | none => simpa using ih owner head rest place
      | some around =>
          have later := ih (some line.commit) line.context.toList around.2
            (place + (head ++ around.1).length)
          rw [List.length_append, ← Nat.add_assoc] at later
          simp only [startsFrom, List.length_append, ← Nat.add_assoc, later]
          simp

/-! ## The search in bytes -/

/-- The places at which the lines of a blame begin and end in the rest of a byte string that
begins at `place`, and `none` for those that are not found. -/
def bytePlacesFrom (place : Nat) (rest : Bytes) : List BlameLine → List (Option (Nat × Nat))
  | [] => []
  | line :: lines =>
      match Pieces.splitAtFirst (Utf8.encode line.context) rest with
      | none => none :: bytePlacesFrom place rest lines
      | some (before, behind) =>
          let start := place + before.length
          let cursor := start + (Utf8.encode line.context).length
          some (start, cursor) :: bytePlacesFrom cursor behind lines

/-- How many bytes of a text are in front of its character at `place`. -/
def byteOffset (text : List Char) (place : Nat) : Nat :=
  (Utf8.encodeChars (text.take place)).length

theorem byteOffset_length (front rest : List Char) :
    byteOffset (front ++ rest) front.length = (Utf8.encodeChars front).length := by
  rw [byteOffset, List.take_left]

/-- **The places in bytes are the places of characters.** -/
theorem bytePlacesFrom_encodeChars (front rest : List Char) (lines : List BlameLine) :
    bytePlacesFrom (Utf8.encodeChars front).length (Utf8.encodeChars rest) lines =
      (lines.zip (placesFrom front.length rest lines)).map fun found =>
        found.2.map fun place => (byteOffset (front ++ rest) place,
          byteOffset (front ++ rest) (place + found.1.context.toList.length)) := by
  induction lines generalizing front rest with
  | nil => rfl
  | cons line lines ih =>
      unfold bytePlacesFrom placesFrom Utf8.encode
      rw [Utf8.splitAtFirst_encodeChars]
      cases around : Pieces.splitAtFirst line.context.toList rest with
      | none =>
          rw [List.zip_cons_cons, List.map_cons]
          exact congrArg (List.cons none) (ih front rest)
      | some found =>
          obtain ⟨before, behind⟩ := found
          obtain rfl := Pieces.eq_of_splitAtFirst around
          have later := ih (front ++ before ++ line.context.toList) behind
          have start := byteOffset_length (front ++ before) (line.context.toList ++ behind)
          have cursor := byteOffset_length (front ++ before ++ line.context.toList) behind
          simp only [Utf8.encodeChars_append, List.length_append, List.append_assoc,
            ← Nat.add_assoc] at later start cursor
          simp only [Option.map_some, List.zip_cons_cons, List.map_cons, List.append_assoc, start,
            cursor]
          exact congrArg (List.cons _) later

/-! ## The text -/

theorem text_lines (text : List Char) (inline : Inline blame) :
    (lines blame text).map (·.text.toList) = Lines.physical text := by
  have credited := congrArg (List.map (List.map (·.1))) (credits_lines blame text inline.begins)
  have some : blame.isEmpty = false := by simpa using inline.1
  have length : text.length ≤ (owners blame text).length :=
    Nat.le_of_eq (by rw [owners_eq, length_ownersFrom])
  rw [some, if_neg (by simp), Lines.physicalBy_map, List.map_fst_zip length, List.map_map] at credited
  rw [← credited]
  exact List.map_congr_left fun line _ => toList_text line

/-- What is shown of a text by a blame. -/
structure Rebuilt (blame : List BlameLine) (text : List Char) : Prop where
  numbered : (lines blame text).map (·.number) = List.range' 1 (Lines.physical text).length
  texts : (lines blame text).map (·.text.toList) = Lines.physical text
  /-- Every character of a line comes with the owner that it has in the text. -/
  credited : (lines blame text).map (fun line => credits line.fragments) =
    Lines.physicalBy (·.1) (text.zip (owners blame text))
  whole : (spans blame text).flatMap (·.text) = text
  /-- The spans belong to no commit and then to the lines that are found, each beginning where its
  line is found. -/
  owned : (spans blame text).map (·.owner) =
    none :: (located blame (places blame text)).map fun line => some line.commit
  starts : startsFrom 0 (spans blame text) = 0 :: (places blame text).filterMap id
  /-- In bytes, the places where a line begins and where the search goes on are those where
  characters begin. -/
  boundaries : bytePlacesFrom 0 (Utf8.encodeChars text) blame =
    (blame.zip (places blame text)).map fun found => found.2.map fun place =>
      (byteOffset text place, byteOffset text (place + found.1.context.toList.length))

/-- **The text is rebuilt line by line.**  Whatever lines the blame has and whatever commits they
are blamed on, nothing of the text is lost, shown twice or moved. -/
theorem text_rebuilt (blame : List BlameLine) (text : List Char) (inline : Inline blame) :
    Rebuilt blame text where
  numbered := by
    have count := congrArg List.length (text_lines text inline)
    rw [List.length_map] at count
    rw [number_lines, count]
  texts := text_lines text inline
  credited := by
    have some : blame.isEmpty = false := by simpa using inline.1
    rw [credits_lines blame text inline.begins, some]
    rfl
  whole := text_spansFrom none [] text blame
  owned := owner_spansFrom none [] text 0 blame
  starts := startsFrom_spansFrom none [] text 0 blame
  boundaries := bytePlacesFrom_encodeChars [] text blame

/-- A line that is not found is passed over; `é` has two bytes. -/
theorem missing_line_rebuilt :
    let blame := [⟨"c1", "é", 1, 1, false⟩, ⟨"c2", "gone", 1, 2, false⟩, ⟨"c3", "y", 1, 3, false⟩]
    let text := "xé\r\n y".toList
    Inline blame ∧ Rebuilt blame text ∧
      (lines blame text).map (·.fragments) =
        [[⟨none, "x"⟩, ⟨some "c1", "é"⟩], [⟨some "c1", " "⟩, ⟨some "c3", "y"⟩]] ∧
      bytePlacesFrom 0 (Utf8.encodeChars text) blame = [some (1, 3), none, some (6, 7)] := by
  intro blame text
  have inline : Inline blame := by decide
  exact ⟨inline, text_rebuilt blame text inline, by decide, by decide⟩

end TokenBlame.BackMap
