/-
# TokenBlame.Proofs.Trailer -- the source commit that a message names

The message of a destination commit names the id of the leftmost trailer of its
description, and where that has none, the id it was made for (`source?_message`): no trailer
reaches over a newline (`find?_append`).  A text names none exactly if no whole trailer stands
in it (`source?_eq_none_iff`).  A commit keeps its message but for newlines at the
front, which no trailer begins with (`source?_create`).
-/
import TokenBlame.Git.Commit
import TokenBlame.Proofs.Text.Utf8
import TokenBlame.Trailer

set_option autoImplicit false

namespace TokenBlame.Trailer

/-! ## The leftmost trailer -/

/-- What stands in front of the id. -/
def lead : List Char :=
  marker.toList ++ [' ']

theorem newline_not_mem_lead : '\n' ∉ lead := by decide

/-- An id of a source commit: forty lower-case hexadecimal digits. -/
def IsId (id : String) : Prop :=
  id.toList.length = idLength ∧ id.toList.all Numeral.isLowerHex = true

instance (id : String) : Decidable (IsId id) :=
  inferInstanceAs (Decidable (_ ∧ _))

theorem here?_eq (text : List Char) :
    here? text =
      if lead.isPrefixOf text then
        let id := (text.drop lead.length).take idLength
        if id.length == idLength && id.all Numeral.isLowerHex then some id else none
      else none := rfl

/-- A prefix without newlines is a prefix of what stands in front of the first newline. -/
theorem prefix_append_newline {pattern text rest : List Char} (none : '\n' ∉ pattern) :
    pattern <+: text ++ '\n' :: rest ↔ pattern <+: text := by
  induction text generalizing pattern with
  | nil =>
      cases pattern with
      | nil => simp
      | cons c pattern =>
          have other : c ≠ '\n' := fun same => none (same ▸ List.mem_cons_self)
          simp [other]
  | cons d text ih =>
      cases pattern with
      | nil => simp
      | cons c pattern =>
          have later : '\n' ∉ pattern := fun member => none (List.mem_cons_of_mem _ member)
          rw [List.cons_append, List.cons_prefix_cons, List.cons_prefix_cons, ih later]

/-- No trailer reaches over a newline. -/
theorem here?_append (text rest : List Char) : here? (text ++ '\n' :: rest) = here? text := by
  have start : lead.isPrefixOf (text ++ '\n' :: rest) = lead.isPrefixOf text := by
    rw [Bool.eq_iff_iff, List.isPrefixOf_iff_prefix, List.isPrefixOf_iff_prefix]
    exact prefix_append_newline newline_not_mem_lead
  rw [here?_eq, here?_eq, start]
  by_cases begins : lead.isPrefixOf text = true
  · rw [if_pos begins, if_pos begins]
    have inside := (List.isPrefixOf_iff_prefix.1 begins).length_le
    rw [List.drop_append_of_le_length inside]
    generalize text.drop lead.length = behind
    dsimp only
    by_cases enough : idLength ≤ behind.length
    · rw [List.take_append_of_le_length enough]
    · have short : (behind.take idLength).length ≠ idLength := by
        rw [List.length_take]
        omega
      have newline : '\n' ∈ (behind ++ '\n' :: rest).take idLength := by
        obtain ⟨more, same⟩ : ∃ more, idLength - behind.length = more + 1 :=
          ⟨idLength - behind.length - 1, by omega⟩
        rw [List.take_append, same, List.take_succ_cons]
        simp
      have noHex : ((behind ++ '\n' :: rest).take idLength).all Numeral.isLowerHex = false := by
        rw [Bool.eq_false_iff]
        intro all
        exact absurd (List.all_eq_true.1 all _ newline) (by decide)
      have notLong : ((behind.take idLength).length == idLength) = false :=
        beq_eq_false_iff_ne.2 short
      rw [noHex, notLong, Bool.and_false, Bool.false_and]
      rfl
  · rw [if_neg begins, if_neg begins]

theorem find?_newline (rest : List Char) : find? ('\n' :: rest) = find? rest := by
  have nothing : here? ('\n' :: rest) = none := here?_append [] rest
  rw [find?, nothing]

/-- The leftmost trailer of two texts with a newline between them is in the first, or the
leftmost of the second. -/
theorem find?_append (text rest : List Char) :
    find? (text ++ '\n' :: rest) = (find? text).or (find? rest) := by
  induction text with
  | nil => rw [List.nil_append, find?_newline, find?, Option.none_or]
  | cons c text ih =>
      rw [List.cons_append, find?, ← List.cons_append, here?_append, ih, find?]
      cases here? (c :: text) <;> rfl

theorem find?_dropWhile (text : List Char) :
    find? (text.dropWhile fun c => c == '\n') = find? text := by
  induction text with
  | nil => rfl
  | cons c text ih =>
      by_cases newline : c = '\n'
      · subst newline
        rw [List.dropWhile_cons_of_pos (by simp), ih, find?_newline]
      · rw [List.dropWhile_cons_of_neg (by simpa using newline)]

theorem toList_trailer (id : String) : (trailer id).toList = lead ++ id.toList := by
  simp [trailer, lead]

/-- An id is read where a trailer begins. -/
theorem here?_trailer {id : String} (isId : IsId id) (rest : List Char) :
    here? ((trailer id).toList ++ rest) = some id.toList := by
  have whole : ((id.toList ++ rest).take idLength) = id.toList := by
    rw [List.take_append_of_le_length (Nat.le_of_eq isId.1.symm),
      List.take_of_length_le (Nat.le_of_eq isId.1)]
  rw [toList_trailer, List.append_assoc, here?_eq,
    if_pos (List.isPrefixOf_iff_prefix.2 (List.prefix_append _ _)), List.drop_left]
  dsimp only
  rw [whole, isId.1, isId.2]
  rfl

theorem find?_trailer {id : String} (isId : IsId id) : find? (trailer id).toList = some id.toList := by
  have here := here?_trailer isId []
  rw [List.append_nil] at here
  have some : (trailer id).toList ≠ [] := by
    intro none
    rw [none] at here
    cases here
  obtain ⟨c, rest, shape⟩ := List.exists_cons_of_ne_nil some
  rw [shape, find?, ← shape, here]

/-! ## Texts without a trailer -/

/-- A whole trailer stands somewhere in a text. -/
def Bears (text : String) : Prop :=
  ∃ before id after, IsId id ∧ text = before ++ trailer id ++ after

/-- A text begins with a trailer where an id is read. -/
theorem here?_isSome_iff {text : List Char} :
    (here? text).isSome ↔ ∃ id rest, IsId id ∧ text = (trailer id).toList ++ rest := by
  constructor
  · intro found
    rw [here?_eq] at found
    split at found
    · rename_i begins
      obtain ⟨behind, rfl⟩ := List.isPrefixOf_iff_prefix.1 begins
      rw [List.drop_left] at found
      dsimp only at found
      split at found
      · rename_i isId
        rw [Bool.and_eq_true, beq_iff_eq] at isId
        refine ⟨String.ofList (behind.take idLength), behind.drop idLength, ?_, ?_⟩
        · unfold IsId
          rw [String.toList_ofList]
          exact isId
        · rw [toList_trailer, String.toList_ofList, List.append_assoc, List.take_append_drop]
      · cases found
    · cases found
  · rintro ⟨id, rest, isId, rfl⟩
    rw [here?_trailer isId]
    rfl

theorem find?_isSome_iff {text : List Char} :
    (find? text).isSome ↔ ∃ before rest, text = before ++ rest ∧ (here? rest).isSome := by
  induction text with
  | nil =>
      refine iff_of_false (by simp [find?]) ?_
      rintro ⟨before, rest, whole, found⟩
      obtain ⟨-, rfl⟩ := List.append_eq_nil_iff.1 whole.symm
      cases found
  | cons c text ih =>
      rw [find?]
      cases first : here? (c :: text) with
      | some id =>
          exact iff_of_true rfl ⟨[], c :: text, rfl, by rw [first]; rfl⟩
      | none =>
          dsimp only
          rw [ih]
          constructor
          · rintro ⟨before, rest, rfl, found⟩
            exact ⟨c :: before, rest, rfl, found⟩
          · rintro ⟨before, rest, whole, found⟩
            cases before with
            | nil =>
                rw [List.nil_append] at whole
                rw [← whole, first] at found
                cases found
            | cons d before => exact ⟨before, rest, (List.cons_eq_cons.1 whole).2, found⟩

/-- **No source commit is named** by a text exactly if no whole trailer stands in it. -/
theorem source?_eq_none_iff {text : String} : source? text = none ↔ ¬ Bears text := by
  have found : (source? text).isSome ↔ Bears text := by
    unfold source?
    rw [Option.isSome_map, find?_isSome_iff]
    constructor
    · rintro ⟨before, rest, whole, found⟩
      obtain ⟨id, after, isId, rfl⟩ := here?_isSome_iff.1 found
      refine ⟨String.ofList before, id, String.ofList after, isId, String.toList_inj.1 ?_⟩
      rw [whole]
      simp
    · rintro ⟨before, id, after, isId, rfl⟩
      refine ⟨before.toList, (trailer id).toList ++ after.toList, by simp, ?_⟩
      exact here?_isSome_iff.2 ⟨id, after.toList, isId, rfl⟩
  rw [← found, Option.not_isSome_iff_eq_none]

/-! ## Messages -/

/-- **The message made for an id** names the leftmost trailer of the description, or the id. -/
theorem source?_message (description : String) {id : String} (isId : IsId id) :
    source? (message description id) = (source? (quiet description)).or (some id) := by
  have chars : (message description id).toList =
      (quiet description).toList ++ '\n' :: '\n' :: (trailer id).toList := by
    simp [message]
  unfold source?
  rw [chars, find?_append, find?_newline, find?_trailer isId]
  cases find? (quiet description).toList <;> simp

/-! ## Messages of commits -/

open Git

theorem takeWhile_encodeChars {text : List Char} (clean : '\x00' ∉ text) :
    (Utf8.encodeChars text).takeWhile (· != 0) = Utf8.encodeChars text := by
  have none : ∀ b ∈ Utf8.encodeChars text, (b != 0) = true := by
    intro b member
    obtain ⟨c, inside, here⟩ := List.mem_flatMap.1 member
    rw [bne_iff_ne]
    rintro rfl
    have value : c.toNat = ('\x00' : Char).toNat := Utf8.toNat_of_mem_encodeChar here (by decide)
    rw [Char.toNat_inj.1 value] at inside
    exact clean inside
  calc (Utf8.encodeChars text).takeWhile (· != 0)
      = (Utf8.encodeChars text ++ []).takeWhile (· != 0) := by rw [List.append_nil]
    _ = Utf8.encodeChars text ++ [] := List.takeWhile_append_of_pos none
    _ = Utf8.encodeChars text := List.append_nil _

theorem dropWhile_encodeChars (text : List Char) :
    (Utf8.encodeChars text).dropWhile (· == 0x0A) =
      Utf8.encodeChars (text.dropWhile fun c => c == '\n') := by
  induction text with
  | nil => rfl
  | cons c text ih =>
      have written : Utf8.encodeChars (c :: text) = Utf8.encodeChar c ++ Utf8.encodeChars text := rfl
      by_cases newline : c = '\n'
      · subst newline
        have one : Utf8.encodeChar '\n' = [0x0A] := by decide
        rw [List.dropWhile_cons_of_pos (by simp), ← ih, written, one]
        rfl
      · rw [List.dropWhile_cons_of_neg (by simpa using newline), written]
        obtain ⟨b, rest, shape⟩ := List.exists_cons_of_ne_nil (Utf8.encodeChar_ne_nil c)
        have other : b ≠ 0x0A := by
          rintro rfl
          have member : (0x0A : UInt8) ∈ Utf8.encodeChar c := shape ▸ List.mem_cons_self
          have value := Utf8.toNat_of_mem_encodeChar member (by decide)
          exact newline (Char.toNat_inj.1 (value : c.toNat = ('\n' : Char).toNat))
        rw [shape, List.cons_append, List.dropWhile_cons_of_neg (by simpa using other)]

/-- A commit keeps the trailer of its message. -/
theorem source?_create (tree : Snapshot) (parents : List ObjectId) (author committer : Signature)
    {text : String} (clean : text.toList.contains '\x00' = false) :
    source? (Commit.create tree parents author committer (Utf8.encode text)).message =
      source? text := by
  have bytes : (Commit.create tree parents author committer (Utf8.encode text)).messageBytes =
      Utf8.encode (String.ofList (text.toList.dropWhile fun c => c == '\n')) := by
    show ((Utf8.encodeChars text.toList).takeWhile (· != 0)).dropWhile (· == 0x0A) = _
    rw [takeWhile_encodeChars (by simpa using clean), dropWhile_encodeChars]
    simp [Utf8.encode]
  unfold Commit.message source?
  rw [bytes, Utf8.decode?_encode, Option.getD_some, String.toList_ofList, find?_dropWhile]

end TokenBlame.Trailer
