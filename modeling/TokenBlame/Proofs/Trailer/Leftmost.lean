/-
# TokenBlame.Proofs.Trailer.Leftmost -- which of several trailers is read

The id that is read from a text is the one of its leftmost whole trailer
(`source?_eq_some_iff`).  In the message for an id every whole trailer either stands inside
of the description or is the one at the end: the empty line between them is part of none
(`message_trailers`).  So a message names the leftmost trailer of its description, and where
that has none the id it was made for (`leftmost_trailer_named`).

A marker with fewer digits behind it than an id has is no trailer, whatever else follows
(`not_bears_iff`).
-/
import TokenBlame.Proofs.Trailer

set_option autoImplicit false

namespace TokenBlame.Trailer

/-! ## The leftmost trailer -/

/-- `own` is the id of the leftmost whole trailer of a text. -/
def Leftmost (text own : String) : Prop :=
  ∃ before after, IsId own ∧ text = before ++ trailer own ++ after ∧
    ∀ before' own' after', IsId own' → text = before' ++ trailer own' ++ after' →
      before.length ≤ before'.length

theorem find?_first {text id : List Char} (found : find? text = some id) :
    ∃ before rest, text = before ++ rest ∧ here? rest = some id ∧
      ∀ before' rest', text = before' ++ rest' → (here? rest').isSome →
        before.length ≤ before'.length := by
  induction text with
  | nil => cases found
  | cons c text ih =>
      rw [find?] at found
      split at found
      · rename_i own here
        cases found
        exact ⟨[], c :: text, rfl, here, fun _ _ _ _ => Nat.zero_le _⟩
      · rename_i nothing
        obtain ⟨before, rest, rfl, here, first⟩ := ih found
        refine ⟨c :: before, rest, rfl, here, fun before' rest' whole bears => ?_⟩
        cases before' with
        | nil =>
            rw [List.nil_append] at whole
            rw [← whole, nothing] at bears
            cases bears
        | cons d before' =>
            exact Nat.succ_le_succ (first before' rest' (List.cons_eq_cons.1 whole).2 bears)

theorem leftmost_of_source? {text own : String} (named : source? text = some own) :
    Leftmost text own := by
  obtain ⟨id, found, rfl⟩ := Option.map_eq_some_iff.1 named
  obtain ⟨before, rest, whole, here, first⟩ := find?_first found
  obtain ⟨own, after, isId, rfl⟩ := here?_isSome_iff.1 (Option.isSome_of_eq_some here)
  obtain rfl : own.toList = id := Option.some.inj ((here?_trailer isId _).symm.trans here)
  rw [String.ofList_toList]
  refine ⟨String.ofList before, String.ofList after, isId, ?_, ?_⟩
  · exact String.toList_inj.1 (by simp [whole])
  · intro before' own' after' isId' rfl
    rw [String.length_ofList, ← String.length_toList]
    refine first before'.toList ((trailer own').toList ++ after'.toList) (by simp) ?_
    rw [here?_trailer isId']
    rfl

/-- No two ids are leftmost. -/
theorem Leftmost.unique {text one two : String} (left : Leftmost text one)
    (right : Leftmost text two) : one = two := by
  obtain ⟨before, after, isId, here, first⟩ := left
  obtain ⟨before', after', isId', here', first'⟩ := right
  have same : before.length = before'.length :=
    Nat.le_antisymm (first _ _ _ isId' here') (first' _ _ _ isId here)
  have both := congrArg String.toList (here.symm.trans here')
  simp only [String.toList_append, toList_trailer, List.append_assoc] at both
  rw [← String.length_toList, ← String.length_toList] at same
  obtain ⟨-, behind⟩ := List.append_inj both same
  have ids := List.append_cancel_left behind
  exact String.toList_inj.1 (List.append_inj ids (isId.1.trans isId'.1.symm)).1

/-- **What is read** is the id of the leftmost whole trailer. -/
theorem source?_eq_some_iff {text own : String} :
    source? text = some own ↔ Leftmost text own := by
  refine ⟨leftmost_of_source?, fun leftmost => ?_⟩
  have bears : Bears text := by
    obtain ⟨before, after, isId, here, -⟩ := leftmost
    exact ⟨before, own, after, isId, here⟩
  cases named : source? text with
  | none => exact absurd bears (source?_eq_none_iff.1 named)
  | some other => rw [(leftmost_of_source? named).unique leftmost]

/-! ## Markers without an id -/

/-- The digits that stand where an id is read, behind a marker. -/
def digitsBehind : List Char → List Char
  | ' ' :: rest => rest.takeWhile Numeral.isLowerHex
  | _ => []

/-- A text bears no trailer exactly if fewer digits than an id has stand behind each marker. -/
theorem not_bears_iff {text : String} :
    ¬ Bears text ↔ ∀ before behind, text.toList = before ++ marker.toList ++ behind →
      (digitsBehind behind).length < idLength := by
  constructor
  · intro free before behind whole
    refine Nat.lt_of_not_le fun enough => free ?_
    obtain ⟨rest, rfl⟩ : ∃ rest, behind = ' ' :: rest := by
      unfold digitsBehind at enough
      split at enough
      · exact ⟨_, rfl⟩
      · cases enough
    have digits : ∀ c ∈ rest.takeWhile Numeral.isLowerHex, Numeral.isLowerHex c = true :=
      List.all_eq_true.1 List.all_takeWhile
    have long : idLength ≤ (rest.takeWhile Numeral.isLowerHex).length := enough
    refine ⟨String.ofList before,
      String.ofList ((rest.takeWhile Numeral.isLowerHex).take idLength),
      String.ofList (rest.drop idLength), ⟨?_, ?_⟩, String.toList_inj.1 ?_⟩
    · rw [String.toList_ofList, List.length_take, Nat.min_eq_left long]
    · rw [String.toList_ofList, List.all_eq_true]
      exact fun c member => digits c (List.mem_of_mem_take member)
    · have front : (rest.takeWhile Numeral.isLowerHex).take idLength = rest.take idLength := by
        obtain ⟨more, split⟩ := List.takeWhile_prefix (p := Numeral.isLowerHex) (l := rest)
        conv => rhs; rw [← split, List.take_append_of_le_length long]
      rw [whole, String.toList_append, String.toList_append, toList_trailer, front]
      simp [lead]
  · rintro short ⟨before, id, after, isId, rfl⟩
    have few := short before.toList (' ' :: (id.toList ++ after.toList))
      (by simp [toList_trailer, lead])
    have all : ∀ c ∈ id.toList, Numeral.isLowerHex c = true := List.all_eq_true.1 isId.2
    have enough : idLength ≤ (digitsBehind (' ' :: (id.toList ++ after.toList))).length := by
      show idLength ≤ ((id.toList ++ after.toList).takeWhile Numeral.isLowerHex).length
      rw [List.takeWhile_append_of_pos all, List.length_append, isId.1]
      exact Nat.le_add_right _ _
    exact absurd few (Nat.not_lt_of_le enough)

/-! ## The trailers of a message -/

/-- Of a text with a newline in it, what has no newline stands in front of it or behind it. -/
theorem apart_of_newline {before pattern after front behind : List Char}
    (none : '\n' ∉ pattern) (same : before ++ pattern ++ after = front ++ '\n' :: behind) :
    (∃ rest, front = before ++ pattern ++ rest) ∨
      ∃ more, before = front ++ '\n' :: more ∧ more ++ pattern ++ after = behind := by
  induction front generalizing before with
  | nil =>
      cases before with
      | nil =>
          cases pattern with
          | nil => exact Or.inl ⟨[], rfl⟩
          | cons c pattern =>
              obtain ⟨rfl, -⟩ := List.cons_eq_cons.1 same
              exact absurd List.mem_cons_self none
      | cons c before =>
          obtain ⟨rfl, rest⟩ := List.cons_eq_cons.1 same
          exact Or.inr ⟨before, rfl, rest⟩
  | cons d front ih =>
      cases before with
      | nil =>
          have begins : pattern <+: d :: front ++ '\n' :: behind := ⟨after, same⟩
          obtain ⟨rest, whole⟩ := (prefix_append_newline none).1 begins
          exact Or.inl ⟨rest, whole.symm⟩
      | cons c before =>
          obtain ⟨rfl, rest⟩ := List.cons_eq_cons.1 same
          rcases ih rest with ⟨more, rfl⟩ | ⟨more, rfl, whole⟩
          · exact Or.inl ⟨more, rfl⟩
          · exact Or.inr ⟨more, rfl, whole⟩

theorem newline_not_mem_trailer {id : String} (isId : IsId id) : '\n' ∉ (trailer id).toList := by
  rw [toList_trailer, List.mem_append]
  rintro (inside | inside)
  · exact newline_not_mem_lead inside
  · exact absurd (List.all_eq_true.1 isId.2 _ inside) (by decide)

theorem length_trailer {id : String} (isId : IsId id) :
    (trailer id).toList.length = lead.length + idLength := by
  rw [toList_trailer, List.length_append, isId.1]

/-- Every whole trailer of a message stands in its description, or is the one at its end. -/
theorem message_trailers {description id : String} (isId : IsId id)
    {before own after : String} (isOwn : IsId own)
    (whole : message description id = before ++ trailer own ++ after) :
    (∃ rest, quiet description = before ++ trailer own ++ rest) ∨
      before = quiet description ++ "\n\n" ∧ own = id ∧ after = "" := by
  have none := newline_not_mem_trailer isOwn
  have chars : before.toList ++ (trailer own).toList ++ after.toList =
      (quiet description).toList ++ '\n' :: '\n' :: (trailer id).toList := by
    have same := congrArg String.toList whole
    simpa [message] using same.symm
  rcases apart_of_newline none chars with ⟨rest, inside⟩ | ⟨more, front, later⟩
  · exact Or.inl ⟨String.ofList rest, String.toList_inj.1 (by simp [inside])⟩
  -- behind the first newline, so behind the second
  have second : more ++ (trailer own).toList ++ after.toList =
      [] ++ '\n' :: (trailer id).toList := later
  rcases apart_of_newline none second with ⟨rest, inside⟩ | ⟨more', gap, last⟩
  · have room := congrArg List.length inside
    simp only [List.length_nil, List.length_append, length_trailer isOwn] at room
    exact absurd room (by simp [idLength]; omega)
  · have room := congrArg List.length last
    simp only [List.length_append, length_trailer isOwn, length_trailer isId] at room
    obtain rfl : more' = [] := List.length_eq_zero_iff.1 (by omega)
    have empty : after.toList = [] := List.length_eq_zero_iff.1 (by omega)
    rw [empty, List.append_nil, List.nil_append, toList_trailer, toList_trailer] at last
    refine Or.inr ⟨String.toList_inj.1 ?_, String.toList_inj.1 (List.append_cancel_left last),
      String.toList_inj.1 empty⟩
    rw [front, gap]
    simp

/-- The trailers of the message made for an id, and which of them is read. -/
structure Named (description id : String) : Prop where
  /-- A whole trailer in the description wins, and of several the leftmost. -/
  leftmost : ∀ own, Leftmost (quiet description) own →
    source? (message description id) = some own
  /-- Without one the id is read that the message was made for. -/
  appended : ¬ Bears (quiet description) → source? (message description id) = some id
  /-- No trailer is put together from the description and what follows it. -/
  apart : ∀ before own after, IsId own → message description id = before ++ trailer own ++ after →
    (∃ rest, quiet description = before ++ trailer own ++ rest) ∨
      before = quiet description ++ "\n\n" ∧ own = id ∧ after = ""
  /-- However many markers have too few digits behind them, none hides the one at the end. -/
  visible : (∀ before behind,
      (quiet description).toList = before ++ marker.toList ++ behind →
        (digitsBehind behind).length < idLength) →
    source? (message description id) = some id

/-- **A message names** the leftmost whole trailer of its description, or the id it was made
for. -/
theorem leftmost_trailer_named (description : String) {id : String} (isId : IsId id) :
    Named description id := by
  have named := source?_message description isId
  have appended : ¬ Bears (quiet description) → source? (message description id) = some id := by
    intro free
    rw [named, source?_eq_none_iff.2 free, Option.none_or]
  constructor
  case leftmost =>
    intro own leftmost
    rw [named, source?_eq_some_iff.2 leftmost, Option.some_or]
  case appended => exact appended
  case apart => exact fun _ _ _ isOwn whole => message_trailers isId isOwn whole
  case visible => exact fun short => appended (not_bears_iff.2 short)

/-- A marker without digits, one that an at sign cuts, one with upper-case digits, and
behind them a whole trailer and one more. -/
theorem second_whole_trailer_passed_over :
    let own := "0123456789abcdef0123456789abcdef01234567"
    let other := "ffffffffffffffffffffffffffffffffffffffff"
    let near := "UltraBlame original commit: 12 Ultra@Blame original commit: " ++
      "0123456789ABCDEF0123456789ABCDEF01234567 UltraBlame original commit:"
    IsId own ∧ source? (message near own) = some own ∧
      source? (message (near ++ "\n" ++ trailer other ++ "0 " ++ trailer own) own) = some other := by
  intro own other near
  have isId : IsId own := by decide
  have free : ¬ Bears (quiet near) := by
    refine source?_eq_none_iff.1 ?_
    rw [source?, quiet, String.toList_ofList]
    decide +kernel
  have first : Leftmost (quiet (near ++ "\n" ++ trailer other ++ "0 " ++ trailer own)) other := by
    refine source?_eq_some_iff.1 ?_
    rw [source?, quiet, String.toList_ofList]
    simp only [String.toList_append, toList_trailer, near]
    decide +kernel
  exact ⟨isId, (leftmost_trailer_named near isId).appended free,
    (leftmost_trailer_named _ isId).leftmost other first⟩

end TokenBlame.Trailer
