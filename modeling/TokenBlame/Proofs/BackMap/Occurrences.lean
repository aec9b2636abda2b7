/-
# TokenBlame.Proofs.BackMap.Occurrences -- the search finds all contexts if they can be found

A choice of occurrences (`Occurrences`) gives every context of a blame a place in the text where
it stands, one behind the end of the other.  `Stand` builds such choices from left to right along
the text, and both say the same (`stand_iff`).

If there is a choice at all, the search makes one too, and its places are the least among all
choices (`contexts_located`).  No line is then passed over: each of them has a span of the text,
and the span begins at the line's place.
-/
import TokenBlame.Proofs.BackMap.Forward
import TokenBlame.Proofs.BackMap.Rebuilt

set_option autoImplicit false

namespace TokenBlame.BackMap

/-! ## Choices of occurrences -/

/-- Places for the contexts of a blame: each context occurs in the text at its place, and ends
where the next one begins or before.  So an empty context is nowhere inside of another one. -/
structure Occurrences (blame : List BlameLine) (text : List Char) (own : List Nat) : Prop where
  count : own.length = blame.length
  occurs : ∀ (k : Nat) (line : BlameLine) (place : Nat), blame[k]? = some line →
    own[k]? = some place →
    ∃ before behind, text = before ++ line.context.toList ++ behind ∧ before.length = place
  apart : ∀ (k : Nat) (line : BlameLine) (place next : Nat), blame[k]? = some line →
    own[k]? = some place → own[k + 1]? = some next → place + line.context.toList.length ≤ next

variable {blame : List BlameLine} {text : List Char} {own found : List Nat}

/-- What stands somewhere occurs there. -/
theorem Stand.occurs {start : Nat} {rest : List Char} {lines : List BlameLine} {chosen : List Nat}
    (stand : Stand start rest lines chosen) {front : List Char} (reach : front.length = start)
    {k place : Nat} {line : BlameLine} (at_ : lines[k]? = some line)
    (here : chosen[k]? = some place) :
    ∃ before behind, front ++ rest = before ++ line.context.toList ++ behind ∧
      before.length = place := by
  induction stand generalizing front k with
  | nil => cases at_
  | @cons start behind head lines chosen before later ih =>
      cases k with
      | zero =>
          obtain rfl := Option.some.inj at_
          obtain rfl := Option.some.inj here
          exact ⟨front ++ before, behind, by simp, by simp [reach]⟩
      | succ k =>
          obtain ⟨before', behind', whole, length⟩ :=
            ih (show (front ++ before ++ head.context.toList).length = _ by simp [reach, Nat.add_assoc])
              (by simpa using at_) (by simpa using here)
          exact ⟨before', behind', by simpa using whole, length⟩

/-- Occurrences behind a front stand one behind the other in the rest. -/
theorem Occurrences.behind {front rest : List Char} (choice : Occurrences blame (front ++ rest) own)
    (ahead : ∀ place ∈ own.head?, front.length ≤ place) : Stand front.length rest blame own := by
  induction blame generalizing front rest own with
  | nil =>
      obtain rfl := List.eq_nil_of_length_eq_zero choice.count
      exact Stand.nil _ _
  | cons line blame ih =>
      obtain ⟨place, own, rfl⟩ := List.exists_cons_of_length_eq_add_one choice.count
      obtain ⟨before, behind, whole, rfl⟩ := choice.occurs 0 line place rfl rfl
      obtain ⟨passed, rfl⟩ : front <+: before := List.prefix_of_prefix_length_le
        ⟨rest, rfl⟩ ⟨line.context.toList ++ behind, by rw [whole, List.append_assoc]⟩ (ahead _ rfl)
      obtain rfl : rest = passed ++ line.context.toList ++ behind := by simpa using whole
      have later : Occurrences blame (front ++ passed ++ line.context.toList ++ behind) own :=
        ⟨by simpa using choice.count,
          fun k other place at_ here => by simpa using choice.occurs (k + 1) other place at_ here,
          fun k other place next at_ here there =>
            choice.apart (k + 1) other place next at_ here there⟩
      have stand := ih later fun next first => by
        rw [List.length_append]
        exact choice.apart 0 line _ next rfl rfl (by simpa [List.head?_eq_getElem?] using first)
      simp only [List.length_append] at stand ⊢
      exact Stand.cons passed stand

theorem stand_iff : Stand 0 text blame own ↔ Occurrences blame text own := by
  constructor
  · intro stand
    exact ⟨stand.length_eq,
      fun _ _ _ at_ here => stand.occurs (show ([] : List Char).length = 0 from rfl) at_ here,
      fun _ _ _ _ at_ here there => stand.apart at_ here there⟩
  · intro choice
    have whole : Occurrences blame ([] ++ text) own := choice
    exact whole.behind (by simp)

/-! ## The search among the choices -/

/-- All lines of a blame are located, at the least places. -/
structure Located (blame : List BlameLine) (text : List Char) (found : List Nat) : Prop where
  /-- No line is passed over. -/
  places : places blame text = found.map some
  /-- Each context stands where it is located, behind the one before it. -/
  occurrences : Occurrences blame text found
  /-- No choice has any of the contexts earlier. -/
  least : ∀ other, Occurrences blame text other → ∀ (k place : Nat), other[k]? = some place →
    ∃ place' ≤ place, found[k]? = some place'
  /-- The text is cut into a span in front of the first place and one for each line. -/
  owned : (spans blame text).map (·.owner) = none :: blame.map fun line => some line.commit
  /-- The span of a line begins where the line is located. -/
  starts : startsFrom 0 (spans blame text) = 0 :: found
  whole : (spans blame text).flatMap (·.text) = text

theorem located_of_places (located : places blame text = found.map some) :
    BackMap.located blame (places blame text) = blame := by
  have count : blame.length ≤ found.length :=
    Nat.le_of_eq (Stand.of_located located).length_eq.symm
  have all : (blame.zip (found.map some)).filter (fun pair => pair.2.isSome) =
      blame.zip (found.map some) := by
    rw [List.filter_eq_self]
    intro pair member
    obtain ⟨place, -, same⟩ := List.mem_map.1 (List.of_mem_zip member).2
    rw [← same]
    rfl
  unfold BackMap.located
  rw [located, all, List.map_fst_zip (by simpa using count)]

/-- **The search is complete.**  If the contexts of a blame, whatever they are, occur in a text
one behind the other, then each of them is located, and no later than in any such choice. -/
theorem contexts_located (choice : Occurrences blame text own) :
    ∃ found, Located blame text found := by
  obtain ⟨found, located, -⟩ := (stand_iff.2 choice).located
  refine ⟨found, located, stand_iff.1 (Stand.of_located located), ?_, ?_, ?_,
    text_spansFrom none [] text blame⟩
  · intro other choice' k place at_
    obtain ⟨found', located', least⟩ := (stand_iff.2 choice').located
    obtain rfl : found = found' :=
      (List.map_inj_right fun _ _ same => Option.some.inj same).1 (located.symm.trans located')
    exact least k place at_
  · have owned := owner_spansFrom none [] text 0 blame
    rwa [show placesFrom 0 text blame = places blame text from rfl, located_of_places located]
      at owned
  · have starts := startsFrom_spansFrom none [] text 0 blame
    rw [List.length_nil, Nat.zero_add, show placesFrom 0 text blame = places blame text from rfl,
      located, List.filterMap_map] at starts
    simpa [spans] using starts

/-- Contexts that are parts of one another, an empty one between them: all are located, the first
two before the places that were chosen for them. -/
theorem nested_contexts_located :
    let blame := [⟨"c1", "a", 1, 1, false⟩, ⟨"c2", "", 1, 2, false⟩, ⟨"c3", "aab", 1, 3, false⟩]
    let text := "xaabaab".toList
    Occurrences blame text [2, 4, 4] ∧ (∃ found, Located blame text found) ∧
      places blame text = [some 1, some 2, some 4] := by
  intro blame text
  have choice : Occurrences blame text [2, 4, 4] := by
    refine ⟨rfl, ?_, ?_⟩
    · rintro (_ | _ | _ | k) line place at_ here <;> cases at_ <;> cases here
      · exact ⟨['x', 'a'], ['b', 'a', 'a', 'b'], by decide, rfl⟩
      · exact ⟨['x', 'a', 'a', 'b'], ['a', 'a', 'b'], by decide, rfl⟩
      · exact ⟨['x', 'a', 'a', 'b'], [], by decide, rfl⟩
    · rintro (_ | _ | k) line place next at_ here there <;> cases there <;> cases at_ <;> cases here <;>
        decide
  exact ⟨choice, contexts_located choice, by decide⟩

end TokenBlame.BackMap
