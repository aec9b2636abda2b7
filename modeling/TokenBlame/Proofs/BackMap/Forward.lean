/-
# TokenBlame.Proofs.BackMap.Forward -- the forward search against every other choice of places

`Stand` chooses a place for each context of a blame, one behind the other, wherever the
contexts occur.  The search is never behind such a choice (`Stand.search`): it finds every
context, each at the place of the choice or before it.

A line has the text from the place where its context is found up to the next place
(`owned_found`), and what lies behind a place belongs to that line or to later ones
(`owner_behind`).  So where each context has a place of its own, the search credits the text
from that place up to `stop` to its line, unless the contexts up to the next one also stand
in such a way that the next one begins before `stop` (`Overtaken`).
-/
import TokenBlame.Proofs.BackMap.Tokens

set_option autoImplicit false

namespace TokenBlame.BackMap

/-! ## Places one behind the other -/

/-- Places at which the contexts of lines stand one behind the other in the rest of a text
that begins at `start`. -/
inductive Stand : Nat → List Char → List BlameLine → List Nat → Prop
  | nil (start : Nat) (rest : List Char) : Stand start rest [] []
  | cons {start : Nat} {behind : List Char} {line : BlameLine} {lines : List BlameLine}
      {places : List Nat} (before : List Char)
      (later : Stand (start + before.length + line.context.toList.length) behind lines places) :
      Stand start (before ++ line.context.toList ++ behind) (line :: lines)
        ((start + before.length) :: places)

/-- The contexts up to the line behind the one at `index` stand in a text one behind the other,
the last of them before `stop`. -/
def Overtaken (blame : List BlameLine) (text : List Char) (index stop : Nat) : Prop :=
  ∃ places place, Stand 0 text (blame.take (index + 2)) places ∧
    places[index + 1]? = some place ∧ place < stop

variable {start : Nat} {rest : List Char} {lines : List BlameLine} {chosen found : List Nat}

theorem Stand.length_eq (stand : Stand start rest lines chosen) :
    chosen.length = lines.length := by
  induction stand with
  | nil => rfl
  | cons _ _ ih => rw [List.length_cons, List.length_cons, ih]

/-- No context stands in front of the rest. -/
theorem Stand.start_le (stand : Stand start rest lines chosen) :
    ∀ place ∈ chosen, start ≤ place := by
  induction stand with
  | nil => simp
  | cons _ _ ih =>
      intro place member
      rcases List.mem_cons.1 member with rfl | member
      · exact Nat.le_add_right _ _
      · exact Nat.le_trans (by omega) (ih place member)

theorem Stand.take (stand : Stand start rest lines chosen) (n : Nat) :
    Stand start rest (lines.take n) (chosen.take n) := by
  induction stand generalizing n with
  | nil start rest => simpa using Stand.nil start rest
  | cons before _ ih =>
      cases n with
      | zero => exact Stand.nil _ _
      | succ n => exact Stand.cons before (ih n)

/-- A context ends where the next one begins or before. -/
theorem Stand.apart (stand : Stand start rest lines chosen) {k place next : Nat} {line : BlameLine}
    (at_ : lines[k]? = some line) (here : chosen[k]? = some place)
    (there : chosen[k + 1]? = some next) : place + line.context.toList.length ≤ next := by
  induction stand generalizing k with
  | nil => cases at_
  | cons before later ih =>
      cases k with
      | zero =>
          obtain rfl := Option.some.inj at_
          obtain rfl := Option.some.inj here
          exact later.start_le _ (List.mem_of_getElem? (by simpa using there))
      | succ k => exact ih (by simpa using at_) (by simpa using here) (by simpa using there)

/-! ## The search -/

theorem placesFrom_take (n : Nat) :
    placesFrom start rest (lines.take n) = (placesFrom start rest lines).take n := by
  induction lines generalizing start rest n with
  | nil => simp [placesFrom]
  | cons line lines ih =>
      cases n with
      | zero => rfl
      | succ n =>
          rw [List.take_succ_cons]
          unfold placesFrom
          cases Pieces.splitAtFirst line.context.toList rest <;> simp [ih]

/-- Where all contexts are found, the first one splits the rest. -/
theorem located_cons {line : BlameLine}
    (located : placesFrom start rest (line :: lines) = found.map some) :
    ∃ before behind found', Pieces.splitAtFirst line.context.toList rest = some (before, behind) ∧
      found = (start + before.length) :: found' ∧
      placesFrom (start + before.length + line.context.toList.length) behind lines =
        found'.map some := by
  unfold placesFrom at located
  cases around : Pieces.splitAtFirst line.context.toList rest with
  | none =>
      rw [around] at located
      obtain ⟨_, _, rfl, absurd_, -⟩ := List.map_eq_cons_iff.1 located.symm
      cases absurd_
  | some parts =>
      obtain ⟨before, behind⟩ := parts
      rw [around] at located
      obtain ⟨place, found', rfl, same, later⟩ := List.map_eq_cons_iff.1 located.symm
      exact ⟨before, behind, found', rfl, by rw [Option.some.inj same], later.symm⟩

/-- What the search finds stands there. -/
theorem Stand.of_located (located : placesFrom start rest lines = found.map some) :
    Stand start rest lines found := by
  induction lines generalizing start rest found with
  | nil =>
      obtain rfl : found = [] := by simpa [placesFrom] using located.symm
      exact Stand.nil _ _
  | cons line lines ih =>
      obtain ⟨before, behind, found', around, rfl, later⟩ := located_cons located
      rw [Pieces.eq_of_splitAtFirst around]
      exact Stand.cons before (ih later)

/-- **The search is never behind.**  If the contexts stand one behind the other somewhere, all
of them are found, each where it stands or before. -/
theorem Stand.search (stand : Stand start rest lines chosen) {early : Nat} {skipped : List Char}
    (reach : early + skipped.length = start) :
    ∃ found : List Nat, placesFrom early (skipped ++ rest) lines = found.map some ∧
      ∀ (k place : Nat), chosen[k]? = some place → ∃ place' ≤ place, found[k]? = some place' := by
  induction stand generalizing early skipped with
  | nil => exact ⟨[], rfl, by simp⟩
  | @cons start behind line lines chosen before _ ih =>
      obtain ⟨before', left, around, room, -⟩ :=
        Pieces.splitAtFirst_before line.context.toList (skipped ++ before) behind
      rw [List.length_append] at room
      obtain ⟨found, located, le⟩ := ih
        (show early + before'.length + line.context.toList.length + left.length = _ by omega)
      refine ⟨(early + before'.length) :: found, ?_, ?_⟩
      · unfold placesFrom
        rw [← List.append_assoc, ← List.append_assoc, around]
        exact congrArg (List.cons _) located
      · intro k place at_
        cases k with
        | zero => exact ⟨_, by have := Option.some.inj at_; omega, rfl⟩
        | succ k => exact le k place (by simpa using at_)

/-- The next context is at the first place behind the end of the last one where it stands. -/
theorem found_next {line next : BlameLine} (located : placesFrom start rest lines = found.map some)
    {k place : Nat} (at_ : lines[k]? = some line) (then_ : lines[k + 1]? = some next)
    (here : found[k]? = some place) :
    ∃ before behind, Pieces.splitAtFirst next.context.toList
        (rest.drop (place + line.context.toList.length - start)) = some (before, behind) ∧
      found[k + 1]? = some (place + line.context.toList.length + before.length) := by
  induction lines generalizing start rest found k with
  | nil => cases at_
  | cons line' lines ih =>
      obtain ⟨before, behind, found', around, rfl, later⟩ := located_cons located
      have left : ∀ n, rest.drop (before.length + line'.context.toList.length + n) = behind.drop n := by
        intro n
        rw [Pieces.eq_of_splitAtFirst around, ← List.length_append, List.drop_length_add_append]
      cases k with
      | zero =>
          obtain rfl : line' = line := by simpa using at_
          obtain rfl : start + before.length = place := by simpa using here
          obtain ⟨lines', rfl⟩ : ∃ lines', lines = next :: lines' := by
            cases lines with
            | nil => cases then_
            | cons other lines' => exact ⟨lines', by rw [Option.some.inj then_]⟩
          obtain ⟨before', behind', found'', around', rfl, -⟩ := located_cons later
          refine ⟨before', behind', ?_, rfl⟩
          have same := left 0
          rw [Nat.add_zero, List.drop_zero] at same
          rw [Nat.add_assoc, Nat.add_sub_cancel_left, same, around']
      | succ k =>
          have bound : start + before.length + line'.context.toList.length ≤ place :=
            (Stand.of_located later).start_le _ (List.mem_of_getElem? (by simpa using here))
          obtain ⟨before', behind', around', there⟩ :=
            ih later (by simpa using at_) (by simpa using then_) (by simpa using here)
          refine ⟨before', behind', ?_, by simpa using there⟩
          rw [← around', ← left]
          congr 2
          omega

/-! ## What a found line has -/

theorem ownersFrom_cons {line : BlameLine} {before behind : List Char} (owner : Option String)
    (around : Pieces.splitAtFirst line.context.toList rest = some (before, behind)) :
    ownersFrom owner rest (line :: lines) =
      before.map (fun _ => owner) ++ ((line.context.toList.map fun _ => some line.commit) ++
        ownersFrom (some line.commit) behind lines) := by
  rw [ownersFrom, around]
  exact List.append_assoc _ _ _

/-- The text in front of the first place belongs to the line in front of it. -/
theorem owned_first (owner : Option String)
    (located : placesFrom start rest lines = found.map some) {i : Nat}
    (before : ∀ place ∈ found.head?, start + i < place) (inside : i < rest.length) :
    (ownersFrom owner rest lines)[i]? = some owner := by
  cases lines with
  | nil =>
      unfold ownersFrom
      rw [List.getElem?_map, List.getElem?_eq_getElem inside]
      rfl
  | cons line lines =>
      obtain ⟨head, behind, found', around, rfl, -⟩ := located_cons located
      have short : i < head.length := by
        have := before _ rfl
        omega
      rw [ownersFrom_cons owner around]
      exact OwnedBy.replicate head _ owner i (Nat.zero_le i) short

/-- One more line in front: what is owned behind its context is owned as far behind it. -/
theorem owners_behind {line : BlameLine} {before behind : List Char} (owner : Option String)
    (around : Pieces.splitAtFirst line.context.toList rest = some (before, behind)) {i : Nat}
    (past : before.length + line.context.toList.length ≤ i) :
    (ownersFrom owner rest (line :: lines))[i]? =
      (ownersFrom (some line.commit) behind lines)[
        i - (before.length + line.context.toList.length)]? := by
  rw [ownersFrom_cons owner around, ← List.append_assoc,
    List.getElem?_append_right (by simpa using past)]
  simp

/-- **A line has the text from its place up to the next one.** -/
theorem owned_found (owner : Option String)
    (located : placesFrom start rest lines = found.map some) {k place i : Nat} {line : BlameLine}
    (at_ : lines[k]? = some line) (here : found[k]? = some place) (above : place ≤ start + i)
    (below : ∀ next ∈ found[k + 1]?, start + i < next) (inside : i < rest.length) :
    (ownersFrom owner rest lines)[i]? = some (some line.commit) := by
  induction lines generalizing start rest found owner k i with
  | nil => cases at_
  | cons line' lines ih =>
      obtain ⟨before, behind, found', around, rfl, later⟩ := located_cons located
      have whole := congrArg List.length (Pieces.eq_of_splitAtFirst around)
      simp only [List.length_append] at whole
      cases k with
      | zero =>
          obtain rfl : line' = line := by simpa using at_
          obtain rfl : start + before.length = place := by simpa using here
          by_cases past : before.length + line'.context.toList.length ≤ i
          · rw [owners_behind owner around past]
            refine owned_first _ later (fun next first => ?_) (by omega)
            have := below next (by simpa [List.head?_eq_getElem?] using first)
            omega
          · rw [ownersFrom_cons owner around, List.getElem?_append_right (by simp; omega),
              List.length_map]
            exact OwnedBy.replicate _ _ _ _ (Nat.zero_le _) (by omega)
      | succ k =>
          have bound : start + before.length + line'.context.toList.length ≤ place :=
            (Stand.of_located later).start_le _ (List.mem_of_getElem? (by simpa using here))
          rw [owners_behind owner around (by omega)]
          refine ih _ later (by simpa using at_) (by simpa using here) (by omega) ?_ (by omega)
          intro next member
          have := below next (by simpa using member)
          omega

/-- What lies behind a place belongs to that line or to a later one. -/
theorem owner_behind (owner : Option String)
    (located : placesFrom start rest lines = found.map some) {k place i : Nat}
    (here : found[k]? = some place) (above : place ≤ start + i) (inside : i < rest.length) :
    ∃ line ∈ lines.drop k, (ownersFrom owner rest lines)[i]? = some (some line.commit) := by
  induction lines generalizing start rest found owner k place i with
  | nil =>
      obtain rfl : found = [] := by simpa [placesFrom] using located.symm
      cases here
  | cons line lines ih =>
      obtain ⟨before, behind, found', around, rfl, later⟩ := located_cons located
      have whole := congrArg List.length (Pieces.eq_of_splitAtFirst around)
      simp only [List.length_append] at whole
      have deeper : ∀ j next, found'[j]? = some next → next ≤ start + i →
          ∃ other ∈ lines.drop j,
            (ownersFrom owner rest (line :: lines))[i]? = some (some other.commit) := by
        intro j next at_ le
        have bound : start + before.length + line.context.toList.length ≤ next :=
          (Stand.of_located later).start_le _ (List.mem_of_getElem? at_)
        rw [owners_behind owner around (by omega)]
        exact ih _ later at_ (by omega) (by omega)
      cases k with
      | succ k => exact deeper k place (by simpa using here) above
      | zero =>
          by_cases passed : ∃ next, found'[0]? = some next ∧ next ≤ start + i
          · obtain ⟨next, at_, le⟩ := passed
            obtain ⟨other, member, own⟩ := deeper 0 next at_ le
            exact ⟨other, List.mem_cons_of_mem _ (by simpa using member), own⟩
          · refine ⟨line, List.mem_cons_self, owned_found owner located (k := 0) rfl here above ?_ inside⟩
            intro next first
            exact Nat.lt_of_not_le fun le => passed ⟨next, by simpa using first, le⟩

/-! ## Places of one's own -/

variable {blame : List BlameLine} {text : List Char} {own : List Nat} {index stop : Nat}

/-- Contexts that stand somewhere in a text are found there or before. -/
theorem Stand.located (stand : Stand 0 text blame own) :
    ∃ found : List Nat, places blame text = found.map some ∧
      ∀ (k place : Nat), own[k]? = some place → ∃ place' ≤ place, found[k]? = some place' :=
  stand.search (show 0 + ([] : List Char).length = 0 from rfl)

/-- A context is found at its own place or before it. -/
theorem Stand.found_at (stand : Stand 0 text blame own) {place : Nat}
    (here : own[index]? = some place) :
    ∃ place' ≤ place, (places blame text)[index]? = some (some place') := by
  obtain ⟨found, located, le⟩ := stand.located
  obtain ⟨place', early, at_⟩ := le _ _ here
  refine ⟨place', early, ?_⟩
  rw [located, List.getElem?_map, at_]
  rfl

/-- Where all contexts stand somewhere, overtaken means that the next one is found early. -/
theorem overtaken_iff (stand : Stand 0 text blame own) :
    Overtaken blame text index stop ↔
      ∃ place < stop, (places blame text)[index + 1]? = some (some place) := by
  constructor
  · rintro ⟨chosen, place, stand', at_, less⟩
    obtain ⟨found, located, le⟩ := stand'.located
    obtain ⟨place', le', here⟩ := le _ _ at_
    refine ⟨place', by omega, ?_⟩
    have first := congrArg (·[index + 1]?) located
    simpa [places, placesFrom_take, List.getElem?_take, here] using first
  · rintro ⟨place, less, at_⟩
    obtain ⟨found, located, -⟩ := stand.located
    refine ⟨found.take (index + 2), place, (Stand.of_located located).take _, ?_, less⟩
    rw [located, List.getElem?_map] at at_
    rw [List.getElem?_take, if_pos (by omega)]
    simpa using at_

/-- The next context is found early if it stands between the context and `stop`, provided that it
could not reach beyond. -/
theorem overtaken_iff_infix (stand : Stand 0 text blame own) {line next : BlameLine}
    (at_ : blame[index]? = some line) (then_ : blame[index + 1]? = some next) {place : Nat}
    (here : (places blame text)[index]? = some (some place)) {front behind : List Char}
    (whole : text = front ++ behind) (room : place + line.context.toList.length ≤ front.length)
    (nonempty : next.context.toList ≠ [])
    (barrier : ∀ c ∈ front.getLast?, c ∉ next.context.toList) :
    Overtaken blame text index front.length ↔
      next.context.toList <:+: front.drop (place + line.context.toList.length) := by
  obtain ⟨found, located, -⟩ := stand.located
  rw [located, List.getElem?_map] at here
  obtain ⟨before, left, around, there⟩ :=
    found_next located at_ then_ (show found[index]? = some place by simpa using here)
  rw [Nat.sub_zero, whole, List.drop_append_of_le_length room] at around
  have barrier' : ∀ c ∈ (front.drop (place + line.context.toList.length)).getLast?,
      c ∉ next.context.toList := by
    intro c last
    rw [List.getLast?_drop] at last
    split at last
    · cases last
    · exact barrier c last
  rw [overtaken_iff stand, ← Pieces.splitAtFirst_inside behind nonempty barrier', located,
    List.getElem?_map, there]
  simp only [around, Option.map_some, Option.some.injEq, Prod.mk.injEq, List.length_drop]
  constructor
  · rintro ⟨_, less, rfl⟩
    exact ⟨before, left, ⟨rfl, rfl⟩, by omega⟩
  · rintro ⟨_, _, ⟨rfl, rfl⟩, less⟩
    exact ⟨_, by omega, rfl⟩

/-- **What is not overtaken is credited**: the text from a context's own place up to `stop`
belongs to its line. -/
theorem owned_of_not_overtaken (stand : Stand 0 text blame own) {line : BlameLine}
    (at_ : blame[index]? = some line) {place : Nat} (here : own[index]? = some place)
    (inside : stop ≤ text.length) (ahead : ¬Overtaken blame text index stop) :
    OwnedBy (owners blame text) place stop (some line.commit) := by
  obtain ⟨found, located, le⟩ := stand.located
  obtain ⟨place', le', found_⟩ := le _ _ here
  intro i above below
  rw [owners_eq]
  refine owned_found none located at_ found_ (by omega) (fun next member => ?_) (by omega)
  refine Nat.lt_of_not_le fun early => ahead ((overtaken_iff stand).2 ⟨next, by omega, ?_⟩)
  rw [located, List.getElem?_map, member]
  rfl

/-- **What is overtaken is lost** to a later line: the last character in front of `stop` does not
belong to the context's line. -/
theorem lost_of_overtaken (stand : Stand 0 text blame own) {line : BlameLine} {place : Nat}
    (nonempty : place < stop) (inside : stop ≤ text.length)
    (overtaken : Overtaken blame text index stop)
    (others : ∀ other ∈ blame.drop (index + 1), other.commit ≠ line.commit) :
    ¬OwnedBy (owners blame text) place stop (some line.commit) := by
  obtain ⟨next, less, at_⟩ := (overtaken_iff stand).1 overtaken
  obtain ⟨found, located, -⟩ := stand.located
  rw [located, List.getElem?_map] at at_
  have found_ : found[index + 1]? = some next := by simpa using at_
  obtain ⟨other, member, last⟩ := owner_behind (i := stop - 1) none located found_ (by omega) (by omega)
  intro owned
  have own := owned (stop - 1) (by omega) (by omega)
  rw [owners_eq, last] at own
  exact others other member (by simpa using own)

/-- The text from a context's own place up to `stop` belongs to the context's line, exactly as
long as it is not overtaken; a later line of the same commit makes no difference to see. -/
structure Held (blame : List BlameLine) (text : List Char) (index place stop : Nat)
    (line : BlameLine) : Prop where
  owned : ¬Overtaken blame text index stop →
    OwnedBy (owners blame text) place stop (some line.commit)
  lost : Overtaken blame text index stop →
    (∀ other ∈ blame.drop (index + 1), other.commit ≠ line.commit) →
    ¬OwnedBy (owners blame text) place stop (some line.commit)

theorem Stand.held (stand : Stand 0 text blame own) {line : BlameLine}
    (at_ : blame[index]? = some line) {place : Nat} (here : own[index]? = some place)
    (nonempty : place < stop) (inside : stop ≤ text.length) :
    Held blame text index place stop line where
  owned := owned_of_not_overtaken stand at_ here inside
  lost := lost_of_overtaken stand nonempty inside

/-- A context that is found at its own place is not overtaken. -/
theorem not_overtaken_of_found (stand : Stand 0 text blame own) {line : BlameLine}
    (at_ : blame[index]? = some line) {place : Nat}
    (found : (places blame text)[index]? = some (some place)) :
    ¬Overtaken blame text index (place + line.context.toList.length) := by
  intro overtaken
  obtain ⟨next, less, there⟩ := (overtaken_iff stand).1 overtaken
  obtain ⟨all, located, -⟩ := stand.located
  rw [located, List.getElem?_map] at found there
  have apart := (Stand.of_located located).apart at_ (by simpa using found) (by simpa using there)
  omega

/-- The places of the pieces of a text. -/
def piecePlaces (start : Nat) : List (List Char × List Char) → List Nat
  | [] => []
  | piece :: pieces => start :: piecePlaces (start + piece.1.length + piece.2.length) pieces

theorem stand_joined {lead : List Char} {pieces : List (List Char × List Char)}
    (contexts : lines.map (·.context.toList) = pieces.map (·.1)) :
    Stand start (lead ++ Pieces.joined pieces) lines (piecePlaces (start + lead.length) pieces) := by
  induction pieces generalizing start lead lines with
  | nil =>
      obtain rfl : lines = [] := by simpa using contexts
      exact Stand.nil _ _
  | cons piece pieces ih =>
      obtain ⟨token, gap⟩ := piece
      obtain ⟨line, lines, rfl, same, others⟩ := List.map_eq_cons_iff.1 contexts
      obtain rfl : line.context.toList = token := same
      have later : Stand (start + lead.length + line.context.toList.length)
          (gap ++ Pieces.joined pieces) lines _ := ih others
      have all := Stand.cons lead later
      simpa [piecePlaces, Pieces.joined_cons] using all

theorem piecePlaces_at (start : Nat) (earlier later : List (List Char × List Char))
    (piece : List Char × List Char) :
    (piecePlaces start (earlier ++ piece :: later))[earlier.length]? =
      some (start + (Pieces.joined earlier).length) := by
  induction earlier generalizing start with
  | nil => rfl
  | cons first earlier ih =>
      rw [List.cons_append, piecePlaces, List.length_cons, List.getElem?_cons_succ, ih]
      simp [Nat.add_assoc]

/-- The text of a file is what is in front of a token, the token and what is behind it. -/
theorem decode_around (lead : Bytes) {token gap : Bytes} {earlier later : List (Bytes × Bytes)}
    (ascii : ∀ piece ∈ earlier ++ (token, gap) :: later,
      piece.1 ≠ [] ∧ ∀ b ∈ piece.1, b.toNat < 0x80) :
    Utf8.decodeLossyChars (lead ++ Pieces.joined (earlier ++ (token, gap) :: later)) =
      Utf8.decodeLossyChars (lead ++ Pieces.joined earlier) ++ Utf8.decodeLossyChars token ++
        Utf8.decodeLossyChars (gap ++ Pieces.joined later) := by
  rw [decode_joined lead ascii,
    decode_joined lead fun piece member => ascii piece (List.mem_append_left _ member),
    decode_joined gap fun piece member =>
      ascii piece (List.mem_append_right _ (List.mem_cons_of_mem _ member))]
  simp [decodePiece, Pieces.joined]

/-- Tokens of a file with anything between them stand in the text of the file, each at the place
that it has in the file. -/
theorem stand_decoded (lead : Bytes) {token gap : Bytes} {earlier later : List (Bytes × Bytes)}
    (ascii : ∀ piece ∈ earlier ++ (token, gap) :: later,
      piece.1 ≠ [] ∧ ∀ b ∈ piece.1, b.toNat < 0x80)
    (contexts : blame.map (·.context) =
      ((earlier ++ (token, gap) :: later).map (·.1)).map Utf8.decodeLossy) :
    ∃ own line,
      Stand 0 (Utf8.decodeLossyChars (lead ++ Pieces.joined (earlier ++ (token, gap) :: later)))
        blame own ∧
      own[earlier.length]? = some (Utf8.decodeLossyChars (lead ++ Pieces.joined earlier)).length ∧
      blame[earlier.length]? = some line ∧ line.context = Utf8.decodeLossy token := by
  have chars : blame.map (·.context.toList) =
      ((earlier ++ (token, gap) :: later).map decodePiece).map (·.1) := by
    simpa [decodePiece, Utf8.decodeLossy, Function.comp_def] using
      congrArg (List.map String.toList) contexts
  have here : (blame.map (·.context))[earlier.length]? = some (Utf8.decodeLossy token) := by
    rw [contexts]
    simp
  rw [List.getElem?_map] at here
  obtain ⟨line, at_, context⟩ := Option.map_eq_some_iff.1 here
  refine ⟨_, line, by rw [decode_joined lead ascii]; exact stand_joined chars, ?_, at_, context⟩
  have place := piecePlaces_at (Utf8.decodeLossyChars lead).length
    (earlier.map decodePiece) (later.map decodePiece) (decodePiece (token, gap))
  rw [List.length_map] at place
  rw [List.map_append, List.map_cons, Nat.zero_add, place,
    decode_joined lead fun piece member => ascii piece (List.mem_append_left _ member),
    List.length_append]

end TokenBlame.BackMap
