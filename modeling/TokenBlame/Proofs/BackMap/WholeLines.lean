/-
# TokenBlame.Proofs.BackMap.WholeLines -- blame of a file that was not cut into tokens

A file can also be blamed line by line.  The contexts of the blame are then the lines of the text
themselves, without what ends them, and line `k` of the text should be shown with the commit of
line `k` of the blame.

A line that has text is found at its own place.  An empty one is found at once, behind the text
of the line in front of it and with nothing passed, so that the line ends of a whole run of empty
lines are behind the last one of the run when they are given away (`gather_rows`).  What is shown
is written down by `rows`; it has two defects, and `Separable` is the exact condition for neither
of them to be seen (`lines_shown_whole`):

* all lines of a run of empty lines are the last one's (`blank_run_taken`);
* the line in front of such a run keeps its carriage return, since that is in another span than
  the newline behind it.
-/
import TokenBlame.Proofs.BackMap.Credits

set_option autoImplicit false

namespace TokenBlame.BackMap

/-! ## Lines of a text as contexts -/

/-- A blame has one line for each line of a text; a text of no characters has none. -/
def Lined (blame : List BlameLine) (text : List Char) : Prop :=
  blame.map (·.context.toList) = if text = [] then [] else Lines.cut text

instance (blame : List BlameLine) (text : List Char) : Decidable (Lined blame text) :=
  inferInstanceAs (Decidable (_ = _))

/-- The lines of a blame and the text that their contexts are the lines of. -/
inductive Rows : List BlameLine → List Char → Prop
  | nil : Rows [] []
  | last {line : BlameLine} (nonempty : line.context.toList ≠ [])
      (flat : ∀ c ∈ line.context.toList, decide (c = '\n') = false) :
      Rows [line] line.context.toList
  | ended {line : BlameLine} {lines : List BlameLine} {text : List Char}
      (flat : ∀ c ∈ line.context.toList, decide (c = '\n') = false) (rest : Rows lines text) :
      Rows (line :: lines) (line.context.toList ++ '\n' :: text)

variable {blame lines' : List BlameLine} {text rest : List Char}

theorem Lined.rows (lined : Lined blame text) : Rows blame text := by
  unfold Lined at lined
  induction text using Lines.line_induction (p := fun c => decide (c = '\n')) generalizing blame with
  | flat text none =>
      by_cases empty : text = []
      · subst empty
        obtain rfl : blame = [] := by simpa using lined
        exact .nil
      · rw [if_neg empty, Lines.cut_flat none] at lined
        obtain ⟨line, lines, rfl, rfl, others⟩ := List.map_eq_cons_iff.1 lined
        obtain rfl : lines = [] := by simpa using others
        exact .last empty none
  | line head newline text none here ih =>
      obtain rfl : newline = '\n' := by simpa using here
      rw [if_neg (by simp), Lines.cut_append none] at lined
      obtain ⟨line, lines, rfl, rfl, others⟩ := List.map_eq_cons_iff.1 lined
      exact .ended none (ih others)

/-- Every line of the blame has its line of the text, which lacks a carriage return at most. -/
theorem Rows.physical (rows : Rows blame text) :
    blame.length = (Lines.physical text).length ∧
      ∀ (k : Nat) (line : BlameLine), blame[k]? = some line → ∃ physical,
        (Lines.physical text)[k]? = some physical ∧
          (physical = Lines.dropReturn line.context.toList ∨
            physical = line.context.toList ∧ blame.drop (k + 1) = []) := by
  induction rows with
  | nil => exact ⟨rfl, by simp⟩
  | last nonempty flat =>
      rw [Lines.physical_flat flat, if_neg (by simpa using nonempty)]
      refine ⟨rfl, ?_⟩
      intro k line at_
      cases k with
      | zero =>
          obtain rfl := Option.some.inj at_
          exact ⟨_, rfl, Or.inr ⟨rfl, rfl⟩⟩
      | succ k => cases at_
  | ended flat _ ih =>
      rw [Lines.physical_append flat (by decide)]
      refine ⟨congrArg (· + 1) ih.1, ?_⟩
      intro k line at_
      cases k with
      | zero =>
          obtain rfl := Option.some.inj at_
          exact ⟨_, rfl, Or.inl rfl⟩
      | succ k => exact ih.2 k line at_

/-! ## What is shown -/

/-- The owner of the last of the empty lines that begin a blame, or `owner` if there are none. -/
def lastBlank (owner : Option String) : List BlameLine → Option String
  | [] => owner
  | line :: lines =>
      if line.context.toList.isEmpty then lastBlank (some line.commit) lines else owner

/-- What an empty line adds to the line in front of it: a fragment without text. -/
def blankBehind : List BlameLine → List Fragment
  | [] => []
  | line :: lines =>
      if line.context.toList.isEmpty then [⟨lastBlank (some line.commit) lines, ""⟩] else []

/-- The fragments of a line with `lines` behind it, `physical` being its text. -/
def rowFragments (line : BlameLine) (lines : List BlameLine) (physical : List Char) :
    List Fragment :=
  if line.context.toList.isEmpty then [⟨lastBlank (some line.commit) lines, ""⟩]
  else if (blankBehind lines).isEmpty then [⟨some line.commit, String.ofList physical⟩]
  else ⟨some line.commit, line.context⟩ :: blankBehind lines

/-- The fragments of all lines, the text being given line by line. -/
def rows : List BlameLine → List (List Char) → List (List Fragment)
  | line :: lines, physical :: others => rowFragments line lines physical :: rows lines others
  | _, _ => []

theorem rows_at (blame : List BlameLine) (texts : List (List Char)) {k : Nat} {line : BlameLine}
    {physical : List Char} (at_ : blame[k]? = some line) (there : texts[k]? = some physical) :
    (rows blame texts)[k]? = some (rowFragments line (blame.drop (k + 1)) physical) := by
  induction k generalizing blame texts with
  | zero =>
      cases blame <;> cases texts <;> simp_all [rows]
  | succ k ih =>
      cases blame <;> cases texts <;> simp_all [rows]

theorem length_rows (blame : List BlameLine) (texts : List (List Char))
    (same : blame.length = texts.length) : (rows blame texts).length = texts.length := by
  induction blame generalizing texts with
  | nil => cases texts <;> simp_all [rows]
  | cons line lines ih =>
      cases texts with
      | nil => simp at same
      | cons physical others =>
          rw [rows, List.length_cons, List.length_cons, ih others (by simpa using same)]

/-! ## Spans and their fragments -/

/-- A line with text is found behind the line ends in front of it. -/
theorem spansFrom_text (owner : Option String) (head : List Char) (n : Nat) {line : BlameLine}
    (lines : List BlameLine) (behind : List Char) (nonempty : line.context.toList ≠ [])
    (flat : ∀ c ∈ line.context.toList, decide (c = '\n') = false) :
    spansFrom owner head (List.replicate n '\n' ++ (line.context.toList ++ behind)) (line :: lines) =
      ⟨owner, head ++ List.replicate n '\n'⟩ ::
        spansFrom (some line.commit) line.context.toList behind lines := by
  have apart : ∀ c ∈ List.replicate n '\n', line.context.toList.head? ≠ some c := by
    intro c member first
    obtain rfl := List.eq_of_mem_replicate member
    exact absurd (flat _ (List.mem_of_mem_head? first)) (by decide)
  have found := Pieces.splitAtFirst_of_not_mem behind nonempty apart
  rw [List.append_assoc] at found
  rw [spansFrom, found]

/-- An empty line is found at once. -/
theorem spansFrom_blank (owner : Option String) (head rest : List Char) {line : BlameLine}
    (lines : List BlameLine) (empty : line.context.toList = []) :
    spansFrom owner head rest (line :: lines) =
      ⟨owner, head⟩ :: spansFrom (some line.commit) [] rest lines := by
  have found := Pieces.splitAtFirst_here [] rest
  rw [List.nil_append] at found
  rw [spansFrom, empty, found]
  exact congrArg (fun text => Span.mk owner text :: _) (List.append_nil head)

theorem fragments_nil (owner : Option String) : (Span.mk owner []).fragments = [] := rfl

theorem gather_newlines (owner : Option String) (n : Nat) (rest : List (Fragment × Bool)) :
    gather ((Span.mk owner (List.replicate n '\n')).fragments ++ rest) =
      List.replicate n [⟨owner, ""⟩] ++ gather rest := by
  have ended := gather_ended_append (List.replicate n ⟨owner, ""⟩) rest
  unfold Span.fragments
  rw [List.map_replicate, List.map_replicate] at ended
  rw [Lines.segments_newlines, List.map_replicate]
  exact ended

theorem fragments_flat (owner : Option String) {context : List Char} (nonempty : context ≠ [])
    (flat : ∀ c ∈ context, decide (c = '\n') = false) :
    (Span.mk owner context).fragments = [(⟨owner, String.ofList context⟩, false)] := by
  unfold Span.fragments
  rw [Lines.segments_flat flat, if_neg (by simpa using nonempty)]
  rfl

theorem fragments_ended (owner : Option String) {context : List Char}
    (flat : ∀ c ∈ context, decide (c = '\n') = false) :
    (Span.mk owner (context ++ ['\n'])).fragments =
      [(⟨owner, String.ofList (Lines.dropReturn context)⟩, true)] := by
  unfold Span.fragments
  rw [Lines.segments_append flat (by decide)]
  rfl

/-- The lines that are gathered from the rest of a text. -/
def gathered (owner : Option String) (head rest : List Char) (lines : List BlameLine) :
    List (List Fragment) :=
  gather ((spansFrom owner head rest lines).flatMap Span.fragments)

section Gathered

variable {owner : Option String} {head left rest : List Char} {line next : BlameLine}
  {lines others : List BlameLine}

/-- An empty line is found where no text is left in front of it. -/
theorem gathered_blank (empty : line.context.toList = []) :
    gathered owner [] rest (line :: lines) = gathered (some line.commit) [] rest lines := by
  unfold gathered
  rw [spansFrom_blank _ _ _ _ empty, List.flatMap_cons, fragments_nil, List.nil_append]

/-- An empty line behind text without a line end goes on with the line of that text. -/
theorem gathered_open (empty : line.context.toList = []) (nonempty : head ≠ [])
    (flat : ∀ c ∈ head, decide (c = '\n') = false) :
    gathered owner head rest (line :: lines) =
      (⟨owner, String.ofList head⟩ ::
        (gathered (some line.commit) [] rest lines).head?.getD []) ::
          (gathered (some line.commit) [] rest lines).tail := by
  unfold gathered
  rw [spansFrom_blank _ _ _ _ empty, List.flatMap_cons, fragments_flat _ nonempty flat,
    List.singleton_append, gather_open]

/-- Line ends in front of a line with text are lines of their own. -/
theorem gathered_newlines (n : Nat) (nonempty : line.context.toList ≠ [])
    (flat : ∀ c ∈ line.context.toList, decide (c = '\n') = false) :
    gathered owner [] (List.replicate n '\n' ++ (line.context.toList ++ rest)) (line :: lines) =
      List.replicate n [⟨owner, ""⟩] ++
        gathered (some line.commit) line.context.toList rest lines := by
  unfold gathered
  rw [spansFrom_text _ _ _ _ _ nonempty flat, List.flatMap_cons, List.nil_append,
    gather_newlines]

/-- A line with text is found where it stands first. -/
theorem gathered_here (nonempty : line.context.toList ≠ [])
    (flat : ∀ c ∈ line.context.toList, decide (c = '\n') = false) :
    gathered owner [] (line.context.toList ++ rest) (line :: lines) =
      gathered (some line.commit) line.context.toList rest lines :=
  gathered_newlines 0 nonempty flat

/-- Text that ends its line, with a line with text behind it. -/
theorem gathered_ended (flat : ∀ c ∈ head, decide (c = '\n') = false)
    (nonempty : line.context.toList ≠ [])
    (flat' : ∀ c ∈ line.context.toList, decide (c = '\n') = false) :
    gathered owner head ('\n' :: (line.context.toList ++ rest)) (line :: lines) =
      [⟨owner, String.ofList (Lines.dropReturn head)⟩] ::
        gathered (some line.commit) line.context.toList rest lines := by
  have found := spansFrom_text owner head 1 lines rest nonempty flat'
  rw [List.replicate_one, List.singleton_append] at found
  unfold gathered
  rw [found, List.flatMap_cons, fragments_ended _ flat, List.singleton_append, gather_ended]

/-- Text that ends the last line. -/
theorem gathered_last (flat : ∀ c ∈ head, decide (c = '\n') = false) :
    gathered owner head ['\n'] [] = [[⟨owner, String.ofList (Lines.dropReturn head)⟩]] := by
  unfold gathered
  rw [spansFrom, List.flatMap_singleton, fragments_ended _ flat]
  rfl

/-- Text at the end. -/
theorem gathered_rest (nonempty : head ≠ []) (flat : ∀ c ∈ head, decide (c = '\n') = false) :
    gathered owner head [] [] = [[⟨owner, String.ofList head⟩]] := by
  unfold gathered
  rw [spansFrom, List.append_nil, List.flatMap_singleton, fragments_flat _ nonempty flat]
  rfl

/-- Line ends at the end. -/
theorem gathered_newlines_rest (n : Nat) :
    gathered owner [] (List.replicate n '\n') [] = List.replicate n [⟨owner, ""⟩] := by
  have ended := gather_newlines owner n []
  rw [List.append_nil] at ended
  unfold gathered
  rw [spansFrom, List.nil_append, List.flatMap_singleton, ended]
  exact List.append_nil _

/-- What is shown of the rest of a text with line ends in front of it that are not given away. -/
def Shows (lines : List BlameLine) (rest : List Char) : Prop :=
  ∀ owner n, gathered owner [] (List.replicate n '\n' ++ rest) lines =
    List.replicate n [⟨lastBlank owner lines, ""⟩] ++ rows lines (Lines.physical rest)

/-- A line with text in front of one with text has its own line end. -/
theorem gathered_before_text (nonempty : line.context.toList ≠ [])
    (flat : ∀ c ∈ line.context.toList, decide (c = '\n') = false)
    (nonempty' : next.context.toList ≠ [])
    (flat' : ∀ c ∈ next.context.toList, decide (c = '\n') = false)
    (shows : Shows (next :: others) (next.context.toList ++ left)) :
    gathered (some line.commit) line.context.toList ('\n' :: (next.context.toList ++ left))
        (next :: others) =
      rowFragments line (next :: others) (Lines.dropReturn line.context.toList) ::
        rows (next :: others) (Lines.physical (next.context.toList ++ left)) := by
  have full : line.context.toList.isEmpty = false := by simpa using nonempty
  have apart : (blankBehind (next :: others)).isEmpty = true := by
    simp [blankBehind, List.isEmpty_eq_false_iff.2 nonempty']
  have later := shows none 0
  rw [List.replicate_zero, List.nil_append, gathered_here nonempty' flat'] at later
  rw [gathered_ended flat nonempty' flat', later, rowFragments, full, apart, if_neg (by simp),
    if_pos rfl]
  rfl

/-- A line with text in front of an empty one has no line end, but the first fragment of what
is shown of the empty one. -/
theorem gathered_before_blank (nonempty : line.context.toList ≠ [])
    (flat : ∀ c ∈ line.context.toList, decide (c = '\n') = false)
    (empty : next.context.toList = []) (shows : Shows (next :: others) left) :
    gathered (some line.commit) line.context.toList ('\n' :: left) (next :: others) =
      rowFragments line (next :: others) (Lines.dropReturn line.context.toList) ::
        rows (next :: others) (Lines.physical left) := by
  have full : line.context.toList.isEmpty = false := by simpa using nonempty
  have none' : next.context.toList.isEmpty = true := by simp [empty]
  have later := shows none 1
  rw [List.replicate_one, List.singleton_append, gathered_blank empty] at later
  rw [gathered_open empty nonempty flat, later, rowFragments, full, if_neg (by simp)]
  simp [blankBehind, lastBlank, none']

/-- A line with text, its end and the lines behind it. -/
theorem gathered_text (nonempty : line.context.toList ≠ [])
    (flat : ∀ c ∈ line.context.toList, decide (c = '\n') = false) (behind : Rows lines rest)
    (shows : Shows lines rest) :
    gathered (some line.commit) line.context.toList ('\n' :: rest) lines =
      rowFragments line lines (Lines.dropReturn line.context.toList) ::
        rows lines (Lines.physical rest) := by
  cases behind with
  | nil =>
      have full : line.context.toList.isEmpty = false := by simpa using nonempty
      rw [gathered_last flat, rowFragments, full, if_neg (by simp)]
      rfl
  | @last next nonempty' flat' =>
      have whole := List.append_nil next.context.toList
      rw [← whole] at shows ⊢
      exact gathered_before_text nonempty flat nonempty' flat' shows
  | @ended next others left flat' _ =>
      by_cases empty : next.context.toList = []
      · exact gathered_before_blank nonempty flat empty shows
      · exact gathered_before_text nonempty flat empty flat' shows

/-- **What is shown of the rest of a text.** -/
theorem gather_rows (behind : Rows lines rest) : Shows lines rest := by
  induction behind with
  | nil =>
      intro owner n
      rw [List.append_nil, gathered_newlines_rest]
      exact (List.append_nil _).symm
  | @last line nonempty flat =>
      intro owner n
      have full : line.context.toList.isEmpty = false := by simpa using nonempty
      have found : gathered owner [] (List.replicate n '\n' ++ (line.context.toList ++ [])) [line] = _ :=
        gathered_newlines n nonempty flat
      rw [List.append_nil] at found
      rw [found, gathered_rest nonempty flat, Lines.physical_flat flat,
        if_neg (by simpa using nonempty)]
      simp [lastBlank, rows, rowFragments, blankBehind, full]
  | @ended line lines text flat behind ih =>
      intro owner n
      rw [Lines.physical_append flat (by decide)]
      by_cases empty : line.context.toList = []
      · have none : line.context.toList.isEmpty = true := by simp [empty]
        have later := ih (some line.commit) (n + 1)
        rw [List.replicate_succ', List.append_assoc, List.singleton_append] at later
        rw [gathered_blank empty, empty, List.nil_append, later, List.replicate_succ',
          List.append_assoc]
        simp [lastBlank, rows, rowFragments, none]
      · have full : line.context.toList.isEmpty = false := by simpa using empty
        rw [gathered_newlines n empty flat, gathered_text empty flat behind ih]
        simp [lastBlank, rows, full]

end Gathered

theorem fragments_of_rows (aligned : Rows blame text) :
    (lines blame text).map (·.fragments) = rows blame (Lines.physical text) := by
  rw [fragments_lines]
  split
  · rename_i empty
    obtain rfl : blame = [] := by simpa using empty
    rfl
  · have shown := gather_rows aligned none 0
    simpa [gathered, spans] using shown

theorem length_lines (aligned : Rows blame text) :
    (lines blame text).length = (Lines.physical text).length := by
  have count := congrArg List.length (fragments_of_rows aligned)
  rwa [List.length_map, length_rows _ _ aligned.physical.1] at count

/-! ## Lines of their own -/

/-- Every line is shown with its own text, and what it shows, be it an empty line, belongs to its
own line of the blame. -/
def OwnLines (blame : List BlameLine) (text : List Char) : Prop :=
  (lines blame text).map (·.text.toList) = Lines.physical text ∧
    ∀ (k : Nat) (line : BlameLine) (shown : AttributedLine), blame[k]? = some line →
      (lines blame text)[k]? = some shown → ∀ fragment ∈ shown.fragments,
        fragment.text ≠ "" ∨ shown.text = "" → fragment.commit = some line.commit

/-- No empty line follows a carriage return or an empty line of another commit. -/
def Separable (blame : List BlameLine) : Prop :=
  ∀ (k : Nat) (line next : BlameLine), blame[k]? = some line → blame[k + 1]? = some next →
    next.context.toList = [] →
      line.context.toList.getLast? ≠ some '\r' ∧
        (line.context.toList = [] → line.commit = next.commit)

theorem Separable.tail {line : BlameLine} {lines : List BlameLine}
    (separable : Separable (line :: lines)) : Separable lines :=
  fun k _ _ at_ behind => separable (k + 1) _ _ at_ behind

/-- A run of empty lines of one commit has one owner. -/
theorem Separable.lastBlank_eq {line : BlameLine} {lines : List BlameLine}
    (separable : Separable (line :: lines)) (empty : line.context.toList = []) :
    lastBlank (some line.commit) lines = some line.commit := by
  induction lines generalizing line with
  | nil => rfl
  | cons next lines ih =>
      unfold lastBlank
      by_cases none : next.context.toList = []
      · obtain ⟨-, same⟩ := separable 0 line next rfl rfl none
        rw [if_pos (by simp [none]), ih separable.tail none, same empty]
      · rw [if_neg (by simpa using none)]

theorem Separable.drop (separable : Separable blame) (n : Nat) : Separable (blame.drop n) := by
  intro k line next at_ behind
  rw [List.getElem?_drop] at at_ behind
  exact separable (n + k) line next at_ behind

theorem drop_at {k : Nat} {line : BlameLine} (at_ : blame[k]? = some line) :
    blame.drop k = line :: blame.drop (k + 1) := by
  obtain ⟨inside, same⟩ := List.getElem?_eq_some_iff.1 at_
  rw [List.drop_eq_getElem_cons inside, same]

theorem dropReturn_eq {line : List Char} :
    Lines.dropReturn line = line ↔ line.getLast? ≠ some '\r' := by
  unfold Lines.dropReturn
  split
  · rename_i last
    constructor
    · intro same
      have short := congrArg List.length same
      have := List.length_pos_iff.2 (List.ne_nil_of_mem (List.mem_of_getLast? last))
      rw [List.length_dropLast] at short
      omega
    · exact fun other => absurd last other
  · rename_i last
    exact ⟨fun _ => last, fun _ => rfl⟩

/-- The line at `k` with all that is known of it. -/
theorem Rows.shown_at (aligned : Rows blame text) {k : Nat} {line : BlameLine}
    (at_ : blame[k]? = some line) :
    ∃ shown physical, (lines blame text)[k]? = some shown ∧
      (Lines.physical text)[k]? = some physical ∧
      shown.fragments = rowFragments line (blame.drop (k + 1)) physical ∧
      (physical = Lines.dropReturn line.context.toList ∨
        physical = line.context.toList ∧ blame.drop (k + 1) = []) := by
  obtain ⟨physical, there, own⟩ := aligned.physical.2 k line at_
  have row := rows_at blame (Lines.physical text) at_ there
  rw [← fragments_of_rows aligned, List.getElem?_map] at row
  obtain ⟨shown, here, same⟩ := Option.map_eq_some_iff.1 row
  exact ⟨shown, physical, here, there, same, own⟩

/-- What has text belongs to its own line. -/
theorem commit_of_rowFragments {line : BlameLine} {lines : List BlameLine} {physical : List Char}
    {fragment : Fragment} (member : fragment ∈ rowFragments line lines physical)
    (written : fragment.text ≠ "") : fragment.commit = some line.commit := by
  unfold rowFragments at member
  split at member
  · rw [List.mem_singleton.1 member] at written
    exact absurd rfl written
  split at member
  · rw [List.mem_singleton.1 member]
  · rcases List.mem_cons.1 member with rfl | member
    · rfl
    · unfold blankBehind at member
      split at member
      · cases member
      split at member
      · rw [List.mem_singleton.1 member] at written
        exact absurd rfl written
      · cases member

theorem text_fragments (shown : AttributedLine) :
    shown.text.toList = shown.fragments.flatMap fun fragment => fragment.text.toList := by
  rw [toList_text]
  unfold credits
  rw [List.map_flatMap]
  simp [Function.comp_def]

/-- The text of a line is its line of the text, unless a carriage return is kept. -/
theorem text_rowFragments {line : BlameLine} {lines : List BlameLine} {physical : List Char}
    (form : physical = Lines.dropReturn line.context.toList ∨
      physical = line.context.toList ∧ lines = [])
    (apart : ∀ next ∈ lines.head?, next.context.toList = [] →
      line.context.toList.getLast? ≠ some '\r') :
    ((rowFragments line lines physical).flatMap fun fragment => fragment.text.toList) = physical := by
  unfold rowFragments
  split
  · rename_i empty
    have none : line.context.toList = [] := by simpa using empty
    rw [none] at form
    rcases form with rfl | ⟨rfl, -⟩ <;> rfl
  split
  · simp
  · rename_i blank
    cases lines with
    | nil => exact absurd rfl blank
    | cons next lines =>
        by_cases none : next.context.toList = []
        · rcases form with rfl | ⟨-, absurd_⟩
          · rw [dropReturn_eq.2 (apart next rfl none)]
            have none' : next.context.toList.isEmpty = true := by simp [none]
            simp [blankBehind, none']
          · cases absurd_
        · have full : next.context.toList.isEmpty = false := by simpa using none
          exact absurd (by simp [blankBehind, full]) blank

/-- What is shown of a line without text belongs to it, if its run of empty lines does. -/
theorem commit_of_blank {line : BlameLine} {lines : List BlameLine} {physical : List Char}
    (separable : Separable (line :: lines)) {fragment : Fragment}
    (member : fragment ∈ rowFragments line lines physical)
    (blank : ((rowFragments line lines physical).flatMap fun fragment => fragment.text.toList) = []) :
    fragment.commit = some line.commit := by
  unfold rowFragments at member blank
  split at member
  · rename_i empty
    rw [List.mem_singleton.1 member]
    exact separable.lastBlank_eq (by simpa using empty)
  rename_i full
  rw [if_neg full] at blank
  split at member
  · rw [List.mem_singleton.1 member]
  · rename_i behind
    rw [if_neg behind, List.flatMap_cons] at blank
    exact absurd (List.append_eq_nil_iff.1 blank).1 (by simpa using full)

/-- Where the lines are shown as they should be, the empty ones can be told apart. -/
theorem OwnLines.separable (aligned : Rows blame text) (own : OwnLines blame text) :
    Separable blame := by
  obtain ⟨texts, own⟩ := own
  intro k line next at_ behind none
  obtain ⟨shown, physical, here, there, fragments, form⟩ := aligned.shown_at at_
  have split := drop_at behind
  obtain rfl : physical = Lines.dropReturn line.context.toList :=
    form.resolve_right fun last => by rw [split] at last; cases last.2
  have none' : next.context.toList.isEmpty = true := by simp [none]
  have text_ : shown.text.toList = Lines.dropReturn line.context.toList := by
    have same := congrArg (·[k]?) texts
    simpa [here, there] using same
  by_cases empty : line.context.toList = []
  · refine ⟨by simp [empty], fun _ => ?_⟩
    obtain ⟨shown', physical', here', -, fragments', -⟩ := aligned.shown_at behind
    have first := own k line shown at_ here
    have second := own (k + 1) next shown' behind here'
    rw [fragments, rowFragments, if_pos (by simp [empty]), split, lastBlank, if_pos none'] at first
    rw [fragments', rowFragments, if_pos none'] at second
    have blank : shown.text = "" := String.toList_inj.1 (by rw [text_, empty]; rfl)
    have blank' : shown'.text = "" :=
      String.toList_inj.1 (by rw [text_fragments, fragments', rowFragments, if_pos none']; rfl)
    have one := first _ List.mem_cons_self (Or.inr blank)
    have two := second _ List.mem_cons_self (Or.inr blank')
    exact Option.some.inj (one.symm.trans two)
  · refine ⟨dropReturn_eq.1 ?_, fun none => absurd none empty⟩
    rw [← text_, text_fragments, fragments, rowFragments, if_neg (by simpa using empty), split]
    simp [blankBehind, none']

/-- Where the empty lines can be told apart, all lines are shown as they should be. -/
theorem Separable.ownLines (aligned : Rows blame text) (separable : Separable blame) :
    OwnLines blame text := by
  have count := length_lines aligned
  refine ⟨List.ext_getElem? fun k => ?_, ?_⟩
  · cases at_ : blame[k]? with
    | none =>
        have short : blame.length ≤ k := List.getElem?_eq_none_iff.1 at_
        rw [aligned.physical.1] at short
        rw [List.getElem?_eq_none (by simpa [count] using short), List.getElem?_eq_none short]
    | some line =>
        obtain ⟨shown, physical, here, there, fragments, form⟩ := aligned.shown_at at_
        have apart : ∀ next ∈ (blame.drop (k + 1)).head?, next.context.toList = [] →
            line.context.toList.getLast? ≠ some '\r' := by
          intro next behind none
          exact (separable k line next at_ (by simpa using behind) none).1
        rw [List.getElem?_map, here, Option.map_some, there, text_fragments, fragments,
          text_rowFragments form apart]
  · intro k line shown at_ here fragment member written
    obtain ⟨shown', physical, here', -, fragments, -⟩ := aligned.shown_at at_
    obtain rfl : shown = shown' := Option.some.inj (here.symm.trans here')
    rw [fragments] at member
    rcases written with written | blank
    · exact commit_of_rowFragments member written
    · refine commit_of_blank (drop_at at_ ▸ separable.drop k) member ?_
      rw [← fragments, ← text_fragments, blank]
      rfl

/-- What is shown of a text by the blame of its lines. -/
structure Whole (blame : List BlameLine) (text : List Char) : Prop where
  /-- The lines are numbered from one, and there is one for each line of the text and of the
  blame. -/
  numbered : (lines blame text).map (·.number) = List.range' 1 (Lines.physical text).length
  matched : blame.length = (Lines.physical text).length
  /-- What is shown is known to the last fragment. -/
  fragments : (lines blame text).map (·.fragments) = rows blame (Lines.physical text)
  /-- What has text belongs to its own line of the blame. -/
  written : ∀ (k : Nat) (line : BlameLine) (shown : AttributedLine), blame[k]? = some line →
    (lines blame text)[k]? = some shown → ∀ fragment ∈ shown.fragments, fragment.text ≠ "" →
      fragment.commit = some line.commit
  /-- Every line is shown as it is, and also the empty ones belong to their own lines, exactly if
  these can be told apart. -/
  own : OwnLines blame text ↔ Separable blame

/-- **Attribution without tokens.**  Whatever commits the lines of a text are blamed on, all that
is shown of line `k` and has text belongs to line `k` of the blame; and the lines are shown with
their own text and commit throughout exactly if no empty line follows a carriage return or an
empty line of another commit. -/
theorem lines_shown_whole (blame : List BlameLine) (text : List Char) (lined : Lined blame text) :
    Whole blame text where
  numbered := by rw [number_lines, length_lines lined.rows]
  matched := lined.rows.physical.1
  fragments := fragments_of_rows lined.rows
  written := by
    intro k line shown at_ here fragment member written
    obtain ⟨shown', _, here', -, fragments, -⟩ := lined.rows.shown_at at_
    obtain rfl : shown = shown' := Option.some.inj (here.symm.trans here')
    exact commit_of_rowFragments (fragments ▸ member) written
  own := ⟨OwnLines.separable lined.rows, Separable.ownLines lined.rows⟩

/-- Both empty lines belong to the second one, and the first line has a fragment of it. -/
theorem blank_run_taken :
    let blame := [⟨"c1", "a", 1, 1, false⟩, ⟨"c2", "", 1, 2, false⟩, ⟨"c3", "", 1, 3, false⟩,
      ⟨"c4", "b", 1, 4, false⟩]
    let text := "a\n\n\nb".toList
    Lined blame text ∧ Whole blame text ∧ ¬OwnLines blame text ∧
      (lines blame text).map (·.fragments) =
        [[⟨some "c1", "a"⟩, ⟨some "c3", ""⟩], [⟨some "c3", ""⟩], [⟨some "c3", ""⟩],
          [⟨some "c4", "b"⟩]] := by
  intro blame text
  have lined : Lined blame text := by decide
  have whole := lines_shown_whole blame text lined
  refine ⟨lined, whole, fun own => ?_, by rw [whole.fragments]; decide⟩
  have same := (whole.own.1 own 1 _ _ rfl rfl rfl).2 rfl
  exact absurd same (by decide)

end TokenBlame.BackMap
