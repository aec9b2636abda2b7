/-
# TokenBlame.Proofs.Porcelain.Apart -- which texts are records, and where one ends

`Layout` is the form of the texts that are read: records one behind the other, nothing but blank
lines between them, and each record a header, lines without a tab in front, and a tab line.
`parse_eq_ok_iff` says that these texts are read and no others, and what comes of them: a line
for each record, and of each commit what its records tell.

A record that is cut short has no tab line before the next header or the end of the text.  The
reader looks for headers between records only.  So it refuses a text with a record that is cut
short, unless the record runs on into a later one, whose header then counts as a detail and whose
line is given to the first commit (`records_kept_apart`).
-/
import TokenBlame.Proofs.Porcelain.Records
import TokenBlame.Proofs.Text.Pieces

set_option autoImplicit false

namespace TokenBlame.Porcelain

/-! ## Records of a text -/

/-- A record of a text: its header, the lines in front of its tab line, and what stands behind
the tab. -/
structure Entry where
  head : Header
  told : List (List Char)
  content : List Char

/-- The line of the file that a record gives. -/
def Entry.line (entry : Entry) : BlameLine :=
  entry.head.line entry.content

/-- What is known of the commits after a record. -/
def Entry.learn (commits : Table String BlameCommit) (entry : Entry) : Table String BlameCommit :=
  commits.insert entry.head.id (tellAll (known commits entry.head.id) entry.told)

/-- The lines of a text are records, with blank lines between them. -/
inductive Layout : List (List Char) → List Entry → Prop
  | done : Layout [] []
  | blank {line : List Char} {lines : List (List Char)} {entries : List Entry} :
      Blank.words line = [] → Layout lines entries → Layout (line :: lines) entries
  | record {first : List Char} {entry : Entry} {lines : List (List Char)} {entries : List Entry} :
      header first = .ok entry.head → (∀ line ∈ entry.told, line.head? ≠ some '\t') →
      Layout lines entries →
      Layout (first :: entry.told ++ ('\t' :: entry.content) :: lines) (entry :: entries)

theorem Layout.append {front back : List (List Char)} {before behind : List Entry}
    (first : Layout front before) (rest : Layout back behind) :
    Layout (front ++ back) (before ++ behind) := by
  induction first with
  | done => exact rest
  | blank isBlank _ ih => exact .blank isBlank ih
  | record isHeader noTab _ ih =>
      rw [List.append_assoc, List.cons_append]
      exact .record isHeader noTab ih

/-! ## Reading them -/

theorem between_blank {line : List Char} (isBlank : Blank.words line = [])
    (lines : List BlameLine) (commits : Table String BlameCommit) :
    (⟨none, lines, commits⟩ : Reader).between line = .ok ⟨none, lines, commits⟩ := by
  have blank : (Blank.trim line).isEmpty = true := by
    rw [List.isEmpty_iff, Blank.trim_eq_nil_iff]
    exact isBlank
  rw [Reader.between, if_pos blank]

/-- Records are read one after the other. -/
theorem Layout.readLines {text : List (List Char)} {entries : List Entry}
    (layout : Layout text entries) (lines : List BlameLine)
    (commits : Table String BlameCommit) :
    Porcelain.readLines ⟨none, lines, commits⟩ text =
      .ok ⟨none, (entries.map Entry.line).reverse ++ lines, entries.foldl Entry.learn commits⟩ := by
  induction layout generalizing lines commits with
  | done => rfl
  | blank isBlank _ ih =>
      rw [Porcelain.readLines, Reader.step]
      dsimp only
      rw [between_blank isBlank]
      exact ih lines commits
  | @record first entry text entries isHeader noTab _ ih =>
      have one := readLines_record lines commits isHeader noTab entry.content
      have split : first :: entry.told ++ ('\t' :: entry.content) :: text =
          (first :: entry.told ++ ['\t' :: entry.content]) ++ text := by simp
      rw [split, readLines_append one, ih, List.map_cons, List.reverse_cons, List.foldl_cons,
        List.append_assoc]
      rfl

/-- Between records a reader passes a blank line, or a header opens a record. -/
theorem between_cases {lines : List BlameLine} {commits : Table String BlameCommit}
    {line : List Char} {next : Reader}
    (read : (⟨none, lines, commits⟩ : Reader).between line = .ok next) :
    (Blank.words line = [] ∧ next.current = none) ∨
      ∃ head, header line = .ok head ∧ next.current = some head := by
  by_cases isBlank : Blank.words line = []
  · rw [between_blank isBlank] at read
    cases read
    exact Or.inl ⟨isBlank, rfl⟩
  · right
    cases isHeader : header line with
    | error error =>
        have visible : ¬(Blank.trim line).isEmpty = true := by
          rwa [List.isEmpty_iff, Blank.trim_eq_nil_iff]
        rw [Reader.between, if_neg visible, isHeader] at read
        cases read
    | ok head =>
        rw [between_header lines isHeader] at read
        cases read
        exact ⟨head, rfl, rfl⟩

/-- In a record a tab line ends it, and every other line leaves it open. -/
theorem inside_cases (reader : Reader) {head : Header} (isOpen : reader.current = some head)
    (line : List Char) :
    (∃ content, line = '\t' :: content ∧ (reader.inside head line).current = none) ∨
      line.head? ≠ some '\t' ∧ (reader.inside head line).current = some head := by
  unfold Reader.inside
  split
  · rename_i content
    exact Or.inl ⟨content, rfl, rfl⟩
  · rename_i noTab
    refine Or.inr ⟨fun first => ?_, isOpen⟩
    obtain ⟨rest, shape⟩ := List.head?_eq_some_iff.1 first
    exact noTab rest shape

/-- What a reader has in front of it when it ends between records: records, and before them the
rest of the record that is open. -/
def Continued : Option Header → List (List Char) → Prop
  | none, text => ∃ entries, Layout text entries
  | some _, text => ∃ told content rest entries, text = told ++ ('\t' :: content) :: rest ∧
      (∀ line ∈ told, line.head? ≠ some '\t') ∧ Layout rest entries

theorem continued_of_readLines {text : List (List Char)} {reader last : Reader}
    (read : readLines reader text = .ok last) (closed : last.current = none) :
    Continued reader.current text := by
  induction text generalizing reader with
  | nil =>
      cases read
      rw [closed]
      exact ⟨[], .done⟩
  | cons line text ih =>
      rw [readLines] at read
      cases step : reader.step line with
      | error error =>
          rw [step] at read
          cases read
      | ok next =>
          rw [step] at read
          have later := ih read
          obtain ⟨current, lines, commits⟩ := reader
          cases current with
          | none =>
              obtain ⟨isBlank, between⟩ | ⟨head, isHeader, isOpen⟩ := between_cases step
              · rw [between] at later
                obtain ⟨entries, layout⟩ := later
                exact ⟨entries, .blank isBlank layout⟩
              · rw [isOpen] at later
                obtain ⟨told, content, rest, entries, rfl, noTab, layout⟩ := later
                exact ⟨_, @Layout.record line ⟨head, told, content⟩ rest entries isHeader noTab
                  layout⟩
          | some head =>
              obtain rfl : Reader.inside ⟨some head, lines, commits⟩ head line = next :=
                Except.ok.inj step
              obtain ⟨content, rfl, between⟩ | ⟨noTab, isOpen⟩ :=
                inside_cases ⟨some head, lines, commits⟩ rfl line
              · rw [between] at later
                obtain ⟨entries, layout⟩ := later
                exact ⟨[], content, text, entries, rfl,
                  fun _ none => absurd none List.not_mem_nil, layout⟩
              · rw [isOpen] at later
                obtain ⟨told, content, rest, entries, rfl, others, layout⟩ := later
                exact ⟨line :: told, content, rest, entries, rfl,
                  List.forall_mem_cons.2 ⟨noTab, others⟩, layout⟩

/-- The blame that records give. -/
def blameOf (entries : List Entry) : Blame :=
  { lines := entries.map Entry.line
    commits := entries.foldl Entry.learn ∅ }

/-- The lines of a text. -/
def linesOf (output : String) : List (List Char) :=
  Pieces.split '\n' output.toList

/-- **Records are what is read**: of every text that is laid out in records the blame that these
give, and of no other text anything. -/
theorem parse_eq_ok_iff {output : String} {blame : Blame} :
    parse output = .ok blame ↔ ∃ entries, Layout (linesOf output) entries ∧
      blame = blameOf entries := by
  have initial : ({} : Reader) = ⟨none, [], ∅⟩ := rfl
  constructor
  · intro parsed
    unfold parse at parsed
    split at parsed
    · cases parsed
    · rename_i last read
      unfold Reader.finish at parsed
      split at parsed
      · rename_i closed
        obtain ⟨entries, layout⟩ : Continued none (linesOf output) :=
          continued_of_readLines read closed
        refine ⟨entries, layout, ?_⟩
        have same := read.symm.trans (layout.readLines [] ∅)
        cases same
        cases parsed
        simp [blameOf]
      · cases parsed
  · rintro ⟨entries, layout, rfl⟩
    have read := layout.readLines [] ∅
    rw [linesOf] at read
    unfold parse
    rw [initial, read]
    simp [Reader.finish, blameOf]

/-! ## Texts that are refused -/

/-- A text is refused as malformed. -/
def Refused (output : String) : Prop :=
  ∃ message, parse output = .error (.malformedBlame message)

theorem header_error {line : List Char} {error : Error} (none : header line = .error error) :
    ∃ message, error = .malformedBlame message := by
  unfold header at none
  split at none
  · cases none
    exact ⟨_, rfl⟩
  · dsimp only at none
    split at none
    · cases none
    · cases none
      exact ⟨_, rfl⟩

theorem readLines_error {text : List (List Char)} {reader : Reader} {error : Error}
    (stopped : readLines reader text = .error error) :
    ∃ message, error = .malformedBlame message := by
  induction text generalizing reader with
  | nil => cases stopped
  | cons line text ih =>
      rw [readLines] at stopped
      cases step : reader.step line with
      | ok next =>
          rw [step] at stopped
          exact ih stopped
      | error own =>
          rw [step] at stopped
          cases stopped
          unfold Reader.step Reader.between at step
          split at step
          · split at step
            · cases step
            · split at step
              · rename_i none
                cases step
                exact header_error none
              · cases step
          · cases step

/-- A text is read, or it is refused as malformed. -/
theorem refused_of_not_ok {output : String} (none : ∀ blame, parse output ≠ .ok blame) :
    Refused output := by
  cases parsed : parse output with
  | ok blame => exact absurd parsed (none blame)
  | error error =>
      suffices ∃ message, error = .malformedBlame message by
        obtain ⟨message, rfl⟩ := this
        exact ⟨message, parsed⟩
      unfold parse at parsed
      split at parsed
      · rename_i stopped
        cases parsed
        exact readLines_error stopped
      · unfold Reader.finish at parsed
        split at parsed
        · cases parsed
        · cases parsed
          exact ⟨_, rfl⟩

/-! ## Records that are cut short -/

/-- A line that is a header.  What has a tab in front is a line of the file. -/
def IsHeader (line : List Char) : Prop :=
  line.head? ≠ some '\t' ∧ ∃ head, header line = .ok head

instance (line : List Char) : Decidable (IsHeader line) :=
  decidable_of_iff (line.head? ≠ some '\t' ∧ (header line).isOk = true) (by
    unfold IsHeader
    cases header line <;> simp [Except.isOk, Except.toBool])

/-- Behind a header a tab line comes before the next header. -/
def Ended (behind : List (List Char)) : Prop :=
  ∃ told content rest, behind = told ++ ('\t' :: content) :: rest ∧ ∀ line ∈ told, ¬IsHeader line

/-- A text has a record that is cut short: by the next header, or by the end of the text. -/
def CutShort (text : List (List Char)) : Prop :=
  ∃ front first behind, text = front ++ first :: behind ∧ IsHeader first ∧ ¬Ended behind

/-- A record of a text runs on into a later one: the records in front of it are whole, and while
it is open a header comes. -/
def RunsOn (text : List (List Char)) : Prop :=
  ∃ front entries first told later rest, text = front ++ first :: told ++ later :: rest ∧
    Layout front entries ∧ (∃ head, header first = .ok head) ∧
    (∀ line ∈ told, line.head? ≠ some '\t') ∧ IsHeader later

theorem RunsOn.behind {front back : List (List Char)} {entries : List Entry}
    (layout : Layout front entries) (runsOn : RunsOn back) : RunsOn (front ++ back) := by
  obtain ⟨front', entries', first, told, later, rest, rfl, layout', isHeader, noTab, isLater⟩ :=
    runsOn
  exact ⟨front ++ front', entries ++ entries', first, told, later, rest, by simp,
    layout.append layout', isHeader, noTab, isLater⟩

/-- A record that has a header among its details runs on. -/
theorem runsOn_of_mem {first later : List Char} {told rest : List (List Char)}
    (isHeader : ∃ head, header first = .ok head) (noTab : ∀ line ∈ told, line.head? ≠ some '\t')
    (member : later ∈ told) (isLater : IsHeader later) : RunsOn (first :: told ++ rest) := by
  obtain ⟨before, behind, rfl⟩ := List.append_of_mem member
  exact ⟨[], [], first, before, later, behind ++ rest, by simp, .done, isHeader,
    fun line inside => noTab line (List.mem_append_left _ inside), isLater⟩

/-- What is not ended in front of a tab line has another header in front of it. -/
theorem exists_later {told rest : List (List Char)} {content : List Char}
    (notEnded : ¬Ended (told ++ ('\t' :: content) :: rest)) : ∃ later ∈ told, IsHeader later := by
  apply Classical.byContradiction
  intro none
  exact notEnded ⟨told, content, rest, rfl, fun line member isLater => none ⟨line, member, isLater⟩⟩

/-- **A record that is cut short runs on**, if the text is read nevertheless: its header is that
of an open record, or a detail of one. -/
theorem Layout.runsOn {text : List (List Char)} {entries : List Entry}
    (layout : Layout text entries) (cutShort : CutShort text) : RunsOn text := by
  induction layout with
  | done =>
      obtain ⟨front, first, behind, none, -⟩ := cutShort
      simp at none
  | @blank line text entries isBlank _ ih =>
      obtain ⟨front, cut, behind, shape, isCut, notEnded⟩ := cutShort
      rcases List.cons_eq_append_iff.1 shape with ⟨rfl, same⟩ | ⟨front, rfl, rfl⟩
      · cases same
        obtain ⟨-, head, isHeader⟩ := isCut
        exact absurd isBlank (words_ne_nil_of_header isHeader)
      · exact (ih ⟨front, cut, behind, rfl, isCut, notEnded⟩).behind (.blank isBlank .done)
  | @record first entry text entries isHeader noTab _ ih =>
      obtain ⟨front, cut, behind, shape, isCut, notEnded⟩ := cutShort
      rcases List.append_eq_append_iff.1 shape with ⟨front, rfl, same⟩ | ⟨own, split, same⟩
      · -- the header stands behind the record
        rcases List.cons_eq_append_iff.1 same with ⟨rfl, same⟩ | ⟨front, rfl, rfl⟩
        · cases same
          exact absurd rfl isCut.1
        · have one : Layout (first :: entry.told ++ ['\t' :: entry.content]) [entry] :=
            .record isHeader noTab .done
          have later := (ih ⟨front, cut, behind, rfl, isCut, notEnded⟩).behind one
          simpa using later
      · -- the header stands in the record
        rcases List.cons_eq_append_iff.1 same with ⟨rfl, same⟩ | ⟨own, rfl, rfl⟩
        · cases same
          exact absurd rfl isCut.1
        · obtain ⟨later, member, isLater⟩ := exists_later notEnded
          refine runsOn_of_mem ⟨_, isHeader⟩ noTab ?_ isLater
          rcases List.cons_eq_append_iff.1 split with ⟨rfl, same⟩ | ⟨front, rfl, same⟩
          · cases same
            exact member
          · rw [same]
            simp [member]

/-- Where no record runs on, no header is among the details of a record. -/
theorem Layout.told_noHeader {text : List (List Char)} {entries : List Entry}
    (layout : Layout text entries) (notOn : ¬RunsOn text) :
    ∀ entry ∈ entries, ∀ line ∈ entry.told, ¬IsHeader line := by
  induction layout with
  | done => exact fun _ none => absurd none List.not_mem_nil
  | @blank line text entries isBlank _ ih =>
      exact ih fun runsOn => notOn (runsOn.behind (.blank isBlank .done) : RunsOn ([line] ++ text))
  | @record first entry text entries isHeader noTab _ ih =>
      have one : Layout (first :: entry.told ++ ['\t' :: entry.content]) [entry] :=
        .record isHeader noTab .done
      refine List.forall_mem_cons.2 ⟨fun line member isLater => ?_, ih fun runsOn => notOn ?_⟩
      · exact notOn (runsOn_of_mem ⟨_, isHeader⟩ noTab member isLater)
      · simpa using runsOn.behind one

/-! ## Commits and lines -/

theorem tell_id (record : BlameCommit) (line : List Char) : (tell record line).id = record.id := by
  unfold tell tellKey
  dsimp only
  split <;> rfl

theorem tellAll_id (record : BlameCommit) (told : List (List Char)) :
    (tellAll record told).id = record.id := by
  induction told generalizing record with
  | nil => rfl
  | cons line told ih => exact (ih (tell record line)).trans (tell_id record line)

/-- Every commit has its own id, and there are those in `ids` and no others. -/
structure Named (commits : Table String BlameCommit) (ids : List String) : Prop where
  own : ∀ id record, commits.get? id = some record → record.id = id
  keys : ∀ id, (∃ record, commits.get? id = some record) ↔ id ∈ ids

theorem Named.learn {commits : Table String BlameCommit} {ids : List String}
    (named : Named commits ids) (entry : Entry) :
    Named (entry.learn commits) (ids ++ [entry.head.id]) := by
  have known_id : (known commits entry.head.id).id = entry.head.id := by
    unfold known
    cases found : commits.get? entry.head.id with
    | none => rfl
    | some record => exact named.own _ _ found
  constructor
  · intro id record found
    rw [Entry.learn, Table.get?_insert] at found
    split at found
    · rename_i same
      cases found
      rw [tellAll_id, known_id]
      exact Std.LawfulEqCmp.eq_of_compare same
    · exact named.own id record found
  · intro id
    rw [Entry.learn, Table.get?_insert, List.mem_append, List.mem_singleton]
    split
    · rename_i same
      have eq := (Std.LawfulEqCmp.eq_of_compare same).symm
      exact ⟨fun _ => Or.inr eq, fun _ => ⟨_, rfl⟩⟩
    · rename_i other
      rw [named.keys id]
      refine ⟨Or.inl, fun member => member.resolve_right ?_⟩
      rintro rfl
      exact other Std.ReflCmp.compare_self

theorem Named.learnAll {commits : Table String BlameCommit} {ids : List String}
    (named : Named commits ids) (entries : List Entry) :
    Named (entries.foldl Entry.learn commits) (ids ++ entries.map (·.head.id)) := by
  induction entries generalizing commits ids with
  | nil => simpa using named
  | cons entry entries ih => simpa using ih (named.learn entry)

/-- The commits of a blame that records give are those of its lines. -/
theorem named_blameOf (entries : List Entry) :
    Named (blameOf entries).commits ((blameOf entries).lines.map (·.commit)) := by
  have nothing : Named ∅ [] := ⟨fun _ _ found => (nomatch found), fun _ => by
    constructor
    · rintro ⟨_, ⟨⟩⟩
    · exact fun none => absurd none List.not_mem_nil⟩
  have all := nothing.learnAll entries
  simpa [blameOf, Entry.line, Header.line, Function.comp_def] using all

/-- What stands behind a tab is a part of its line. -/
theorem Layout.mem_of_content {text : List (List Char)} {entries : List Entry}
    (layout : Layout text entries) : ∀ entry ∈ entries, '\t' :: entry.content ∈ text := by
  induction layout with
  | done => exact fun _ none => absurd none List.not_mem_nil
  | blank _ _ ih => exact fun entry member => List.mem_cons_of_mem _ (ih entry member)
  | record _ _ _ ih =>
      refine List.forall_mem_cons.2 ⟨by simp, fun entry member => ?_⟩
      simp [ih entry member]

/-- **Records are kept apart.**  A text with a record that is cut short is refused, unless a
record runs on.  The texts that are read are those that are laid out in records.  Each of these
gives a line under the commit of its header; no other header stands in front of the line, unless a
record runs on.  The commits that are told of are those of the lines, each under its own id. -/
theorem records_kept_apart (output : String) :
    (CutShort (linesOf output) → ¬RunsOn (linesOf output) → Refused output) ∧
    ((∃ blame, parse output = .ok blame) ↔ ∃ entries, Layout (linesOf output) entries) ∧
    ∀ blame, parse output = .ok blame →
      (∃ entries, Layout (linesOf output) entries ∧ blame.lines = entries.map Entry.line ∧
        (¬RunsOn (linesOf output) → ∀ entry ∈ entries, ∀ line ∈ entry.told, ¬IsHeader line)) ∧
      (∀ id, id ∈ blame.commits.keys ↔ id ∈ blame.lines.map (·.commit)) ∧
      (∀ id record, blame.commits.get? id = some record → record.id = id) ∧
      ∀ line ∈ blame.lines, '\n' ∉ line.context.toList := by
  refine ⟨fun cutShort notOn => ?_, ?_, fun blame parsed => ?_⟩
  · apply refused_of_not_ok
    intro blame parsed
    obtain ⟨entries, layout, -⟩ := parse_eq_ok_iff.1 parsed
    exact notOn (layout.runsOn cutShort)
  · constructor
    · rintro ⟨blame, parsed⟩
      obtain ⟨entries, layout, -⟩ := parse_eq_ok_iff.1 parsed
      exact ⟨entries, layout⟩
    · rintro ⟨entries, layout⟩
      exact ⟨_, parse_eq_ok_iff.2 ⟨entries, layout, rfl⟩⟩
  · obtain ⟨entries, layout, rfl⟩ := parse_eq_ok_iff.1 parsed
    have named := named_blameOf entries
    refine ⟨⟨entries, layout, rfl, layout.told_noHeader⟩, fun id => ?_, named.own, ?_⟩
    · rw [Table.mem_keys, named.keys]
    · intro line member
      obtain ⟨entry, inside, rfl⟩ := List.mem_map.1 member
      have flat := Pieces.not_mem_of_mem_split (layout.mem_of_content entry inside)
      rw [Entry.line, Header.line, String.toList_ofList]
      exact fun newline => flat (List.mem_cons_of_mem _ newline)

/-- Where only the first line can be a header, no record runs on. -/
theorem not_runsOn {line : List Char} {text : List (List Char)}
    (none : ∀ later ∈ text, ¬IsHeader later) : ¬RunsOn (line :: text) := by
  rintro ⟨front, entries, first, told, later, rest, shape, -, -, -, isLater⟩
  refine none later ?_ isLater
  cases front with
  | nil =>
      obtain ⟨-, rfl⟩ := List.cons_eq_cons.1 shape
      simp
  | cons own front =>
      obtain ⟨-, rfl⟩ := List.cons_eq_cons.1 shape
      simp

namespace CutOff

/-- A record without its tab line, at the end of a text. -/
def atEnd : String :=
  "1111111111111111111111111111111111111111 1 1 1\nauthor x\n"

/-- The same, with a record of another commit behind it. -/
def within : String :=
  "1111111111111111111111111111111111111111 1 1\n" ++
  "2222222222222222222222222222222222222222 2 2\n\tx\n"

theorem linesOf_atEnd : linesOf atEnd =
    ["1111111111111111111111111111111111111111 1 1 1".toList, "author x".toList, []] := by
  decide +kernel

theorem linesOf_within : linesOf within =
    ["1111111111111111111111111111111111111111 1 1".toList,
      "2222222222222222222222222222222222222222 2 2".toList, "\tx".toList, []] := by
  decide +kernel

theorem cutShort_atEnd : CutShort (linesOf atEnd) := by
  rw [linesOf_atEnd]
  refine ⟨[], _, _, rfl, by decide +kernel, ?_⟩
  rintro ⟨told, content, rest, shape, -⟩
  have noTab : ∀ line ∈ ["author x".toList, []], line.head? ≠ some '\t' := by decide
  exact noTab ('\t' :: content) (shape ▸ by simp) rfl

theorem not_runsOn_atEnd : ¬RunsOn (linesOf atEnd) := by
  rw [linesOf_atEnd]
  exact not_runsOn (by decide +kernel)

/-- The record is cut short by the header behind it. -/
theorem cutShort_within : CutShort (linesOf within) := by
  rw [linesOf_within]
  refine ⟨[], _, _, rfl, by decide +kernel, ?_⟩
  rintro ⟨told, content, rest, shape, noHeader⟩
  cases told with
  | nil => exact absurd (List.cons_eq_cons.1 shape).1 (by simp)
  | cons later told =>
      obtain ⟨rfl, -⟩ := List.cons_eq_cons.1 shape
      exact noHeader _ List.mem_cons_self (by decide +kernel)

/-- The one record that is read: the second header is a line of its details. -/
def entry : Entry where
  head := ⟨"1111111111111111111111111111111111111111", 1, 1⟩
  told := ["2222222222222222222222222222222222222222 2 2".toList]
  content := ['x']

theorem layout_within : Layout (linesOf within) [entry] := by
  have isHeader : header "1111111111111111111111111111111111111111 1 1".toList = .ok entry.head :=
    @header_headerLine "1111111111111111111111111111111111111111" 1 1 [] (by decide) (by decide)
      (by decide) (by simp)
  have noTab : ∀ line ∈ entry.told, line.head? ≠ some '\t' := by decide +kernel
  have behind : Layout [[]] [] := .blank (by decide) .done
  rw [linesOf_within]
  exact .record isHeader noTab behind

end CutOff

/-- A record that is cut short at the end of a text is refused.  In the middle it runs on: the
line of the other commit is read as a line of the first one, and nothing is told of the other. -/
theorem next_header_passed_over :
    (CutShort (linesOf CutOff.atEnd) ∧ ¬RunsOn (linesOf CutOff.atEnd) ∧ Refused CutOff.atEnd) ∧
    CutShort (linesOf CutOff.within) ∧ RunsOn (linesOf CutOff.within) ∧
    ∃ blame, parse CutOff.within = .ok blame ∧
      blame.lines = [⟨"1111111111111111111111111111111111111111", "x", 1, 1, false⟩] ∧
      ∀ id, id ∈ blame.commits.keys ↔ id = "1111111111111111111111111111111111111111" := by
  refine ⟨⟨CutOff.cutShort_atEnd, CutOff.not_runsOn_atEnd,
    (records_kept_apart CutOff.atEnd).1 CutOff.cutShort_atEnd CutOff.not_runsOn_atEnd⟩,
    CutOff.cutShort_within, ?_, ?_⟩
  · exact CutOff.layout_within.runsOn CutOff.cutShort_within
  · have read : parse CutOff.within = .ok (blameOf [CutOff.entry]) :=
      parse_eq_ok_iff.2 ⟨_, CutOff.layout_within, rfl⟩
    have keys := ((records_kept_apart CutOff.within).2.2 _ read).2.1
    exact ⟨_, read, rfl, fun id => (keys id).trans List.mem_singleton⟩

end TokenBlame.Porcelain
