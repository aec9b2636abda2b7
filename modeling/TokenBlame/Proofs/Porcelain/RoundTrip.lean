/-
# TokenBlame.Proofs.Porcelain.RoundTrip -- a blame that is printed and read again

`Prints blame text` says that a text is a blame in the line-by-line format: a record for each
line in their order, the details of a commit where it has its first line, and lines with other
keys anywhere in the records.  `print` writes one such text (`prints_print`).

Every such text is read as the blame (`blame_read_back`): the same lines in the same order, for
each commit that has a line what was known of it, and nothing of any other commit.  The
induction is on the records.  What it carries is that the reader knows the commits of the records
it has read and no others (`Holds`), so that details which were told with an earlier line are
there when the commit comes again.
-/
import TokenBlame.Proofs.Porcelain.Details
import TokenBlame.Proofs.Text.Pieces

set_option autoImplicit false

namespace TokenBlame.Porcelain

/-! ## The format -/

/-- What a record tells of its commit: the details where the commit comes first, and after that
nothing. -/
inductive Told (commits : Table String BlameCommit) (before : List String) (id : String) :
    List (List Char) → Prop
  | first (name : String) {record : BlameCommit} {told : List (List Char)} :
      id ∉ before → commits.get? id = some record → IsTail name.toList →
      Interspersed (details (withName record name)) told → Told commits before id told
  | again {told : List (List Char)} :
      id ∈ before → Interspersed [] told → Told commits before id told

/-- The lines of a text that has a record for each line of a blame; the commits in `before` have
had lines. -/
inductive Written (commits : Table String BlameCommit) :
    List String → List BlameLine → List (List Char) → Prop
  | done {before : List String} : Written commits before [] []
  | record {before : List String} {line : BlameLine} {lines : List BlameLine}
      {tail : List Char} {told text : List (List Char)} :
      IsTail tail → Told commits before line.commit told →
      Written commits (line.commit :: before) lines text →
      Written commits before (line :: lines)
        (headerLine line.commit line.numberThen line.numberNow tail :: told ++
          ['\t' :: line.context.toList] ++ text)

/-- A text is a blame in the line-by-line format. -/
def Prints (blame : Blame) (text : String) : Prop :=
  ∃ lines, Written blame.commits [] blame.lines lines ∧
    text.toList = lines.flatMap fun line => line ++ ['\n']

/-- A blame that can be printed: ids are ids, numbers are numbers of 32 bits, and nothing that
stands on a line has a newline. -/
structure Printable (blame : Blame) : Prop where
  ids : ∀ line ∈ blame.lines, IsCommitId line.commit
  contexts : ∀ line ∈ blame.lines, '\n' ∉ line.context.toList
  numbers : ∀ line ∈ blame.lines,
    line.numberThen ≤ Numeral.maxWord32 ∧ line.numberNow ≤ Numeral.maxWord32
  /-- The commit of a line is described, under its own id. -/
  records : ∀ line ∈ blame.lines, ∃ record, blame.commits.get? line.commit = some record ∧
    record.id = line.commit ∧ Tellable record

theorem Printable.tail {line : BlameLine} {lines : List BlameLine}
    {commits : Table String BlameCommit} (printable : Printable ⟨line :: lines, commits⟩) :
    Printable ⟨lines, commits⟩ where
  ids other member := printable.ids other (List.mem_cons_of_mem _ member)
  contexts other member := printable.contexts other (List.mem_cons_of_mem _ member)
  numbers other member := printable.numbers other (List.mem_cons_of_mem _ member)
  records other member := printable.records other (List.mem_cons_of_mem _ member)

/-- What the format tells of a blame: its lines, of which it does not say whether they were
modified, and the commits of its lines. -/
def asTold (blame : Blame) : Blame :=
  { lines := blame.lines.map fun line => { line with modified := false }
    commits := blame.commits.filter fun id _ => (blame.lines.map (·.commit)).contains id }

/-! ## What is printed -/

theorem written_recordsFrom {commits : Table String BlameCommit} {before : List String}
    {lines : List BlameLine}
    (described : ∀ line ∈ lines, (commits.get? line.commit).isSome) :
    Written commits before lines ((recordsFrom commits before lines).map String.toList) := by
  induction lines generalizing before with
  | nil => exact .done
  | cons line lines ih =>
      have others : ∀ other ∈ lines, (commits.get? other.commit).isSome := fun other member =>
        described other (List.mem_cons_of_mem _ member)
      have noTail : IsTail [] := ⟨List.not_mem_nil, by simp⟩
      obtain ⟨record, own⟩ := Option.isSome_iff_exists.1 (described line List.mem_cons_self)
      have header : (line.commit ++ " " ++ toString line.numberThen ++ " " ++
          toString line.numberNow).toList =
          headerLine line.commit line.numberThen line.numberNow [] := by
        rw [headerLine, List.append_nil]
      have context : ("\t" ++ line.context).toList = '\t' :: line.context.toList := by simp
      rw [recordsFrom, Porcelain.record, own, List.map_append, List.map_append, List.map_cons,
        List.map_singleton, header, context]
      refine .record noTail ?_ (ih others)
      by_cases known : line.commit ∈ before
      · rw [if_pos (by simpa using known)]
        exact .again known .done
      · rw [if_neg (by simpa using known), Option.map_some, Option.getD_some]
        have unnamed : withName record "" = record := by
          unfold withName
          cases record with
          | mk id author authorMail authorTime authorZone committer committerMail committerTime
              committerZone summary boundary previous filename =>
            cases previous <;> simp
        refine .first "" known own noTail ?_
        rw [unnamed]
        exact .of_details _

/-- The printer writes the format. -/
theorem prints_print {blame : Blame} (printable : Printable blame) :
    Prints blame (print blame) := by
  refine ⟨_, written_recordsFrom fun line member => ?_, ?_⟩
  · obtain ⟨record, own, -⟩ := printable.records line member
    rw [own]
    rfl
  · simp [print, String.toList_join, List.flatMap_map]

/-! ## Reading what was printed -/

section Reading

variable {commits : Table String BlameCommit}

/-- The reader knows of exactly the commits in `before`, and of each what is told of it. -/
structure Holds (commits : Table String BlameCommit) (before : List String)
    (found : Table String BlameCommit) : Prop where
  own : ∀ id ∈ before, ∃ record, commits.get? id = some record ∧ found.get? id = some record
  others : ∀ id, id ∉ before → found.get? id = none

theorem holds_nothing : Holds commits [] ∅ where
  own _ member := absurd member List.not_mem_nil
  others _ _ := rfl

/-- What a record tells brings the reader to what there is to know of its commit. -/
theorem Holds.after_record {before : List String} {found : Table String BlameCommit}
    (holds : Holds commits before found) {id : String} {told : List (List Char)}
    (isTold : Told commits before id told)
    (described : ∃ record, commits.get? id = some record ∧ record.id = id ∧ Tellable record) :
    Holds commits (id :: before) (found.insert id (tellAll (known found id) told)) := by
  obtain ⟨record, own, sameId, tellable⟩ := described
  have complete : tellAll (known found id) told = record := by
    cases isTold with
    | first _ new isRecord isName interspersed =>
        obtain rfl := Option.some.inj (own.symm.trans isRecord)
        have nothing : known found id = { id := record.id } := by
          rw [known, holds.others id new, sameId]
          rfl
        rw [tellAll_interspersed interspersed, nothing, tellAll_details tellable isName]
    | again old interspersed =>
        obtain ⟨record', isRecord, isFound⟩ := holds.own id old
        obtain rfl := Option.some.inj (own.symm.trans isRecord)
        rw [tellAll_interspersed interspersed, known, isFound]
        rfl
  rw [complete]
  constructor
  · intro other member
    rw [Table.get?_insert]
    by_cases same : other = id
    · subst same
      exact ⟨record, own, if_pos Std.ReflCmp.compare_self⟩
    · rw [if_neg fun eq => same (Std.LawfulEqCmp.eq_of_compare eq).symm]
      exact holds.own other ((List.mem_cons.1 member).resolve_left same)
  · intro other away
    rw [List.mem_cons, not_or] at away
    rw [Table.get?_insert, if_neg fun eq => away.1 (Std.LawfulEqCmp.eq_of_compare eq).symm]
    exact holds.others other away.2

theorem Told.noTab {before : List String} {id : String} {told : List (List Char)}
    (isTold : Told commits before id told) : ∀ line ∈ told, line.head? ≠ some '\t' := by
  cases isTold with
  | first _ _ _ _ interspersed => exact interspersed.noTab
  | again _ interspersed =>
      intro line member
      rcases interspersed.mem member with idle | ⟨_, none, _⟩
      · exact idle.noTab
      · cases none

theorem Told.flat {before : List String} {id : String} {told : List (List Char)}
    (isTold : Told commits before id told)
    (described : ∃ record, commits.get? id = some record ∧ record.id = id ∧ Tellable record) :
    ∀ line ∈ told, '\n' ∉ line := by
  cases isTold with
  | first _ _ isRecord isName interspersed =>
      obtain ⟨record, own, -, tellable⟩ := described
      obtain rfl := Option.some.inj (own.symm.trans isRecord)
      exact interspersed.flat tellable isName
  | again _ interspersed =>
      intro line member
      rcases interspersed.mem member with idle | ⟨_, none, _⟩
      · exact idle.flat
      · cases none

/-- A run of records is read: the lines come in front of those read before, and the reader knows
their commits. -/
theorem readLines_written {before : List String} {lines : List BlameLine}
    {text : List (List Char)} (written : Written commits before lines text)
    (printable : Printable ⟨lines, commits⟩) {found : Table String BlameCommit}
    (holds : Holds commits before found) (read : List BlameLine) :
    ∃ known, readLines ⟨none, read, found⟩ text =
        .ok ⟨none, (asTold ⟨lines, commits⟩).lines.reverse ++ read, known⟩ ∧
      Holds commits ((lines.map (·.commit)).reverse ++ before) known := by
  induction written generalizing found read with
  | done => exact ⟨found, rfl, holds⟩
  | @record before line lines tail told text isTail isTold _ ih =>
      have described := printable.records line List.mem_cons_self
      have numbers := printable.numbers line List.mem_cons_self
      have isHeader := header_headerLine (printable.ids line List.mem_cons_self) numbers.1
        numbers.2 isTail.blank
      have one := readLines_record read found isHeader isTold.noTab
        line.context.toList
      obtain ⟨known, rest, later⟩ := ih printable.tail (holds.after_record isTold described) _
      refine ⟨known, ?_, by simpa using later⟩
      rw [readLines_append one, rest]
      simp [asTold, Header.line]

theorem Written.flat {before : List String} {lines : List BlameLine} {text : List (List Char)}
    (written : Written commits before lines text) (printable : Printable ⟨lines, commits⟩) :
    ∀ line ∈ text, '\n' ∉ line := by
  induction written with
  | done => exact fun line member => absurd member List.not_mem_nil
  | @record before line lines tail told text isTail isTold _ ih =>
      have rest := ih printable.tail
      have inContext : '\n' ∉ '\t' :: line.context.toList := by
        rw [List.mem_cons, not_or]
        exact ⟨by decide, printable.contexts line List.mem_cons_self⟩
      intro one member
      simp only [List.mem_append, List.mem_cons, List.not_mem_nil, or_false] at member
      rcases member with ((rfl | inTold) | rfl) | later
      · exact flat_headerLine (printable.ids line List.mem_cons_self) isTail.flat
      · exact isTold.flat (printable.records line List.mem_cons_self) one inTold
      · exact inContext
      · exact rest one later

/-- Of the commits that a reader knows, those of the lines are told. -/
theorem Holds.eq_asTold {blame : Blame} {found : Table String BlameCommit}
    (holds : Holds blame.commits ((blame.lines.map (·.commit)).reverse ++ []) found) :
    found = (asTold blame).commits := by
  apply Table.ext_get?
  intro id
  rw [asTold, Table.get?_filter]
  by_cases own : id ∈ blame.lines.map (·.commit)
  · obtain ⟨record, isRecord, isFound⟩ := holds.own id (by simpa using own)
    rw [isRecord, isFound, Option.filter_some_pos]
    simpa using own
  · rw [holds.others id (by simpa using own)]
    cases blame.commits.get? id with
    | none => rfl
    | some record =>
        rw [Option.filter_some_neg]
        simpa using own

end Reading

/-- A printed blame is read. -/
theorem parse_of_prints {blame : Blame} (printable : Printable blame) {text : String}
    (prints : Prints blame text) : parse text = .ok (asTold blame) := by
  obtain ⟨lines, written, chars⟩ := prints
  obtain ⟨known, read, holds⟩ := readLines_written written printable holds_nothing []
  have cut : Pieces.split '\n' text.toList = lines ++ [[]] := by
    rw [chars]
    exact Pieces.split_ended (written.flat printable)
  have initial : ({} : Reader) = ⟨none, [], ∅⟩ := rfl
  unfold parse
  rw [cut, initial, readLines_append read]
  -- behind the last newline stands a blank line
  show Reader.finish ⟨none, _, known⟩ = _
  rw [Reader.finish, holds.eq_asTold]
  simp

/-- **A blame is read back** from any text in the line-by-line format that is printed of it, be
it by `print` or with other keys in it: the same lines in order, of each commit that has a line
the same record, and no other records. -/
theorem blame_read_back {blame : Blame} (printable : Printable blame) :
    Prints blame (print blame) ∧
    ∀ text, Prints blame text → ∃ read, parse text = .ok read ∧
      read.lines = blame.lines.map (fun line => { line with modified := false }) ∧
      ((∀ line ∈ blame.lines, line.modified = false) → read.lines = blame.lines) ∧
      (∀ line ∈ blame.lines, read.commits.get? line.commit = blame.commits.get? line.commit) ∧
      ∀ id, id ∉ blame.lines.map (·.commit) → read.commits.get? id = none := by
  refine ⟨prints_print printable, fun text prints =>
    ⟨asTold blame, parse_of_prints printable prints, rfl, ?_, ?_, ?_⟩⟩
  · intro unmodified
    have same : ∀ line ∈ blame.lines, ({ line with modified := false } : BlameLine) = line := by
      intro line member
      rw [← unmodified line member]
    exact (List.map_congr_left same).trans (List.map_id' _)
  · intro line member
    obtain ⟨record, own, -⟩ := printable.records line member
    rw [asTold, Table.get?_filter, own]
    simpa using ⟨line, member, rfl⟩
  · intro id away
    rw [asTold, Table.get?_filter]
    cases blame.commits.get? id with
    | none => rfl
    | some record => simpa using away

namespace Interleaved

/-- A commit where the history ends. -/
def first : BlameCommit :=
  { id := "1111111111111111111111111111111111111111", author := some "", authorTime := some (-5),
    summary := some "one  two", boundary := true, filename := some "f" }

/-- A commit behind it, with a longer id. -/
def second : BlameCommit :=
  { id := "ABCDEFabcdefABCDEFabcdefABCDEFabcdefABCDEF012", previous := some first.id,
    committerZone := some "+0100", filename := some "f g" }

/-- Lines of two commits by turns: an empty one, one that begins with a tab, and a blank one. -/
def blame : Blame :=
  { lines := [⟨first.id, "", 1, 1, false⟩, ⟨second.id, "\tx ", 7, 2, false⟩,
      ⟨first.id, " ", 2, 3, false⟩]
    commits := Table.ofList
      [(first.id, first), (second.id, second), ("unmentioned", { id := "x" })] }

/-- The lines of the blame in the line-by-line format, with keys and lines that tell nothing. -/
def rows : List String :=
  ["1111111111111111111111111111111111111111 1 1 1", "author ", "author-time -5",
    "encoding utf-8", "summary one  two", "boundary", "filename f", "\t",
    "ABCDEFabcdefABCDEFabcdefABCDEFabcdefABCDEF012 7 2 1", "committer-tz +0100", "",
    "previous 1111111111111111111111111111111111111111 f", "filename f g", "\t\tx ",
    "1111111111111111111111111111111111111111 2 3", "authors", "\t "]

def text : String :=
  String.join (rows.map (· ++ "\n"))

theorem printable : Printable blame where
  ids := by decide
  contexts := by decide
  numbers := by decide
  records := by
    have one : Tellable first :=
      { flat := by decide +kernel, authorTime := by simp [first]; decide
        committerTime := by simp [first], previous := by simp [first] }
    have isId : IsCommitId first.id := by decide
    have word : first.id.toList ≠ [] ∧ ∀ c ∈ first.id.toList, Blank.isBlank c = false :=
      ⟨by decide, fun c member => Numeral.not_isBlank_of_isHex (List.all_eq_true.1 isId.2 c member)⟩
    have two : Tellable second :=
      { flat := by decide +kernel, authorTime := by simp [second]
        committerTime := by simp [second], previous := by rintro id ⟨⟩; exact word }
    have ofFirst : blame.commits.get? first.id = some first := by decide +kernel
    have ofSecond : blame.commits.get? second.id = some second := by decide +kernel
    simp only [blame, List.forall_mem_cons]
    exact ⟨⟨first, ofFirst, rfl, one⟩, ⟨second, ofSecond, rfl, two⟩, ⟨first, ofFirst, rfl, one⟩,
      fun _ none => absurd none List.not_mem_nil⟩

theorem prints : Prints blame text := by
  have tail : IsTail " 1".toList := ⟨by decide, by rintro c ⟨⟩; rfl⟩
  have noTail : IsTail [] := ⟨List.not_mem_nil, by simp⟩
  have name : IsTail " f".toList := ⟨by decide, by rintro c ⟨⟩; rfl⟩
  have ofFirst : Interspersed (details (withName first "")) ["author ".toList,
      "author-time -5".toList, "encoding utf-8".toList, "summary one  two".toList,
      "boundary".toList, "filename f".toList] := by
    have told : details (withName first "") =
        ["author ", "author-time -5", "summary one  two", "boundary", "filename f"] := by
      decide +kernel
    rw [told]
    exact .detail (.detail (.idle ⟨by decide, by decide, by decide⟩
      (.detail (.detail (.detail .done)))))
  have ofSecond : Interspersed (details (withName second " f")) ["committer-tz +0100".toList, [],
      "previous 1111111111111111111111111111111111111111 f".toList, "filename f g".toList] := by
    have told : details (withName second " f") = ["committer-tz +0100",
        "previous 1111111111111111111111111111111111111111 f", "filename f g"] := by
      decide +kernel
    rw [told]
    exact .detail (.idle ⟨by decide, by decide, by decide⟩ (.detail (.detail .done)))
  have later : Interspersed [] ["authors".toList] :=
    .idle ⟨by decide, by decide, by decide⟩ .done
  have headers :
      headerLine first.id 1 1 " 1".toList = rows[0].toList ∧
      headerLine second.id 7 2 " 1".toList = rows[8].toList ∧
      headerLine first.id 2 3 [] = rows[14].toList := by decide +kernel
  refine ⟨_, .record tail (.first "" (by decide) (by decide +kernel) noTail ofFirst)
    (.record tail (.first " f" (by decide) (by decide +kernel) name ofSecond)
      (.record noTail (.again (by decide) later) .done)), ?_⟩
  have chars : text.toList = (rows.map String.toList).flatMap fun line => line ++ ['\n'] := by
    simp [text, String.toList_join, List.flatMap_map]
  rw [chars, headers.1, headers.2.1, headers.2.2]
  rfl

end Interleaved

/-- Two commits by turns, the details of each told once, are read back. -/
theorem interleaved_commits_read_back :
    Printable Interleaved.blame ∧ ∃ read, parse Interleaved.text = .ok read ∧
      read.lines = Interleaved.blame.lines ∧
      read.commits.get? Interleaved.first.id = some Interleaved.first ∧
      read.commits.get? "unmentioned" = none := by
  obtain ⟨read, parsed, -, lines, own, others⟩ :=
    (blame_read_back Interleaved.printable).2 Interleaved.text Interleaved.prints
  refine ⟨Interleaved.printable, read, parsed, lines (by decide), ?_, others _ (by decide)⟩
  rw [own ⟨Interleaved.first.id, "", 1, 1, false⟩ List.mem_cons_self]
  decide +kernel

end TokenBlame.Porcelain
