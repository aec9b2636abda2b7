/-
# TokenBlame.Proofs.Porcelain.Records -- one record of the line-by-line format is read

A record is a header, lines that tell of its commit, and a tab with the line of the file.
`header_headerLine` says that the header that was written is the one that is read, whatever is
added behind its numbers.  `readLines_record` says what the whole record does to a reader that
stands between records: it knows one line more, and of the commit what it knew before and what
the record told, in this order.  No other commit is touched.
-/
import TokenBlame.Porcelain
import TokenBlame.Proofs.Text.Numeral
import TokenBlame.Proofs.Text.Words

set_option autoImplicit false

namespace TokenBlame.Porcelain

/-! ## Headers -/

/-- An id as it stands in a header: forty hexadecimal digits or more, of either case. -/
def IsCommitId (id : String) : Prop :=
  40 ≤ id.toList.length ∧ id.toList.all Numeral.isHex = true

instance (id : String) : Decidable (IsCommitId id) :=
  inferInstanceAs (Decidable (_ ∧ _))

/-- A header as it is written; `tail` may say how many lines the run has that begins here. -/
def headerLine (id : String) (numberThen numberNow : Nat) (tail : List Char) : List Char :=
  (id ++ " " ++ toString numberThen ++ " " ++ toString numberNow).toList ++ tail

section Header

variable {id : String} {numberThen numberNow : Nat} {tail : List Char}

theorem headerLine_eq :
    headerLine id numberThen numberNow tail =
      id.toList ++ ' ' :: ((toString numberThen).toList ++
        ' ' :: ((toString numberNow).toList ++ tail)) := by
  simp [headerLine]

/-- What is added stands apart from the numbers. -/
theorem words_headerLine (isId : IsCommitId id) (apart : ∀ c ∈ tail.head?, Blank.isBlank c = true) :
    Blank.words (headerLine id numberThen numberNow tail) =
      id.toList :: (toString numberThen).toList :: (toString numberNow).toList ::
        Blank.words tail := by
  have space : ∀ rest, ∀ c ∈ (' ' :: rest : List Char).head?, Blank.isBlank c = true := by
    rintro rest c ⟨⟩
    decide
  have some : id.toList ≠ [] := List.ne_nil_of_length_pos (Nat.lt_of_lt_of_le (by decide) isId.1)
  have visible : ∀ c ∈ id.toList, Blank.isBlank c = false := fun c member =>
    Numeral.not_isBlank_of_isHex (List.all_eq_true.1 isId.2 c member)
  rw [headerLine_eq, Blank.words_append some visible (space _), Blank.words_cons (by decide),
    Blank.words_append (Numeral.toString_ne_nil _) (fun _ => Numeral.not_isBlank_of_mem_toString)
      (space _), Blank.words_cons (by decide),
    Blank.words_append (Numeral.toString_ne_nil _) (fun _ => Numeral.not_isBlank_of_mem_toString)
      apart]

/-- **A header is read** as it was written. -/
theorem header_headerLine (isId : IsCommitId id) (thenFits : numberThen ≤ Numeral.maxWord32)
    (nowFits : numberNow ≤ Numeral.maxWord32) (apart : ∀ c ∈ tail.head?, Blank.isBlank c = true) :
    header (headerLine id numberThen numberNow tail) = .ok ⟨id, numberThen, numberNow⟩ := by
  have own : id? id.toList = some id := by
    have valid : (decide (40 ≤ id.toList.length) && id.toList.all Numeral.isHex) = true := by
      rw [Bool.and_eq_true, decide_eq_true_eq]
      exact isId
    rw [id?, if_pos (by simpa using valid), String.ofList_toList]
  unfold header
  rw [words_headerLine isId apart]
  simp only [List.getElem?_cons_zero, List.getElem?_cons_succ, Option.bind_some, own,
    Numeral.unsigned?_toString thenFits, Numeral.unsigned?_toString nowFits]

theorem flat_headerLine (isId : IsCommitId id) (flat : '\n' ∉ tail) :
    '\n' ∉ headerLine id numberThen numberNow tail := by
  have inId : '\n' ∉ id.toList := fun inside =>
    absurd (List.all_eq_true.1 isId.2 _ inside) (by decide)
  have inNumber : ∀ n : Nat, '\n' ∉ (toString n).toList := fun n inside =>
    absurd (Numeral.not_isBlank_of_mem_toString inside) (by decide)
  rw [headerLine_eq]
  simp only [List.mem_append, List.mem_cons, not_or]
  exact ⟨inId, by decide, inNumber _, by decide, inNumber _, flat⟩

end Header

/-- A header is not blank. -/
theorem words_ne_nil_of_header {line : List Char} {head : Header} (read : header line = .ok head) :
    Blank.words line ≠ [] := by
  intro none
  rw [header, none] at read
  cases read

/-! ## Records -/

/-- What is known of a commit, before anything is told of it if it is new. -/
def known (commits : Table String BlameCommit) (id : String) : BlameCommit :=
  (commits.get? id).getD { id := id }

/-- What is known of a commit after lines of its record. -/
def tellAll (record : BlameCommit) (told : List (List Char)) : BlameCommit :=
  told.foldl tell record

/-- The line of the file that a header and a tab line give. -/
def Header.line (head : Header) (content : List Char) : BlameLine :=
  { commit := head.id, context := String.ofList content, numberThen := head.numberThen,
    numberNow := head.numberNow }

theorem readLines_append {reader next : Reader} {front : List (List Char)}
    (read : readLines reader front = .ok next) (back : List (List Char)) :
    readLines reader (front ++ back) = readLines next back := by
  induction front generalizing reader with
  | nil =>
      cases read
      rfl
  | cons line front ih =>
      rw [List.cons_append, readLines]
      rw [readLines] at read
      cases step : reader.step line with
      | error error =>
          rw [step] at read
          cases read
      | ok middle =>
          rw [step] at read
          exact ih read

section Record

variable (lines : List BlameLine) {commits : Table String BlameCommit} {head : Header}

/-- Lines in front of the tab line tell of the commit, one after the other. -/
theorem readLines_told {record : BlameCommit} (own : commits.get? head.id = some record)
    {told : List (List Char)} (noTab : ∀ line ∈ told, line.head? ≠ some '\t') :
    readLines ⟨some head, lines, commits⟩ told =
      .ok ⟨some head, lines, commits.insert head.id (tellAll record told)⟩ := by
  induction told generalizing commits record with
  | nil =>
      rw [tellAll, List.foldl_nil, Table.insert_of_get? commits head.id own]
      rfl
  | cons line told ih =>
      have one : (⟨some head, lines, commits⟩ : Reader).inside head line =
          ⟨some head, lines, commits.insert head.id (tell record line)⟩ := by
        unfold Reader.inside
        split
        · exact absurd rfl (noTab _ List.mem_cons_self)
        · simp [own]
      have next : (commits.insert head.id (tell record line)).get? head.id =
          some (tell record line) := by
        rw [Table.get?_insert, if_pos (Std.ReflCmp.compare_self)]
      rw [readLines, Reader.step]
      dsimp only
      rw [one, ih next fun line member => noTab line (List.mem_cons_of_mem _ member),
        Table.insert_insert]
      rfl

theorem between_header {first : List Char} (isHeader : header first = .ok head) :
    (⟨none, lines, commits⟩ : Reader).between first =
      .ok ⟨some head, lines, Blame.remember commits { id := head.id }⟩ := by
  have visible : (Blank.trim first).isEmpty = false := by
    rw [← Bool.not_eq_true, List.isEmpty_iff, Blank.trim_eq_nil_iff]
    exact words_ne_nil_of_header isHeader
  rw [Reader.between, visible, isHeader]
  rfl

theorem get?_remember (commits : Table String BlameCommit) (id : String) :
    (Blame.remember commits { id := id }).get? id = some (known commits id) := by
  unfold Blame.remember known Table.contains
  cases found : commits.get? id with
  | some record =>
      dsimp only
      rw [Option.isSome_some, if_pos rfl, found, Option.getD_some]
  | none =>
      dsimp only
      rw [Option.isSome_none, if_neg (by simp), Table.get?_insert,
        if_pos (Std.ReflCmp.compare_self), Option.getD_none]

theorem insert_remember (commits : Table String BlameCommit) (id : String) (record : BlameCommit) :
    (Blame.remember commits { id := id }).insert id record = commits.insert id record := by
  unfold Blame.remember
  split
  · rfl
  · exact Table.insert_insert commits id _ record

variable (commits)

/-- **A record is read**: one line more, and more of its commit. -/
theorem readLines_record {first : List Char} (isHeader : header first = .ok head)
    {told : List (List Char)} (noTab : ∀ line ∈ told, line.head? ≠ some '\t')
    (content : List Char) :
    readLines ⟨none, lines, commits⟩ (first :: told ++ ['\t' :: content]) =
      .ok ⟨none, head.line content :: lines,
        commits.insert head.id (tellAll (known commits head.id) told)⟩ := by
  have opened : readLines ⟨none, lines, commits⟩ [first] =
      .ok ⟨some head, lines, Blame.remember commits { id := head.id }⟩ := by
    rw [readLines, Reader.step]
    dsimp only
    rw [between_header lines isHeader]
    rfl
  have told := readLines_told lines (get?_remember commits head.id) noTab
  rw [insert_remember] at told
  rw [List.cons_append, ← List.singleton_append, readLines_append opened, readLines_append told]
  rfl

end Record

end TokenBlame.Porcelain
