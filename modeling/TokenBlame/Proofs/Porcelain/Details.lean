/-
# TokenBlame.Proofs.Porcelain.Details -- what a record tells of its commit

The details of a commit are told a key at a time, and each key is that of one field.  So
whoever knows nothing of a commit and is told its details knows the commit
(`tellAll_details`): a field that is not told stays absent, a value may be empty or have spaces,
and of the line for the previous commit only the first word counts, since the name of the file
there stands behind it.

Lines with other keys may stand anywhere between the details and tell nothing
(`tellAll_interspersed`).
-/
import TokenBlame.Proofs.Porcelain.Records

set_option autoImplicit false

namespace TokenBlame.Porcelain

/-! ## One detail -/

theorem keyValue_detail {key : String} (plain : ' ' ∉ key.toList) (value : String) :
    keyValue (key ++ " " ++ value).toList = (key.toList, some value.toList) := by
  have stays : ∀ c ∈ key.toList, (c != ' ') = true := by
    intro c member
    rw [bne_iff_ne]
    rintro rfl
    exact plain member
  have chars : (key ++ " " ++ value).toList = key.toList ++ ' ' :: value.toList := by simp
  rw [keyValue, chars, List.takeWhile_append_of_pos stays, List.dropWhile_append_of_pos stays]
  simp

theorem tellAll_append (record : BlameCommit) (front back : List (List Char)) :
    tellAll record (front ++ back) = tellAll (tellAll record front) back :=
  List.foldl_append

/-- A detail that may be absent sets its field, or leaves it as it is. -/
theorem tellAll_detail {α : Type} (key : String) (plain : ' ' ∉ key.toList)
    (put : BlameCommit → Option α → BlameCommit) {write : α → String} {value : Option α}
    (keeps : ∀ known, put known none = known)
    (tells : ∀ known, ∀ v ∈ value, tellKey known key (some (write v).toList) = put known (some v))
    (known : BlameCommit) :
    tellAll known ((detail key (value.map write)).map String.toList) = put known value := by
  cases value with
  | none => exact (keeps known).symm
  | some v =>
      show tell known (key ++ " " ++ write v).toList = put known (some v)
      rw [tell, keyValue_detail plain, String.ofList_toList]
      exact tells known v rfl

/-- A detail that is a text. -/
theorem tellAll_text (key : String) (plain : ' ' ∉ key.toList)
    (put : BlameCommit → Option String → BlameCommit) (keeps : ∀ known, put known none = known)
    (tells : ∀ known value, tellKey known key (some value) = put known (some (String.ofList value)))
    (known : BlameCommit) (value : Option String) :
    tellAll known ((detail key value).map String.toList) = put known value := by
  have own : tellAll known ((detail key (value.map id)).map String.toList) = put known value :=
    tellAll_detail key plain put keeps (fun known v _ => by rw [tells, id, String.ofList_toList])
      known
  rwa [Option.map_id, id] at own

/-! ## All details -/

/-- The keys of the details. -/
def keys : List String :=
  ["author", "author-mail", "author-time", "author-tz", "committer", "committer-mail",
    "committer-time", "committer-tz", "summary", "boundary", "previous", "filename"]

theorem mem_detail {key line : String} {value : Option String} (member : line ∈ detail key value) :
    key.toList <+: line.toList := by
  cases value with
  | none => cases member
  | some value =>
      obtain rfl := List.mem_singleton.1 member
      rw [String.append_assoc, String.toList_append]
      exact List.prefix_append _ _

/-- Each detail begins with a key. -/
theorem mem_details {record : BlameCommit} {line : String} (member : line ∈ details record) :
    ∃ key ∈ keys, key.toList <+: line.toList := by
  have begins : ∀ {key : String} {value : Option String}, line ∈ detail key value → key ∈ keys →
      ∃ key ∈ keys, key.toList <+: line.toList :=
    fun {key _} inside own => ⟨key, own, mem_detail inside⟩
  simp only [details, List.mem_append] at member
  rcases member with ((((((((((author | mail) | time) | zone) | committer) | committerMail) |
    committerTime) | committerZone) | summary) | boundary) | previous) | filename
  case inl.inl.inr =>
    split at boundary
    · obtain rfl := List.mem_singleton.1 boundary
      exact ⟨"boundary", by decide, List.prefix_rfl⟩
    · cases boundary
  all_goals exact begins ‹line ∈ detail _ _› (by decide)

/-- A record whose details can be told, each on a line. -/
structure Tellable (record : BlameCommit) : Prop where
  /-- No value has a newline. -/
  flat : ∀ line ∈ details record, '\n' ∉ line.toList
  authorTime : ∀ time ∈ record.authorTime, Numeral.range64.1 ≤ time ∧ time ≤ Numeral.range64.2
  committerTime : ∀ time ∈ record.committerTime,
    Numeral.range64.1 ≤ time ∧ time ≤ Numeral.range64.2
  /-- The previous commit is named by a word. -/
  previous : ∀ id ∈ record.previous, id.toList ≠ [] ∧ ∀ c ∈ id.toList, Blank.isBlank c = false

/-- What may stand behind a word on its line: nothing, or a space and more. -/
structure IsTail (tail : List Char) : Prop where
  flat : '\n' ∉ tail
  apart : ∀ c ∈ tail.head?, c = ' '

theorem IsTail.blank {tail : List Char} (isTail : IsTail tail) :
    ∀ c ∈ tail.head?, Blank.isBlank c = true := by
  intro c first
  rw [isTail.apart c first]
  decide

/-- A record as it is told: the name of the file in the previous commit stands behind that
commit. -/
def withName (record : BlameCommit) (name : String) : BlameCommit :=
  { record with previous := record.previous.map (· ++ name) }

theorem mem_details_withName {record : BlameCommit} {name line : String}
    (member : line ∈ details (withName record name)) :
    line ∈ details record ∨
      ∃ id ∈ record.previous, line = "previous" ++ " " ++ (id ++ name) := by
  unfold details withName at member
  unfold details
  simp only [List.mem_append] at member ⊢
  cases own : record.previous with
  | none =>
      rw [own] at member
      exact Or.inl member
  | some id =>
      rw [own] at member
      by_cases here : line ∈ detail "previous" (some (id ++ name))
      · exact Or.inr ⟨id, rfl, List.mem_singleton.1 here⟩
      · left
        rw [Option.map_some] at member
        rcases member with (front | previous) | filename
        · exact Or.inl (Or.inl front)
        · exact absurd previous here
        · exact Or.inr filename

/-- A time is read as it was written. -/
theorem time_of_told {value : Option Int}
    (inside : ∀ t ∈ value, Numeral.range64.1 ≤ t ∧ t ≤ Numeral.range64.2) :
    ∀ t ∈ value, (some (toString t).toList).bind Numeral.signed64? = some t :=
  fun t told => Numeral.signed64?_toString (inside t told).1 (inside t told).2

/-- Of the line for the previous commit the first word counts. -/
theorem tellKey_previous {record : BlameCommit} (tellable : Tellable record) {name : String}
    (isName : IsTail name.toList) (known : BlameCommit) :
    ∀ id ∈ record.previous,
      tellKey known "previous" (some (id ++ name).toList) = { known with previous := some id } := by
  intro id told
  obtain ⟨some, visible⟩ := tellable.previous id told
  have words := Blank.words_append some visible isName.blank
  simp [tellKey, words]

theorem tellAll_boundary (boundary : Bool) (known : BlameCommit) :
    tellAll known ((if boundary then ["boundary"] else []).map String.toList) =
      { known with boundary := boundary || known.boundary } := by
  cases boundary <;> rfl

/-- Whoever is told all details of a commit knows the commit. -/
theorem tellAll_details {record : BlameCommit} (tellable : Tellable record) {name : String}
    (isName : IsTail name.toList) :
    tellAll { id := record.id } ((details (withName record name)).map String.toList) = record := by
  unfold details withName
  simp only [List.map_append, tellAll_append]
  rw [tellAll_text "author" (by decide)
      (fun known value => { known with author := value.or known.author })
      (fun _ => rfl) (fun _ _ => rfl),
    tellAll_text "author-mail" (by decide)
      (fun known value => { known with authorMail := value.or known.authorMail })
      (fun _ => rfl) (fun _ _ => rfl),
    tellAll_detail "author-time" (by decide)
      (fun known value => { known with authorTime := value.or known.authorTime })
      (fun _ => rfl)
      (fun _ t told => by rw [tellKey, time_of_told tellable.authorTime t told, Option.some_or]),
    tellAll_text "author-tz" (by decide)
      (fun known value => { known with authorZone := value.or known.authorZone })
      (fun _ => rfl) (fun _ _ => rfl),
    tellAll_text "committer" (by decide)
      (fun known value => { known with committer := value.or known.committer })
      (fun _ => rfl) (fun _ _ => rfl),
    tellAll_text "committer-mail" (by decide)
      (fun known value => { known with committerMail := value.or known.committerMail })
      (fun _ => rfl) (fun _ _ => rfl),
    tellAll_detail "committer-time" (by decide)
      (fun known value => { known with committerTime := value.or known.committerTime })
      (fun _ => rfl)
      (fun _ t told => by
        rw [tellKey, time_of_told tellable.committerTime t told, Option.some_or]),
    tellAll_text "committer-tz" (by decide)
      (fun known value => { known with committerZone := value.or known.committerZone })
      (fun _ => rfl) (fun _ _ => rfl),
    tellAll_text "summary" (by decide)
      (fun known value => { known with summary := value.or known.summary })
      (fun _ => rfl) (fun _ _ => rfl),
    tellAll_boundary,
    tellAll_detail "previous" (by decide)
      (fun known value => { known with previous := value.or known.previous })
      (fun _ => rfl) (tellKey_previous tellable isName),
    tellAll_text "filename" (by decide)
      (fun known value => { known with filename := value.or known.filename })
      (fun _ => rfl) (fun _ _ => rfl)]
  simp

/-! ## Lines that tell nothing -/

/-- A line with another key. -/
structure IsIdle (line : List Char) : Prop where
  flat : '\n' ∉ line
  noTab : line.head? ≠ some '\t'
  other : String.ofList (line.takeWhile (· != ' ')) ∉ keys

theorem tell_idle {line : List Char} (idle : IsIdle line) (known : BlameCommit) :
    tell known line = known := by
  have other := idle.other
  unfold tell tellKey keyValue
  dsimp only
  split
  case h_13 => rfl
  all_goals
    rename_i same
    rw [same] at other
    exact absurd (by decide) other

/-- Details in their order, with lines that tell nothing anywhere between them. -/
inductive Interspersed : List String → List (List Char) → Prop
  | done : Interspersed [] []
  | idle {line : List Char} {details : List String} {told : List (List Char)} :
      IsIdle line → Interspersed details told → Interspersed details (line :: told)
  | detail {line : String} {details : List String} {told : List (List Char)} :
      Interspersed details told → Interspersed (line :: details) (line.toList :: told)

theorem tellAll_interspersed {details : List String} {told : List (List Char)}
    (interspersed : Interspersed details told) (known : BlameCommit) :
    tellAll known told = tellAll known (details.map String.toList) := by
  induction interspersed generalizing known with
  | done => rfl
  | idle idle _ ih =>
      unfold tellAll at ih ⊢
      rw [List.foldl_cons, tell_idle idle, ih]
  | detail _ ih => exact ih _

theorem Interspersed.mem {details : List String} {told : List (List Char)}
    (interspersed : Interspersed details told) {line : List Char} (member : line ∈ told) :
    IsIdle line ∨ ∃ entry ∈ details, line = entry.toList := by
  induction interspersed with
  | done => cases member
  | idle idle _ ih =>
      rcases List.mem_cons.1 member with rfl | later
      · exact Or.inl idle
      · exact ih later
  | detail _ ih =>
      rcases List.mem_cons.1 member with rfl | later
      · exact Or.inr ⟨_, List.mem_cons_self, rfl⟩
      · exact (ih later).imp_right fun ⟨entry, own, same⟩ =>
          ⟨entry, List.mem_cons_of_mem _ own, same⟩

/-- No line that tells of a commit has a tab in front. -/
theorem Interspersed.noTab {record : BlameCommit} {told : List (List Char)}
    (interspersed : Interspersed (details record) told) :
    ∀ line ∈ told, line.head? ≠ some '\t' := by
  intro line member
  rcases interspersed.mem member with idle | ⟨entry, own, rfl⟩
  · exact idle.noTab
  · have visible : ∀ key ∈ keys, key.toList ≠ [] ∧ key.toList.head? ≠ some '\t' := by decide
    obtain ⟨key, isKey, behind, begins⟩ := mem_details own
    obtain ⟨some, noTab⟩ := visible key isKey
    obtain ⟨c, rest, shape⟩ := List.exists_cons_of_ne_nil some
    rw [shape] at begins noTab
    rwa [← begins]

/-- No line that tells of a commit has a newline. -/
theorem Interspersed.flat {record : BlameCommit} (tellable : Tellable record) {name : String}
    (isName : IsTail name.toList) {told : List (List Char)}
    (interspersed : Interspersed (details (withName record name)) told) :
    ∀ line ∈ told, '\n' ∉ line := by
  intro line member
  rcases interspersed.mem member with idle | ⟨entry, own, rfl⟩
  · exact idle.flat
  · rcases mem_details_withName own with own | ⟨id, isPrevious, rfl⟩
    · exact tellable.flat entry own
    · have inId : '\n' ∉ id.toList := fun inside =>
        absurd ((tellable.previous id isPrevious).2 _ inside) (by decide)
      have inKey : '\n' ∉ "previous".toList ++ " ".toList := by decide
      simp only [String.toList_append, List.mem_append, not_or] at inKey ⊢
      exact ⟨inKey, inId, isName.flat⟩

theorem Interspersed.of_details (details : List String) :
    Interspersed details (details.map String.toList) := by
  induction details with
  | nil => exact .done
  | cons line details ih => exact .detail ih

end TokenBlame.Porcelain
