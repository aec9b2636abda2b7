/-
# TokenBlame.Proofs.SourceCommit -- commits that are written and read again

Many documents tell the same commit: its fields stand in any order among members that nobody
knows, or in an array, several copies go to one path, and an empty list of unreadable paths may
be left out (`Tells`).  Each of them is read as the commit (`Tells.ofJson?`), and the document that
is written is one of them (`tells_toJson`).  What is read has its numbers in the range of their
fields (`inRange_of_ofJson?`), so a commit that was read in whatever form is written and read
again (`commits_read_back`).
-/
import TokenBlame.SourceCommit
import TokenBlame.Proofs.Json.RoundTrip

set_option autoImplicit false

namespace TokenBlame

/-! ## Tables from their entries -/

namespace Table

section Entries

variable {κ υ : Type} [Ord κ] [Std.TransOrd κ]

/-- An entry behind all others is the last one. -/
theorem insertEntry_of_lt {key : κ} (value : υ) {entries : List (κ × υ)}
    (below : ∀ entry ∈ entries, compare entry.1 key = .lt) :
    insertEntry key value entries = entries ++ [(key, value)] := by
  induction entries with
  | nil => rfl
  | cons head rest ih =>
      have greater : compare key head.1 = .gt :=
        Std.OrientedCmp.gt_of_lt (below head List.mem_cons_self)
      rw [insertEntry, greater]
      have behind := ih fun entry member => below entry (List.mem_cons_of_mem _ member)
      exact congrArg (head :: ·) behind

theorem entries_foldl_insert {entries : List (κ × υ)} {table : Table κ υ}
    (increasing : (table.entries ++ entries).Pairwise fun a b => compare a.1 b.1 = .lt) :
    (entries.foldl (fun table entry => table.insert entry.1 entry.2) table).entries =
      table.entries ++ entries := by
  induction entries generalizing table with
  | nil => rw [List.foldl_nil, List.append_nil]
  | cons entry entries ih =>
      have below := (List.pairwise_append.1 increasing).2.2
      have inserted : (table.insert entry.1 entry.2).entries = table.entries ++ [entry] :=
        insertEntry_of_lt entry.2 fun other member => below other member entry List.mem_cons_self
      rw [List.append_cons, ← inserted] at increasing
      rw [List.foldl_cons, ih increasing, inserted, List.append_assoc, List.singleton_append]

/-- A table is that of its entries. -/
theorem ofList_entries (table : Table κ υ) : ofList table.entries = table := by
  have same := @entries_foldl_insert κ υ _ _ table.entries empty table.increasing
  obtain ⟨entries, increasing⟩ := table
  unfold ofList
  generalize List.foldl _ _ _ = built at same
  cases built
  cases same
  rfl

end Entries

end Table

namespace SourceCommit

section RoundTrip

variable {commit : SourceCommit}

/-! ## What a document may look like -/

/-- The time and the offset have the size of their fields. -/
structure InRange (commit : SourceCommit) : Prop where
  time : Numeral.range64.1 ≤ commit.time ∧ commit.time ≤ Numeral.range64.2
  offset : Numeral.range32.1 ≤ commit.offsetMinutes ∧ commit.offsetMinutes ≤ Numeral.range32.2

/-- The fields that every document has, with the copies in some order. -/
def fields (commit : SourceCommit) (entries : List (String × String)) : List (String × Json) := [
  ("id", .ofString commit.id),
  ("parents", .array (commit.parents.map .ofString)),
  ("description", .ofString commit.description),
  ("time", .ofInt commit.time),
  ("offset_minutes", .ofInt commit.offsetMinutes),
  ("touched", .array (commit.touched.map .ofString)),
  ("copies", .ofMembers (entries.map fun (new, old) => (new, .ofString old)))]

/-- The names of all fields. -/
def fieldNames : List String :=
  ["id", "parents", "description", "time", "offset_minutes", "touched", "copies", "non_utf8_paths"]

/-- The field of the unreadable paths, if there is one. -/
inductive TellsPaths (commit : SourceCommit) : List Json → Prop
  | absent : commit.nonUtf8Paths = [] → TellsPaths commit []
  | listed : TellsPaths commit [.array (commit.nonUtf8Paths.map .ofString)]

/-- A document that tells a commit.  Of several copies to one path the last one counts. -/
inductive Tells (commit : SourceCommit) : Json → Prop
  | object {entries : List (String × String)} {paths : List Json}
      {unknown members : List (String × Json)} :
      Table.ofList entries = commit.copies → TellsPaths commit paths →
      (∀ member ∈ unknown, member.1 ∉ fieldNames ∧ member.2.WellSpelled) →
      members.Perm (commit.fields entries ++ paths.map (("non_utf8_paths", ·)) ++ unknown) →
      Tells commit (.ofMembers members)
  | array {entries : List (String × String)} {paths : List Json} :
      Table.ofList entries = commit.copies → TellsPaths commit paths →
      Tells commit (.array ((commit.fields entries).map (·.2) ++ paths))

/-- What is written tells the commit. -/
theorem tells_toJson (commit : SourceCommit) : Tells commit commit.toJson := by
  have own := Table.ofList_entries commit.copies
  by_cases none : commit.nonUtf8Paths = []
  · have written : commit.toJson = .ofMembers (commit.fields commit.copies.entries) := by
      rw [toJson, none, List.isEmpty_nil, if_pos rfl, List.append_nil, fields]
    rw [written]
    refine @Tells.object commit _ _ [] _ own (.absent none) (by simp) ?_
    rw [List.map_nil, List.append_nil, List.append_nil]
  · have written : commit.toJson = .ofMembers (commit.fields commit.copies.entries ++
        [("non_utf8_paths", .array (commit.nonUtf8Paths.map .ofString))]) := by
      rw [toJson, if_neg (by simp [none]), fields]
    rw [written]
    refine @Tells.object commit _ _ [] _ own .listed (by simp) ?_
    rw [List.append_nil]
    rfl

theorem wellSpelled_fields (commit : SourceCommit) (entries : List (String × String)) :
    ∀ field ∈ commit.fields entries, field.2.WellSpelled := by
  have copies : Json.WellSpelled
      (.ofMembers (entries.map fun (new, old) => (new, .ofString old))) := by
    refine Json.wellSpelled_ofMembers fun member inside => ?_
    obtain ⟨entry, -, rfl⟩ := List.mem_map.1 inside
    exact Json.wellSpelled_ofString entry.2
  simp [fields, Json.wellSpelled_ofString, Json.wellSpelled_ofInt, Json.wellSpelled_texts, copies]

theorem TellsPaths.wellSpelled {paths : List Json} (told : TellsPaths commit paths) :
    ∀ json ∈ paths, json.WellSpelled := by
  cases told with
  | absent _ => simp
  | listed => simp [Json.wellSpelled_texts]

theorem Tells.wellSpelled {json : Json} (tells : Tells commit json) : json.WellSpelled := by
  cases tells with
  | @object entries paths unknown members _ told others order =>
      refine Json.wellSpelled_ofMembers fun member inside => ?_
      rcases List.mem_append.1 (order.mem_iff.1 inside) with known | other
      · rcases List.mem_append.1 known with field | path
        · exact wellSpelled_fields commit entries member field
        · obtain ⟨json, own, rfl⟩ := List.mem_map.1 path
          exact told.wellSpelled json own
      · exact (others member other).2
  | @array entries paths _ told =>
      refine .array fun item inside => ?_
      rcases List.mem_append.1 inside with field | path
      · obtain ⟨member, own, rfl⟩ := List.mem_map.1 field
        exact wellSpelled_fields commit entries member own
      · exact told.wellSpelled item path

/-! ## Reading -/

theorem field?_perm {members members' : List (String × Json)} (same : members.Perm members')
    (name : String) : field? members name = field? members' name := by
  have found := same.filter fun member => member.1 == name
  unfold field?
  generalize members.filter _ = these at found
  generalize members'.filter _ = those at found
  match these, found with
  | [], found => rw [List.nil_perm.1 found]
  | [member], found => rw [List.singleton_perm.1 found]
  | first :: second :: rest, found =>
      match those, found.length_eq with
      | _ :: _ :: _, _ => rfl

/-- Members of other names do not count. -/
theorem field?_append {known unknown : List (String × Json)} {name : String}
    (other : ∀ member ∈ unknown, member.1 ≠ name) :
    field? (known ++ unknown) name = field? known name := by
  have none : unknown.filter (fun member => member.1 == name) = [] := by
    rw [List.filter_eq_nil_iff]
    intro member inside
    simpa using other member inside
  rw [field?, field?, List.filter_append, none, List.append_nil]

theorem integerIn?_ofInt {range : Int × Int} {n : Int} (inside : range.1 ≤ n ∧ n ≤ range.2) :
    integerIn? range (.ofInt n) = some n := by
  rw [integerIn?, Json.integer?_ofInt, Option.filter_some, if_pos (by simpa using inside)]

theorem table?_entries (entries : List (String × String)) :
    table? (.ofMembers (entries.map fun (new, old) => (new, .ofString old))) =
      some (Table.ofList entries) := by
  have each : ∀ entry : String × String,
      (Json.ofString entry.2).text?.map (fun text => (entry.1, text)) = some entry := by
    intro entry
    rw [Json.text?_ofString, Option.map_some]
  rw [table?, Json.members?_ofMembers, Option.bind_eq_bind, Option.bind_some]
  rw [Json.mapM_map_eq_some each entries]
  rfl

theorem ofFields?_eq (inRange : InRange commit) {entries : List (String × String)}
    {paths : List Json} (copied : Table.ofList entries = commit.copies)
    (told : TellsPaths commit paths) :
    ofFields? (.ofString commit.id) (.array (commit.parents.map .ofString))
      (.ofString commit.description) (.ofInt commit.time) (.ofInt commit.offsetMinutes)
      (.array (commit.touched.map .ofString))
      (.ofMembers (entries.map fun (new, old) => (new, .ofString old))) paths.head? =
      some commit := by
  rw [ofFields?]
  simp only [Json.text?_ofString, Json.texts?_map, integerIn?_ofInt inRange.time,
    integerIn?_ofInt inRange.offset, table?_entries, copied, Option.bind_eq_bind,
    Option.bind_some]
  cases told with
  | absent none =>
      rw [← none]
      rfl
  | listed =>
      simp only [List.head?_cons, Json.texts?_map, Option.bind_some]
      rfl

/-- A commit from named members. -/
def ofNamed? (members : List (String × Json)) : Option SourceCommit := do
  ofFields? (← required? members "id") (← required? members "parents")
    (← required? members "description") (← required? members "time")
    (← required? members "offset_minutes") (← required? members "touched")
    (← required? members "copies") (← field? members "non_utf8_paths")

theorem ofJson?_object (found : List (List Char × Json)) :
    ofJson? (.object found) = (Json.object found).members?.bind ofNamed? := by
  rw [ofJson?]
  rfl

/-- Only the members that have the names of fields count. -/
theorem ofNamed?_congr {members members' : List (String × Json)}
    (same : ∀ name ∈ fieldNames, field? members name = field? members' name) :
    ofNamed? members = ofNamed? members' := by
  unfold ofNamed? required?
  simp only [fieldNames, List.forall_mem_cons] at same
  simp only [same]

/-- **Every document that tells a commit** is read as that commit. -/
theorem Tells.ofJson? {json : Json} (tells : Tells commit json) (inRange : InRange commit) :
    SourceCommit.ofJson? json = some commit := by
  cases tells with
  | @object entries paths unknown members copied told others order =>
      have known : ∀ name ∈ fieldNames, field? members name =
          field? (commit.fields entries ++ paths.map (("non_utf8_paths", ·))) name := by
        intro name isField
        rw [field?_perm order, field?_append]
        rintro member inside rfl
        exact (others member inside).1 isField
      have own := ofFields?_eq inRange copied told
      have read := Json.members?_ofMembers members
      unfold Json.ofMembers at read ⊢
      rw [ofJson?_object, read, Option.bind_some, ofNamed?_congr known, ← own]
      cases told with
      | absent none => simp [ofNamed?, required?, field?, fields]
      | listed => simp [ofNamed?, required?, field?, fields]
  | array copied told =>
      have own := ofFields?_eq inRange copied told
      cases told with
      | absent none => exact own
      | listed => exact own

theorem inRange_of_integerIn? {range : Int × Int} {json : Json} {n : Int}
    (read : integerIn? range json = some n) : range.1 ≤ n ∧ n ≤ range.2 := by
  rw [integerIn?, Option.filter_eq_some_iff] at read
  simpa using read.2

theorem inRange_of_ofFields? {id parents description time offset touched copies : Json}
    {nonUtf8 : Option Json}
    (read : ofFields? id parents description time offset touched copies nonUtf8 = some commit) :
    InRange commit := by
  simp only [ofFields?, Option.bind_eq_bind, Option.bind_eq_some_iff] at read
  obtain ⟨_, -, _, -, _, -, seconds, isTime, minutes, isOffset, _, -, _, -, built⟩ := read
  have shape : commit.time = seconds ∧ commit.offsetMinutes = minutes := by
    cases nonUtf8 with
    | none =>
        cases built
        exact ⟨rfl, rfl⟩
    | some paths =>
        obtain ⟨_, -, built⟩ := Option.bind_eq_some_iff.1 built
        cases built
        exact ⟨rfl, rfl⟩
  rw [← shape.1] at isTime
  rw [← shape.2] at isOffset
  exact ⟨inRange_of_integerIn? isTime, inRange_of_integerIn? isOffset⟩

/-- What is read has its numbers in the range of their fields. -/
theorem inRange_of_ofJson? {json : Json} (read : ofJson? json = some commit) : InRange commit := by
  unfold ofJson? at read
  split at read
  · exact inRange_of_ofFields? read
  · exact inRange_of_ofFields? read
  · simp only [Option.bind_eq_bind, Option.bind_eq_some_iff] at read
    obtain ⟨_, -, _, -, _, -, _, -, _, -, _, -, _, -, _, -, _, -, own⟩ := read
    exact inRange_of_ofFields? own
  · cases read

/-! ## Texts -/

/-- The text of a commit, without white space. -/
def write (commit : SourceCommit) : String :=
  Json.compact commit.toJson

/-- The commit of a text. -/
def read (text : String) : Option SourceCommit :=
  (Json.parse? text).bind ofJson?

theorem read_of_tells {json : Json} (tells : Tells commit json) (inRange : InRange commit) :
    read (Json.compact json) = some commit := by
  rw [read, Json.parse?_compact tells.wellSpelled, Option.bind_some, tells.ofJson? inRange]

/-- **Commits are read as they were written.**  A commit that was written is read again, and so is
one that was read from any text that is accepted.  Among these are the documents whose fields stand
in another order, among members that nobody knows, or in an array, that tell of a path twice where
it comes from, or that leave out that there are no unreadable paths. -/
theorem commits_read_back :
    (∀ commit, InRange commit → read (write commit) = some commit) ∧
    (∀ text commit, read text = some commit →
      InRange commit ∧ read (write commit) = some commit) ∧
    ∀ commit json, InRange commit → Tells commit json → read (Json.compact json) = some commit := by
  have own : ∀ commit, InRange commit → read (write commit) = some commit :=
    fun commit inRange => read_of_tells (tells_toJson commit) inRange
  refine ⟨own, fun text commit told => ?_, fun commit json inRange tells =>
    read_of_tells tells inRange⟩
  obtain ⟨json, -, isCommit⟩ := Option.bind_eq_some_iff.1 told
  have inRange := inRange_of_ofJson? isCommit
  exact ⟨inRange, own commit inRange⟩

end RoundTrip

namespace Reordered

/-- A commit with characters that have to be escaped, and with the least time there is. -/
def commit : SourceCommit :=
  { id := "\"\\/", parents := ["\x01", ""], description := "a\tb\né\x7f",
    time := -0x8000000000000000, offsetMinutes := 0x7FFFFFFF, touched := ["é"],
    copies := Table.ofList [("b", "a"), ("a", "😀")], nonUtf8Paths := [] }

/-- A text that tells the commit: fields in another order, a member that nobody knows, two copies
to one path, a pair of surrogates, and nothing of unreadable paths. -/
def text : String :=
  " \x7b\"copies\":\x7b\"b\":\"x\",\"a\":\"\\ud83d\\uDE00\",\"b\":\"\\u0061\"\x7d,\n" ++
  "\"unknown\":[1.5e+3,\x7b\x7d,\"\\ud800\"],\"time\":-9223372036854775808," ++
  "\"offset_minutes\":2147483647,\"touched\" : [\"\\u00E9\"]," ++
  "\"description\":\"a\\tb\\né\x7f\",\"parents\":[\"\\u0001\",\"\"]," ++
  "\"\\u0069d\":\"\\\"\\\\\\/\"\x7d\n"

theorem read_text : read text = some commit := by
  decide +kernel

theorem inRange : InRange commit := ⟨by decide, by decide⟩

/-- The array of the fields of the commit, with one of the copies told twice. -/
theorem tells_array : Tells commit
    (.array ((commit.fields [("b", "x"), ("a", "😀"), ("b", "a")]).map (·.2) ++ [])) :=
  .array (by decide +kernel) (.absent rfl)

end Reordered

/-- A commit is read from a text of another order, from what is then written, and from an array. -/
theorem reordered_commit_read_back :
    read Reordered.text = some Reordered.commit ∧
    read (write Reordered.commit) = some Reordered.commit ∧
    read (Json.compact (.array ((Reordered.commit.fields
      [("b", "x"), ("a", "😀"), ("b", "a")]).map (·.2)))) = some Reordered.commit :=
  ⟨Reordered.read_text, (commits_read_back.2.1 _ _ Reordered.read_text).2,
    commits_read_back.2.2 _ _ Reordered.inRange Reordered.tells_array⟩

end SourceCommit

end TokenBlame
