/-
# TokenBlame.Proofs.Transcode.Linear -- histories without branches, and their mirrors

A source has a linear history (`Linear`) when it lists its commits one after the other, and
each has files of its own: those that the commit before it had, but for the touched paths.

The mirror of such files is a snapshot (`Mirrors`): each file that is not binary, in the
form in which it is replayed.  The changes of a commit lead from one mirror to the next
(`leadsTo_next`), and from the next to itself where what was removed is apart from all
that is there (`leadsTo_again`).
-/
import TokenBlame.Proofs.Destination.Leading
import TokenBlame.Proofs.Trailer
import TokenBlame.Proofs.Transcode.Pending
import TokenBlame.Proofs.Transcode.Steps

set_option autoImplicit false

namespace TokenBlame.Transcode

open Git

/-- The files of a commit of the source, by their paths. -/
abbrev Files := String → Option Bytes

/-! ## Mirrors -/

/-- The form in which a file is replayed with its comments. -/
def form (tokenize : Bool) (path : String) (content : Bytes) : Bytes :=
  if tokenize then Token.tokenize path content else content

/-- A snapshot of exactly the files that are not binary, as they are replayed. -/
def Mirrors (tokenize : Bool) (files : Files) (tree : Snapshot) : Prop :=
  ∀ place entry, tree.get? place = some entry ↔
    ∃ path content, TreePath.ofString path = place ∧ files path = some content ∧
      Plan.isBinary path = false ∧ entry = .file (form tokenize path content) false

/-- Files that may stand in a tree together. -/
structure Proper (files : Files) : Prop where
  valid : ∀ path content, files path = some content → (TreePath.ofString path).isValid = true
  apart : ∀ a b contentA contentB, files a = some contentA → files b = some contentB →
    TreePath.Apart (TreePath.ofString a) (TreePath.ofString b)

section Mirrors

variable {tokenize : Bool} {files before after : Files} {tree goal : Snapshot}

/-- What the mirror has for a path. -/
theorem Mirrors.get? (mirrors : Mirrors tokenize files tree) {path : String}
    (kept : Plan.isBinary path = false) :
    tree.get? (TreePath.ofString path) =
      (files path).map fun content => .file (form tokenize path content) false := by
  apply Option.ext
  intro entry
  rw [mirrors, Option.map_eq_some_iff]
  constructor
  · rintro ⟨other, content, same, there, -, rfl⟩
    obtain rfl := TreePath.ofString_injective same
    exact ⟨content, there, rfl⟩
  · rintro ⟨content, there, rfl⟩
    exact ⟨path, content, rfl, there, kept, rfl⟩

theorem Mirrors.unique (mirrors : Mirrors tokenize files tree)
    (also : Mirrors tokenize files goal) : tree = goal := by
  apply Table.ext_get?
  intro place
  apply Option.ext
  intro entry
  rw [mirrors, also]

theorem Mirrors.plain (mirrors : Mirrors tokenize files tree) (proper : Proper files) :
    tree.Plain where
  files := by
    intro place entry found
    obtain ⟨path, content, -, -, -, rfl⟩ := (mirrors place entry).1 found
    rfl
  nonempty := by
    intro place entry found
    obtain ⟨path, content, rfl, -, -, -⟩ := (mirrors place entry).1 found
    exact TreePath.ofString_ne_nil path
  valid := by
    intro place entry found
    obtain ⟨path, content, rfl, there, -, -⟩ := (mirrors place entry).1 found
    exact proper.valid path content there
  apart := by
    intro a b ea eb foundA foundB
    obtain ⟨pathA, contentA, rfl, thereA, -, -⟩ := (mirrors a ea).1 foundA
    obtain ⟨pathB, contentB, rfl, thereB, -, -⟩ := (mirrors b eb).1 foundB
    exact proper.apart pathA pathB contentA contentB thereA thereB

theorem mirrors_empty (none : ∀ path, files path = none) : Mirrors tokenize files ∅ := by
  intro place entry
  constructor
  · intro found
    cases found
  · rintro ⟨path, content, -, there, -⟩
    rw [none] at there
    cases there

/-- The mirror of files of which one has changed. -/
theorem Mirrors.update (mirrors : Mirrors tokenize files tree) {path : String}
    (kept : Plan.isBinary path = false) (value : Option Bytes) :
    ∃ next, Mirrors tokenize (fun other => if other = path then value else files other) next := by
  have elsewhere : ∀ (next : Snapshot) (place : TreePath), TreePath.ofString path ≠ place →
      next.get? place = tree.get? place → ∀ entry, next.get? place = some entry ↔
        ∃ other content, TreePath.ofString other = place ∧
          (if other = path then value else files other) = some content ∧
          Plan.isBinary other = false ∧ entry = .file (form tokenize other content) false := by
    intro next place away same entry
    rw [same, mirrors]
    refine exists_congr fun other => exists_congr fun content => and_congr_right ?_
    rintro rfl
    rw [if_neg fun eq => away (congrArg TreePath.ofString eq.symm)]
  cases value with
  | none =>
      refine ⟨Table.erase tree (TreePath.ofString path), fun place entry => ?_⟩
      by_cases here : TreePath.ofString path = place
      · subst here
        rw [Snapshot.get?_erase_self]
        constructor
        · intro found
          cases found
        · rintro ⟨other, content, same, there, -⟩
          have gone := (if_pos (TreePath.ofString_injective same)).symm.trans there
          cases gone
      · exact elsewhere _ place here (Snapshot.get?_erase_ne _ here) entry
  | some written =>
      refine ⟨tree.insert (TreePath.ofString path) (.file (form tokenize path written) false),
        fun place entry => ?_⟩
      by_cases here : TreePath.ofString path = place
      · subst here
        rw [Snapshot.get?_insert_self]
        constructor
        · intro found
          cases found
          exact ⟨path, written, rfl, if_pos rfl, kept, rfl⟩
        · rintro ⟨other, content, same, there, -, rfl⟩
          obtain rfl := TreePath.ofString_injective same
          have own := (if_pos rfl).symm.trans there
          cases own
          rfl
      · exact elsewhere _ place here (Snapshot.get?_insert_ne _ here _) entry

/-- Files that differ from those of a mirror at some paths only have a mirror too. -/
theorem Mirrors.reach (mirrors : Mirrors tokenize before tree) {paths : List String}
    (kept : ∀ path ∈ paths, Plan.isBinary path = false)
    (others : ∀ path, Plan.isBinary path = false → path ∉ paths → after path = before path) :
    ∃ goal, Mirrors tokenize after goal := by
  induction paths generalizing before tree with
  | nil =>
      refine ⟨tree, fun place entry => (mirrors place entry).trans ?_⟩
      refine exists_congr fun path => exists_congr fun content => and_congr_right fun _ => ?_
      constructor
      · rintro ⟨there, notBinary, same⟩
        exact ⟨by rw [others path notBinary List.not_mem_nil, there], notBinary, same⟩
      · rintro ⟨there, notBinary, same⟩
        exact ⟨by rw [← others path notBinary List.not_mem_nil, there], notBinary, same⟩
  | cons path paths ih =>
      obtain ⟨next, updated⟩ := mirrors.update (kept path List.mem_cons_self) (after path)
      refine ih updated (fun p member => kept p (List.mem_cons_of_mem _ member)) ?_
      intro p notBinary away
      by_cases same : p = path
      · rw [if_pos same, same]
      · rw [if_neg same]
        exact others p notBinary fun member => (List.mem_cons.1 member).elim same away

end Mirrors

/-! ## Changes -/

/-- The change that brings a path to its state among some files. -/
def changeTo (tokenize : Bool) (files : Files) (path : String) : FileChange :=
  match files path with
  | none => .remove path
  | some content => .write path (form tokenize path content)

theorem path_changeTo (tokenize : Bool) (files : Files) (path : String) :
    (changeTo tokenize files path).path = path := by
  unfold changeTo
  split <;> rfl

theorem changeTo_eq_remove {tokenize : Bool} {files : Files} {path removed : String}
    (same : changeTo tokenize files path = .remove removed) :
    path = removed ∧ files path = none := by
  unfold changeTo at same
  split at same
  · rename_i none
    cases same
    exact ⟨rfl, none⟩
  · cases same

theorem changeTo_eq_write {tokenize : Bool} {files : Files} {path written : String}
    {content : Bytes} (same : changeTo tokenize files path = .write written content) :
    path = written ∧ ∃ whole, files path = some whole ∧ content = form tokenize path whole := by
  unfold changeTo at same
  split at same
  · cases same
  · rename_i whole found
    cases same
    exact ⟨rfl, whole, found, rfl⟩

/-- Changes lead from one mirror to another one. -/
theorem leadsTo_mirror {tokenize : Bool} {before after : Files} {tree goal : Snapshot}
    (mirrors : Mirrors tokenize before tree) (mirrors' : Mirrors tokenize after goal)
    {paths : List String} (kept : ∀ path ∈ paths, Plan.isBinary path = false)
    (removed : ∀ path ∈ paths, after path = none → ∀ other entry, tree.get? other = some entry →
      TreePath.Apart (TreePath.ofString path) other)
    (others : ∀ path, Plan.isBinary path = false → path ∉ paths → after path = before path) :
    Destination.LeadsTo tree goal (paths.map (changeTo tokenize after)) where
  removed := by
    intro path member
    obtain ⟨touched, inside, same⟩ := List.mem_map.1 member
    obtain ⟨rfl, gone⟩ := changeTo_eq_remove same
    refine ⟨?_, removed touched inside gone⟩
    rw [mirrors'.get? (kept touched inside), gone]
    rfl
  written := by
    intro path content member
    obtain ⟨touched, inside, same⟩ := List.mem_map.1 member
    obtain ⟨rfl, whole, there, rfl⟩ := changeTo_eq_write same
    rw [mirrors'.get? (kept touched inside), there]
    rfl
  others := by
    intro place away
    have untouched : ∀ path, TreePath.ofString path = place → path ∉ paths := by
      intro path at_ inside
      apply away (changeTo tokenize after path) (List.mem_map_of_mem inside)
      rw [path_changeTo, at_]
    apply Option.ext
    intro entry
    rw [mirrors', mirrors]
    refine exists_congr fun path => exists_congr fun content => ?_
    constructor
    · rintro ⟨at_, there, notBinary, same⟩
      exact ⟨at_, by rw [← others path notBinary (untouched path at_), there], notBinary, same⟩
    · rintro ⟨at_, there, notBinary, same⟩
      exact ⟨at_, by rw [others path notBinary (untouched path at_), there], notBinary, same⟩

/-! ## Linear histories -/

/-- What is known of a commit agrees with its id and with the files before and after it. -/
structure Honest (before after : Files) (id : String) (commit : SourceCommit) : Prop where
  id_eq : commit.id = id
  /-- Nothing in the description looks like a trailer. -/
  unnamed : Trailer.source? (Trailer.quiet commit.description) = none
  readable : commit.nonUtf8Paths = []
  touched : ∀ path, after path ≠ before path → path ∈ commit.touched
  present : ∀ path ∈ commit.touched, before path ≠ none ∨ after path ≠ none

/-- A source whose commits follow one another; `files k` are the files behind the first
`k` of them. -/
structure Linear (source : RevisionSource) (ids : List String) (files : Nat → Files) : Prop where
  isId : ∀ id ∈ ids, Trailer.IsId id
  distinct : ids.Nodup
  fromRoot : ∀ stop listed, source.list ⟨.root, stop⟩ = .ok listed → listed <+: ids
  behind : ∀ k id stop listed, ids[k]? = some id →
    source.list ⟨.after id, stop⟩ = .ok listed → listed <+: ids.drop (k + 1)
  honest : ∀ k id commit, ids[k]? = some id → source.metadata id = .ok commit →
    Honest (files k) (files (k + 1)) id commit
  reads : ∀ k id path, ids[k]? = some id → source.read path id = .ok (files (k + 1) path)
  start : ∀ path, files 0 path = none
  proper : ∀ k, k ≤ ids.length → Proper (files k)

theorem mem_paths {commit : SourceCommit} {path : String} :
    path ∈ Plan.paths commit ↔
      path ∈ commit.touched ∧ path.isEmpty = false ∧ Plan.isBinary path = false := by
  unfold Plan.paths
  simp

theorem not_valid_empty : (TreePath.ofString "").isValid = false := by decide

section Linear

variable {source : RevisionSource} {ids : List String} {files : Nat → Files}

/-- The paths that are replayed are those whose files are not the same, binary files apart. -/
theorem Honest.others {before after : Files} {id : String} {commit : SourceCommit}
    (honest : Honest before after id commit) (proper : Proper before) (proper' : Proper after)
    (path : String) (notBinary : Plan.isBinary path = false) (away : path ∉ Plan.paths commit) :
    after path = before path := by
  by_cases same : after path = before path
  · exact same
  · have none : ∀ {files : Files}, Proper files → files "" = none := by
      intro files proper
      cases there : files "" with
      | none => rfl
      | some content =>
          have valid := proper.valid _ _ there
          rw [not_valid_empty] at valid
          cases valid
    by_cases empty : path.isEmpty = true
    · rw [String.isEmpty_iff.1 empty, none proper, none proper']
    · exact absurd (mem_paths.2 ⟨honest.touched path same, by simpa using empty, notBinary⟩) away

/-- The changes of a commit bring its paths to their states behind it. -/
theorem Linear.changes_eq (linear : Linear source ids files) {k : Nat} {id : String}
    {commit : SourceCommit} (here : ids[k]? = some id) (known : source.metadata id = .ok commit)
    (settings : Settings) :
    changes source settings none commit =
      .ok ((Plan.paths commit).map (changeTo settings.tokenize (files (k + 1)))) := by
  have honest := linear.honest k id commit here known
  rw [changes_of_readable honest.readable]
  apply mapM_ok_of_forall
  intro path _
  rw [change_eq_ok_iff, honest.id_eq, linear.reads k id path here, changeTo]
  cases files (k + 1) path with
  | none => exact Or.inl ⟨rfl, rfl⟩
  | some content => exact Or.inr ⟨content, rfl, rfl⟩

/-- What a run sets out to do begins behind the commits that were replayed. -/
theorem Linear.front (linear : Linear source ids files) {settings : Settings}
    (fromRoot : settings.start = .root) (plain : settings.comments = none)
    {destination : Destination} {k : Nat} (small : k ≤ ids.length) {history : List Commit}
    (chain : Chain destination.repository history)
    (names : Destination.Names history (ids.take k).reverse)
    {service : Option CommentService} {commits : List SourceCommit} {completed : Bool}
    (prepared : prepare source settings destination = .ok (service, commits, completed)) :
    service = none ∧ ∃ front, front <+: ids.drop k ∧ front.mapM source.metadata = .ok commits := by
  obtain ⟨started, pendingIds, listed, -, mined⟩ := prepare_eq_ok.1 prepared
  have noService : service = none := by
    unfold serviceOf at started
    rw [plain] at started
    cases started
    rfl
  refine ⟨noService, _, (limited_isPrefix settings.limit pendingIds).trans ?_, mined⟩
  have distinct : (ids.take k).reverse.Nodup :=
    List.nodup_reverse.2 (linear.distinct.sublist (List.take_sublist k ids))
  rw [pending_of_chain chain names distinct, List.head?_reverse] at listed
  cases k with
  | zero =>
      rw [List.take_zero, List.getLast?_nil, fromRoot] at listed
      exact linear.fromRoot _ _ listed
  | succ k =>
      have last : ids[k]? = some ids[k] := List.getElem?_eq_getElem small
      have newest : (ids.take (k + 1)).getLast? = some ids[k] := by
        rw [List.take_add_one, last, Option.toList_some, List.getLast?_concat]
      rw [newest] at listed
      dsimp only at listed
      cases behind : source.list ⟨.after ids[k], settings.stop⟩ with
      | error error =>
          rw [behind] at listed
          cases listed
      | ok rest =>
          have start := linear.behind k _ _ _ last behind
          rw [behind] at listed
          have kept : rest.filter (fun id => !(ids.take (k + 1)).reverse.contains id) = rest := by
            rw [List.filter_eq_self]
            intro id member
            have later : id ∈ ids.drop (k + 1) := start.subset member
            have split := linear.distinct
            rw [← List.take_append_drop (k + 1) ids, List.nodup_append] at split
            have new : id ∉ (ids.take (k + 1)).reverse := fun early =>
              split.2.2 id (List.mem_reverse.1 early) id later rfl
            simpa using new
          have same : pendingIds = rest := by
            rw [← kept]
            exact (Except.ok.inj listed).symm
          rw [same]
          exact start

end Linear

end TokenBlame.Transcode
