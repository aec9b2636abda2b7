/-
# TokenBlame.Proofs.Git.Touched -- no change of a commit is dropped

What is known of a commit is read off the deltas to it from its first parent.  One delta tells
the paths that it names as changed, provided that all paths that it names are text; if one is
not, it is set aside (`nonUtf8_add`, `paths_add`).  A rename of which one side is not text tells
neither, which does no harm: since something was set aside, the commit is not replayed.

So what is known `Covers` the difference of the two snapshots.  Either nothing was set aside, and
the touched paths are those where the snapshots differ; or the commit is refused before anything
is read or staged, and there is no third case in which a change is lost.
-/
import TokenBlame.Git.Source
import TokenBlame.Proofs.Git.Difference
import TokenBlame.Proofs.Text.Utf8
import TokenBlame.Transcode

set_option autoImplicit false

namespace TokenBlame

open Git

/-- The paths that a delta names, where it tells a change. -/
def Git.Delta.named : Delta → List TreePath
  | .unmodified _ => []
  | .added path => [path]
  | .modified path => [path]
  | .deleted path => [path]
  | .retyped path => [path]
  | .renamed old new => [old, new]
  | .copied old new => [old, new]

theorem Git.Delta.named_of_changed {delta : Delta} {path : TreePath}
    (changed : path ∈ delta.changed) : path ∈ delta.named := by
  cases delta <;> simp_all [Delta.changed, Delta.named, or_comm]

namespace Touched

/-! ## One delta -/

section Add

variable (touched : Touched) (path : TreePath)

@[simp] theorem paths_setAside : (touched.setAside path).paths = touched.paths := by
  unfold setAside
  repeat' split
  all_goals rfl

@[simp] theorem copies_setAside : (touched.setAside path).copies = touched.copies := by
  unfold setAside
  repeat' split
  all_goals rfl

theorem nonUtf8_setAside :
    (touched.setAside path).nonUtf8 = [] ↔
      touched.nonUtf8 = [] ∧ ∃ text, Utf8.decode? path.join = some text := by
  unfold setAside
  cases Utf8.decode? path.join with
  | some text => simp
  | none =>
      dsimp only
      split
      · rename_i before
        simpa using List.ne_nil_of_mem (List.contains_iff_mem.1 before)
      · simp

/-- A pair of paths is told when both are text, and left out when one is not. -/
theorem addPair_cases (old new : TreePath) (gone : Bool) :
    (∃ oldText newText, Utf8.decode? old.join = some oldText ∧
      Utf8.decode? new.join = some newText ∧
      (touched.addPair old new gone).paths =
        touched.paths ++ (if gone then [newText, oldText] else [newText]) ∧
      (touched.addPair old new gone).copies = touched.copies.insert newText oldText) ∨
    (Utf8.decode? old.join = none ∨ Utf8.decode? new.join = none) ∧
      (touched.addPair old new gone).paths = touched.paths ∧
      (touched.addPair old new gone).copies = touched.copies := by
  unfold addPair
  cases Utf8.decode? old.join with
  | none => exact Or.inr ⟨Or.inl rfl, by simp, by simp⟩
  | some oldText =>
      cases Utf8.decode? new.join with
      | none => exact Or.inr ⟨Or.inr rfl, by simp, by simp⟩
      | some newText => exact Or.inl ⟨oldText, newText, rfl, rfl, by simp, by simp⟩

theorem nonUtf8_addPair (old new : TreePath) (gone : Bool) :
    (touched.addPair old new gone).nonUtf8 = ((touched.setAside old).setAside new).nonUtf8 := by
  unfold addPair
  dsimp only
  split <;> rfl

/-- Nothing was set aside when all that was named is text. -/
theorem nonUtf8_add (delta : Delta) :
    (touched.add delta).nonUtf8 = [] ↔
      touched.nonUtf8 = [] ∧ ∀ path ∈ delta.named, ∃ text, Utf8.decode? path.join = some text := by
  cases delta <;>
    simp [add, Delta.named, addPath, nonUtf8_addPair, nonUtf8_setAside, and_assoc]

/-- The changes that a delta tells as text. -/
def told (delta : Delta) : List String :=
  delta.changed.filterMap fun path => Utf8.decode? path.join

/-- A delta of which nothing is set aside adds all that it tells. -/
theorem paths_add {delta : Delta}
    (whole : ∀ path ∈ delta.named, ∃ text, Utf8.decode? path.join = some text) :
    (touched.add delta).paths = touched.paths ++ told delta := by
  have one : ∀ path, (touched.addPath path).paths =
      touched.paths ++ [path].filterMap fun path => Utf8.decode? path.join := by
    intro path
    unfold addPath
    cases read : Utf8.decode? path.join <;> simp [read]
  have pair : ∀ old new gone, (∃ text, Utf8.decode? old.join = some text) →
      (∃ text, Utf8.decode? new.join = some text) →
      (touched.addPair old new gone).paths = touched.paths ++
        (if gone then [new, old] else [new]).filterMap fun path => Utf8.decode? path.join := by
    rintro old new gone ⟨_, oldRead⟩ ⟨_, newRead⟩
    rcases addPair_cases touched old new gone with ⟨_, _, old', new', paths, -⟩ | ⟨none, -⟩
    · rw [paths]
      cases gone <;> simp [old', new']
    · simp [oldRead, newRead] at none
  cases delta with
  | unmodified path => exact (List.append_nil _).symm
  | renamed old new =>
      exact pair old new true (whole _ (by simp [Delta.named])) (whole _ (by simp [Delta.named]))
  | copied old new =>
      exact pair old new false (whole _ (by simp [Delta.named])) (whole _ (by simp [Delta.named]))
  | _ => exact one _

/-- Every path that comes from another one was touched. -/
def CopiesTouched : Prop :=
  ∀ path origin, touched.copies.get? path = some origin → path ∈ touched.paths

theorem CopiesTouched.add {touched : Touched} (known : touched.CopiesTouched) (delta : Delta) :
    (touched.add delta).CopiesTouched := by
  have one : ∀ path, (touched.addPath path).CopiesTouched := by
    intro path copy origin bound
    rw [addPath, copies_setAside] at bound
    simpa [addPath] using Or.inl (known copy origin bound)
  have pair : ∀ old new gone, (touched.addPair old new gone).CopiesTouched := by
    intro old new gone copy origin bound
    rcases addPair_cases touched old new gone with ⟨_, newText, -, -, paths, copies⟩ |
      ⟨-, paths, copies⟩
    · rw [copies, Table.get?_insert] at bound
      rw [paths, List.mem_append]
      split at bound
      · rename_i same
        obtain rfl := Std.compare_eq_iff_eq.1 same
        exact Or.inr (by cases gone <;> simp)
      · exact Or.inl (known copy origin bound)
    · rw [copies] at bound
      rw [paths]
      exact known copy origin bound
  cases delta with
  | unmodified path => exact known
  | renamed old new => exact pair old new true
  | copied old new => exact pair old new false
  | _ => exact one _

end Add

/-! ## All deltas of a commit -/

section OfDeltas

variable (deltas : List Delta)

theorem nonUtf8_foldl (touched : Touched) :
    (deltas.foldl add touched).nonUtf8 = [] ↔ touched.nonUtf8 = [] ∧
      ∀ delta ∈ deltas, ∀ path ∈ delta.named, ∃ text, Utf8.decode? path.join = some text := by
  induction deltas generalizing touched with
  | nil => simp
  | cons delta deltas ih => rw [List.foldl_cons, ih, nonUtf8_add, and_assoc, List.forall_mem_cons]

theorem paths_foldl {touched : Touched}
    (whole : ∀ delta ∈ deltas, ∀ path ∈ delta.named, ∃ text, Utf8.decode? path.join = some text) :
    (deltas.foldl add touched).paths = touched.paths ++ deltas.flatMap told := by
  induction deltas generalizing touched with
  | nil => simp
  | cons delta deltas ih =>
      obtain ⟨here, later⟩ := List.forall_mem_cons.1 whole
      rw [List.foldl_cons, ih later, paths_add touched here, List.append_assoc, List.flatMap_cons]

theorem CopiesTouched.foldl {touched : Touched} (known : touched.CopiesTouched) :
    (deltas.foldl Touched.add touched).CopiesTouched := by
  induction deltas generalizing touched with
  | nil => exact known
  | cons delta deltas ih => exact ih (known.add delta)

end OfDeltas

end Touched

/-! ## The commit -/

/-- What is known of a commit covers the difference of two snapshots. -/
structure SourceCommit.Covers (commit : SourceCommit) (old new : Snapshot) : Prop where
  /-- If nothing was set aside, the touched paths are those where the snapshots differ. -/
  touched : commit.nonUtf8Paths = [] → ∀ path,
    path ∈ commit.touched ↔ ∃ place, old.get? place ≠ new.get? place ∧ place.join = Utf8.encode path
  /-- If nothing was set aside, there is a touched path wherever the snapshots differ. -/
  whole : commit.nonUtf8Paths = [] → ∀ place, old.get? place ≠ new.get? place →
    ∃ path ∈ commit.touched, place.join = Utf8.encode path
  /-- What comes from another path was touched. -/
  copies : ∀ path origin, commit.copies.get? path = some origin → path ∈ commit.touched
  /-- Where the snapshots differ at a path that is not text, the commit is refused, and nothing
  is staged. -/
  refused : ∀ place, old.get? place ≠ new.get? place → (∀ path, place.join ≠ Utf8.encode path) →
    ∃ shown rest, commit.nonUtf8Paths = shown :: rest ∧
      ∀ source settings service destination,
        Transcode.convert source settings service destination commit =
          (.error (.invalidPath (shown ++ " is not valid UTF-8")), destination)

theorem covers_ofDeltas {old new : Snapshot} {deltas : List Delta}
    (describes : old.Describes new deltas) (commit : Commit) :
    (commit.describe (Touched.ofDeltas deltas)).Covers old new := by
  have readable : (Touched.ofDeltas deltas).nonUtf8 = [] →
      ∀ delta ∈ deltas, ∀ path ∈ delta.named, ∃ text, Utf8.decode? path.join = some text :=
    fun none => ((Touched.nonUtf8_foldl deltas {}).1 none).2
  have found : (Touched.ofDeltas deltas).nonUtf8 = [] → ∀ place, old.get? place ≠ new.get? place →
      ∃ path, place.join = Utf8.encode path := by
    intro none place differ
    obtain ⟨delta, member, changed⟩ := (describes place).2 differ
    obtain ⟨path, read⟩ := readable none delta member place (Delta.named_of_changed changed)
    exact ⟨path, (Utf8.decode?_eq_some_iff.1 read).symm⟩
  have touched : (Touched.ofDeltas deltas).nonUtf8 = [] → ∀ path,
      path ∈ (Touched.ofDeltas deltas).paths ↔
        ∃ place, old.get? place ≠ new.get? place ∧ place.join = Utf8.encode path := by
    intro none path
    have paths : (Touched.ofDeltas deltas).paths = deltas.flatMap Touched.told :=
      Touched.paths_foldl deltas (readable none)
    simp only [paths, List.mem_flatMap, Touched.told, List.mem_filterMap, Utf8.decode?_eq_some_iff,
      ← describes _, eq_comm (a := Utf8.encode path)]
    constructor
    · rintro ⟨delta, member, place, changed, read⟩
      exact ⟨place, ⟨delta, member, changed⟩, read⟩
    · rintro ⟨place, ⟨delta, member, changed⟩, read⟩
      exact ⟨delta, member, place, changed, read⟩
  constructor
  case touched => exact touched
  case whole =>
    intro none place differ
    obtain ⟨path, same⟩ := found none place differ
    exact ⟨path, (touched none path).2 ⟨place, differ, same⟩, same⟩
  case copies =>
    exact Touched.CopiesTouched.foldl deltas fun path origin bound => nomatch bound
  case refused =>
    intro place differ unreadable
    cases aside : (Touched.ofDeltas deltas).nonUtf8 with
    | nil =>
        obtain ⟨path, same⟩ := found aside place differ
        exact absurd same (unreadable path)
    | cons shown rest =>
        refine ⟨shown, rest, aside, fun source settings service destination => ?_⟩
        have known : (commit.describe (Touched.ofDeltas deltas)).nonUtf8Paths = shown :: rest :=
          aside
        rw [Transcode.convert, Transcode.changes, known]

/-- **No change is dropped**: whatever deltas describe the difference of two snapshots, what is
known of a commit after they were read covers the difference.  What a repository knows of a commit
that it has covers the difference to the first parent. -/
theorem metadata_covers_every_change {old new : Snapshot} {deltas : List Delta}
    (describes : old.Describes new deltas) (commit : Commit) (repository : Repository)
    (id : String) :
    (commit.describe (Touched.ofDeltas deltas)).Covers old new ∧
      ((∃ fault, repository.named id = .error fault ∧ repository.metadata id = .error fault) ∨
        ∃ found known, repository.named id = .ok found ∧ repository.metadata id = .ok known ∧
          known.Covers (repository.treeBefore found) found.tree) := by
  refine ⟨covers_ofDeltas describes commit, ?_⟩
  unfold Repository.metadata
  cases named : repository.named id with
  | error fault => exact Or.inl ⟨fault, rfl, rfl⟩
  | ok found =>
      exact Or.inr ⟨found, _, rfl, rfl, covers_ofDeltas (Snapshot.describes_deltas _ _) found⟩

/-! ## A change of every kind -/

namespace Reworked

/-- A link, a file that goes, and one that stays. -/
def before : Snapshot :=
  (((∅ : Snapshot).insert [[0x61]] (.link [0x62])).insert [[0x62]] (.file [0x31] false)).insert
    [[0x64]] (.file [0x32] false)

/-- The link is a file, the file that went is elsewhere, and the one that stayed is there twice. -/
def after : Snapshot :=
  ((((∅ : Snapshot).insert [[0x61]] (.file [0x33] false)).insert
    [[0x63]] (.file [0x31] false)).insert [[0x64]] (.file [0x32] false)).insert
      [[0x65]] (.file [0x32] false)

/-- And there is a file whose name is not text. -/
def unreadable : Snapshot := after.insert [[0xFF]] (.file [] false)

def deltas : List Delta :=
  [.retyped [[0x61]], .renamed [[0x62]] [[0x63]], .unmodified [[0x64]], .copied [[0x64]] [[0x65]]]

def unreadableDeltas : List Delta := deltas ++ [.added [[0xFF]]]

/-- A commit without parents. -/
def commit (tree : Snapshot) : Commit :=
  .create tree [] ⟨[0x6D], [0x6D], 0, 0⟩ ⟨[0x6D], [0x6D], 0, 0⟩ []

/-- What is known of it when some deltas were read. -/
def known (tree : Snapshot) (deltas : List Delta) : SourceCommit :=
  (commit tree).describe (Touched.ofDeltas deltas)

/-- A commit of one file. -/
def first : Commit := commit ((∅ : Snapshot).insert [[0x61]] (.file [] false))

def repository : Repository := { commits := [first] }

theorem describes : before.Describes after deltas ∧
    before.Describes unreadable unreadableDeltas := by
  have places : ∀ place : TreePath, place = [[0x61]] ∨ place = [[0x62]] ∨ place = [[0x63]] ∨
      place = [[0x64]] ∨ place = [[0x65]] ∨ place = [[0xFF]] ∨
      place ≠ [[0x61]] ∧ place ≠ [[0x62]] ∧ place ≠ [[0x63]] ∧ place ≠ [[0x64]] ∧
        place ≠ [[0x65]] ∧ place ≠ [[0xFF]] := by
    intro place
    tauto
  constructor <;> intro place <;>
    rcases places place with rfl | rfl | rfl | rfl | rfl | rfl | ⟨a, b, c, d, e, f⟩
  -- at each of the places it is seen, and nothing is anywhere else
  all_goals
    first
    | decide
    | simp [before, after, unreadable, deltas, unreadableDeltas, Delta.changed,
        Table.get?_insert, Ne.symm, *]

end Reworked

/-- A file that came from a link, a rename and a copy are told, and what stayed is not; with a
path that is not text among them, the commit is refused.  In a repository the first commit tells
its file. -/
theorem reworked_files_told :
    (Reworked.before.Describes Reworked.after Reworked.deltas ∧
      (Reworked.known Reworked.after Reworked.deltas).touched = ["a", "c", "b", "e"] ∧
      (Reworked.known Reworked.after Reworked.deltas).Covers Reworked.before Reworked.after) ∧
    (Reworked.before.Describes Reworked.unreadable Reworked.unreadableDeltas ∧
      (Reworked.known Reworked.unreadable Reworked.unreadableDeltas).nonUtf8Paths = ["\uFFFD"] ∧
      (Reworked.known Reworked.unreadable Reworked.unreadableDeltas).Covers
        Reworked.before Reworked.unreadable) ∧
    ∃ found known, Reworked.repository.named Reworked.first.id.hex = .ok found ∧
      Reworked.repository.metadata Reworked.first.id.hex = .ok known ∧ known.touched = ["a"] ∧
      known.Covers (Reworked.repository.treeBefore found) found.tree := by
  obtain ⟨readable, unreadable⟩ := Reworked.describes
  have told : (Reworked.repository.metadata Reworked.first.id.hex).toOption.map (·.touched) =
      some ["a"] := by decide +kernel
  obtain ⟨covers, one⟩ := metadata_covers_every_change readable (Reworked.commit Reworked.after)
    Reworked.repository Reworked.first.id.hex
  refine ⟨⟨readable, by decide +kernel, covers⟩, ⟨unreadable, by decide +kernel,
    (metadata_covers_every_change unreadable _ Reworked.repository "").1⟩, ?_⟩
  rcases one with ⟨fault, -, fails⟩ | ⟨found, known, named, read, covers⟩
  · rw [fails] at told
    cases told
  · rw [read] at told
    exact ⟨found, known, named, read, Option.some.inj told, covers⟩

end TokenBlame
