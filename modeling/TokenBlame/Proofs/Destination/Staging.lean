/-
# TokenBlame.Proofs.Destination.Staging -- staging into a clean destination

A destination is mirrored (`Mirrored`) when its working tree holds its index, and clean
(`Clean`) when there are only files in both.  Each change then does to both what it says
(`Mirrored.write`, `Mirrored.remove`).

What no change breaks a list of changes does not break, however far it comes (`applyAll_keeps`,
`stage_keeps`).  What was staged passed the check of its paths and was made to the end
(`of_stage_ok`).

`Alike` destinations differ in what was staged and stored, and in nothing that is read of
their history.
-/
import TokenBlame.Proofs.Destination.Updates
import TokenBlame.Proofs.Disk.Removal
import TokenBlame.Proofs.RelativePath

set_option autoImplicit false

namespace TokenBlame

open Git

/-! ## What staging leaves alone -/

/-- A repository without what is stored apart from its commits. -/
def Git.Repository.core (repository : Repository) : Repository :=
  { repository with contents := [], trees := [] }

namespace Destination

/-- Destinations of one place and one history. -/
structure Alike (a b : Destination) : Prop where
  home : b.home = a.home
  bare : b.bare = a.bare
  core : b.repository.core = a.repository.core

theorem Alike.refl (a : Destination) : Alike a a := ⟨rfl, rfl, rfl⟩

theorem Alike.trans {a b c : Destination} (first : Alike a b) (second : Alike b c) : Alike a c :=
  ⟨second.home.trans first.home, second.bare.trans first.bare, second.core.trans first.core⟩

theorem Alike.symm {a b : Destination} (alike : Alike a b) : Alike b a :=
  ⟨alike.home.symm, alike.bare.symm, alike.core.symm⟩

theorem Alike.top {a b : Destination} (alike : Alike a b) : b.top = a.top :=
  top_congr alike.home

/-! ## One change -/

/-- A path that leads past the repository's own directory. -/
def Outside (path : String) : Prop :=
  (TreePath.resolve (TreePath.ofString path)).head? ≠ some TreePath.gitDirectory

instance (path : String) : Decidable (Outside path) :=
  inferInstanceAs (Decidable (_ ≠ _))

section OneChange

variable {destination : Destination} {tree : Snapshot} {path : String}

theorem resolve_of_isValid (valid : (TreePath.ofString path).isValid = true) :
    TreePath.resolve (.ofString path) = TreePath.ofString path :=
  TreePath.resolve_eq_self (TreePath.isPlain_of_isValid valid)

theorem outside_of_isValid (valid : (TreePath.ofString path).isValid = true) : Outside path := by
  unfold Outside
  rw [resolve_of_isValid valid]
  exact TreePath.head?_ne_gitDirectory valid

theorem heed_outside (outside : Outside path) : destination.heed path = destination := by
  unfold heed
  rw [if_neg outside]

theorem apply_write_outside (outside : Outside path) (content : Bytes) :
    destination.apply (.write path content) = destination.write path content := by
  show ((destination.write path content).1, (destination.write path content).2.heed path) = _
  rw [heed_outside outside]

theorem apply_remove (outside : Outside path) :
    destination.apply (.remove path) = destination.remove path := by
  show ((destination.remove path).1, (destination.remove path).2.heed path) = _
  rw [heed_outside outside]

/-- A removal that the disk carries out. -/
theorem apply_remove_done {disk : Disk} (outside : Outside path)
    (removed : destination.disk.remove (destination.route path) = .ok disk) :
    destination.apply (.remove path) =
      (.ok (), { destination with
        index := destination.index.erase (TreePath.ofString path)
        disk := disk.prune destination.top
          (TreePath.ancestors (TreePath.resolve (.ofString path))).reverse }) := by
  rw [apply_remove outside, remove_of_removed removed]

/-- A removal that the disk refuses fails, unless it is because there is no such file. -/
theorem apply_remove_refused {error : Error} (outside : Outside path)
    (refused : destination.disk.remove (destination.route path) = .error error) :
    destination.apply (.remove path) =
      if error = .noSuchFile then
        (.ok (), { destination with index := destination.index.erase (TreePath.ofString path) })
      else (.error error, destination) := by
  rw [apply_remove outside, remove_of_refused refused]

theorem entryAt?_of_holds {names : TreePath} {entry : Entry}
    (holds : Disk.Holds destination.disk destination.top tree) (proper : tree.Proper)
    (short : ∀ n ∈ names, n.length ≤ Disk.maxName) (found : tree.get? names = some entry) :
    destination.entryAt? names = some entry := by
  obtain ⟨place, at_, -, -, there, seen⟩ := holds.site_entry proper short found
  unfold entryAt?
  rw [at_]
  dsimp only
  rw [there]
  obtain ⟨node, stands, what⟩ := Option.map_eq_some_iff.1 seen
  rw [stands]
  cases node with
  | directory entries => cases what
  | file content executable =>
      cases what
      rfl
  | link target =>
      cases what
      rfl

/-- A file is written to the working tree and to the index. -/
theorem apply_write (holds : Disk.Holds destination.disk destination.top tree)
    (proper : tree.Proper) (straight : tree.Straight (TreePath.ofString path))
    (fits : Disk.Fits destination.top (Utf8.encode path))
    (valid : (TreePath.ofString path).isValid = true)
    (apart : ∀ other entry, tree.get? other = some entry →
      TreePath.Apart (TreePath.ofString path) other) (content : Bytes) :
    let entry := Entry.file content (Disk.isExecutable (tree.view (TreePath.ofString path)))
    ∃ disk, destination.apply (.write path content) =
        (.ok (), { destination with
          repository := destination.repository.storeContent entry
          index := destination.index.place (TreePath.ofString path) entry
          disk }) ∧
      Disk.Holds disk destination.top (tree.insert (TreePath.ofString path) entry) := by
  intro entry
  obtain ⟨lead, name, names⟩ := TreePath.exists_concat (TreePath.ofString_ne_nil path)
  have steps := TreePath.isPlain_of_isValid valid
  obtain ⟨made, written, entered, filled, next, -⟩ := holds.write straight fits names valid apart content
  have parent := Disk.makeDirectories_parent destination.disk names steps (fits.parent names steps).1
  have there : entryAt? { destination with disk := written } (TreePath.ofString path) = some entry :=
    entryAt?_of_holds
      (show Disk.Holds written destination.top (tree.insert (TreePath.ofString path) entry) from next)
      (proper.insert (TreePath.ofString_ne_nil path) valid apart _) fits.short
      (Snapshot.get?_insert_self _ _ _)
  refine ⟨written, ?_, next⟩
  rw [apply_write_outside (outside_of_isValid valid),
    write_of_written (parent.trans entered) filled, addToIndex_of_entry there, if_pos valid]

/-- A file is removed from the working tree and from the index. -/
theorem apply_remove_file (holds : Disk.Holds destination.disk destination.top tree)
    (proper : tree.Proper) (fits : Disk.Fits destination.top (Utf8.encode path)) {entry : Entry}
    (found : tree.get? (TreePath.ofString path) = some entry) :
    ∃ disk, destination.apply (.remove path) =
        (.ok (), { destination with
          index := destination.index.erase (TreePath.ofString path)
          disk }) ∧
      Disk.Holds disk destination.top (Table.erase tree (TreePath.ofString path)) := by
  have valid := proper.valid _ _ found
  have removed := apply_remove_done (outside_of_isValid valid) (holds.remove_file proper fits found)
  rw [resolve_of_isValid valid] at removed
  exact ⟨_, removed, holds.erase proper fits.short found⟩

/-- A file that is missing is no error. -/
theorem apply_remove_missing (holds : Disk.Holds destination.disk destination.top tree)
    (fits : Disk.Fits destination.top (Utf8.encode path))
    (valid : (TreePath.ofString path).isValid = true)
    (absent : tree.get? (TreePath.ofString path) = none)
    (apart : ∀ other entry, tree.get? other = some entry →
      TreePath.Apart (TreePath.ofString path) other) :
    destination.apply (.remove path) =
      (.ok (), { destination with index := destination.index.erase (TreePath.ofString path) }) := by
  rw [apply_remove_refused (outside_of_isValid valid)
    (holds.remove_missing fits valid absent apart), if_pos rfl]

/-- A directory is not removed, and neither is what is beneath a file. -/
theorem apply_remove_blocked (holds : Disk.Holds destination.disk destination.top tree)
    (proper : tree.Proper) (straight : tree.Straight (TreePath.ofString path).dropLast)
    (fits : Disk.Fits destination.top (Utf8.encode path))
    (valid : (TreePath.ofString path).isValid = true) {other : TreePath} {entry : Entry}
    (found : tree.get? other = some entry)
    (blocked : ¬ TreePath.Apart (TreePath.ofString path) other) :
    ∃ error, destination.apply (.remove path) = (.error error, destination) ∧
      error.isFatal = false := by
  have removed := holds.remove_blocked proper straight fits valid found blocked
  obtain ⟨error, failed, mild, other⟩ : ∃ error,
      destination.disk.remove (destination.route path) = .error error ∧ error.isFatal = false ∧
        error ≠ .noSuchFile := by
    rcases removed with failed | failed
    · exact ⟨_, failed, rfl, by decide⟩
    · exact ⟨_, failed, rfl, by decide⟩
  exact ⟨error, (apply_remove_refused (outside_of_isValid valid) failed).trans (if_neg other), mild⟩

end OneChange

/-! ## Clean destinations -/

/-- A destination whose working tree mirrors its index: the entries of the index stand in it with
the directories above them, and nothing else. -/
structure Mirrored (destination : Destination) : Prop where
  home : destination.home = destination.top ++ [TreePath.gitDirectory]
  working : destination.bare = false
  proper : destination.index.Proper
  holds : Disk.Holds destination.disk destination.top destination.index

/-- A mirrored destination with files only. -/
structure Clean (destination : Destination) : Prop where
  home : destination.home = destination.top ++ [TreePath.gitDirectory]
  working : destination.bare = false
  plain : destination.index.Plain
  holds : Disk.Holds destination.disk destination.top destination.index

theorem Clean.mirrored {destination : Destination} (clean : destination.Clean) :
    destination.Mirrored :=
  ⟨clean.home, clean.working, clean.plain.proper, clean.holds⟩

theorem Mirrored.clean {destination : Destination} (mirrored : destination.Mirrored)
    (plain : destination.index.Plain) : destination.Clean :=
  ⟨mirrored.home, mirrored.working, plain, mirrored.holds⟩

/-- A path that can be staged into a destination. -/
structure Stageable (destination : Destination) (path : String) : Prop where
  fits : Disk.Fits destination.top (Utf8.encode path)
  valid : (TreePath.ofString path).isValid = true

theorem Stageable.of_alike {a b : Destination} {path : String} (alike : Alike a b)
    (stageable : Stageable a path) : Stageable b path :=
  ⟨alike.top ▸ stageable.fits, stageable.valid⟩

/-- What became of a clean destination: it is clean, alike, and its index is known. -/
structure Became (before after : Destination) (tree : Snapshot) : Prop where
  clean : after.Clean
  alike : Alike before after
  saved : after.saved = before.saved
  index : after.index = tree

/-- What became of a mirrored destination: it is mirrored, alike, and its index is known. -/
structure Turned (before after : Destination) (tree : Snapshot) : Prop where
  mirrored : after.Mirrored
  alike : Alike before after
  saved : after.saved = before.saved
  index : after.index = tree

theorem Turned.became {before after : Destination} {tree : Snapshot}
    (turned : Turned before after tree) (plain : tree.Plain) : Became before after tree :=
  ⟨turned.mirrored.clean (turned.index ▸ plain), turned.alike, turned.saved, turned.index⟩

theorem Mirrored.write {destination : Destination} (mirrored : destination.Mirrored) {path : String}
    (straight : destination.index.Straight (TreePath.ofString path))
    (stageable : destination.Stageable path)
    (apart : ∀ other entry, destination.index.get? other = some entry →
      TreePath.Apart (TreePath.ofString path) other) (content : Bytes) :
    ∃ next, destination.apply (.write path content) = (.ok (), next) ∧
      Turned destination next (destination.index.insert (TreePath.ofString path)
        (.file content (Disk.isExecutable (destination.index.view (TreePath.ofString path))))) := by
  obtain ⟨disk, applied, holds⟩ := apply_write mirrored.holds mirrored.proper straight
    stageable.fits stageable.valid apart content
  rw [Snapshot.place_of_apart apart] at applied
  refine ⟨_, applied, ⟨mirrored.home, mirrored.working, ?_, holds⟩, ⟨rfl, rfl, rfl⟩, rfl, rfl⟩
  exact mirrored.proper.insert (TreePath.ofString_ne_nil path) stageable.valid apart _

theorem Mirrored.remove {destination : Destination} (mirrored : destination.Mirrored)
    {path : String} (stageable : destination.Stageable path)
    (apart : ∀ other entry, destination.index.get? other = some entry →
      TreePath.Apart (TreePath.ofString path) other) :
    ∃ next, destination.apply (.remove path) = (.ok (), next) ∧
      Turned destination next (Table.erase destination.index (TreePath.ofString path)) := by
  cases found : destination.index.get? (TreePath.ofString path) with
  | some entry =>
      obtain ⟨disk, applied, holds⟩ :=
        apply_remove_file mirrored.holds mirrored.proper stageable.fits found
      exact ⟨_, applied, ⟨mirrored.home, mirrored.working, mirrored.proper.erase _, holds⟩,
        ⟨rfl, rfl, rfl⟩, rfl, rfl⟩
  | none =>
      have same := Snapshot.erase_of_none found
      refine ⟨_, apply_remove_missing mirrored.holds stageable.fits stageable.valid found apart, ?_⟩
      refine ⟨⟨mirrored.home, mirrored.working, mirrored.proper.erase _, ?_⟩, ⟨rfl, rfl, rfl⟩, rfl,
        rfl⟩
      show Disk.Holds _ _ (Table.erase destination.index (TreePath.ofString path))
      rw [same]
      exact mirrored.holds

/-! ## Many changes -/

section ManyChanges

variable {destination next : Destination} {change : FileChange} {changes : List FileChange}
  {error : Error}

theorem applyAll_of_error (failed : destination.apply change = (.error error, next))
    (rest : List FileChange) :
    destination.applyAll (change :: rest) = (.error error, next) := by
  rw [applyAll, failed]

theorem applyAll_of_ok (made : destination.apply change = (.ok (), next))
    (rest : List FileChange) :
    destination.applyAll (change :: rest) = next.applyAll rest := by
  rw [applyAll, made]

/-- Changes that are all made are made one after the other. -/
theorem of_applyAll_ok (all : destination.applyAll (change :: changes) = (.ok (), next)) :
    ∃ middle, destination.apply change = (.ok (), middle) ∧
      middle.applyAll changes = (.ok (), next) := by
  rcases made : destination.apply change with ⟨error | done, middle⟩
  · rw [applyAll_of_error made] at all
    cases all
  · rw [applyAll_of_ok made] at all
    exact ⟨middle, rfl, all⟩

theorem applyAll_append (destination : Destination) (first second : List FileChange) :
    destination.applyAll (first ++ second) =
      match destination.applyAll first with
      | (.error error, next) => (.error error, next)
      | (.ok (), next) => next.applyAll second := by
  induction first generalizing destination with
  | nil => rfl
  | cons change first ih =>
      rw [List.cons_append, applyAll, applyAll]
      split
      · rfl
      · exact ih _

/-- What no change breaks the changes do not break, however far they come. -/
theorem applyAll_keeps (holds : Destination → Prop) (start : holds destination)
    (each : ∀ change ∈ changes, ∀ middle, holds middle → holds (middle.apply change).2) :
    holds (destination.applyAll changes).2 := by
  induction changes generalizing destination with
  | nil => exact start
  | cons change changes ih =>
      have first := each change List.mem_cons_self destination start
      rcases made : destination.apply change with ⟨error | done, middle⟩
      · rw [made] at first
        rw [applyAll_of_error made]
        exact first
      · rw [made] at first
        rw [applyAll_of_ok made]
        exact ih first fun c member => each c (List.mem_cons_of_mem _ member)

end ManyChanges

/-! ## The check of the paths -/

theorem checkAll_of_isSafe {changes : List FileChange}
    (safe : ∀ change ∈ changes, RelativePath.isSafe change.path = true) :
    FileChange.checkAll changes = .ok () := by
  induction changes with
  | nil => rfl
  | cons change changes ih =>
      rw [FileChange.checkAll, RelativePath.checked_of_isSafe (safe change List.mem_cons_self)]
      exact ih fun c member => safe c (List.mem_cons_of_mem _ member)

theorem checkAll_of_valid {changes : List FileChange}
    (valid : ∀ change ∈ changes, (TreePath.ofString change.path).isValid = true) :
    FileChange.checkAll changes = .ok () :=
  checkAll_of_isSafe fun change member => RelativePath.isSafe_of_isValid (valid change member)

theorem isSafe_of_checkAll {changes : List FileChange}
    (checked : FileChange.checkAll changes = .ok ()) :
    ∀ change ∈ changes, RelativePath.isSafe change.path = true := by
  induction changes with
  | nil => simp
  | cons change changes ih =>
      rw [FileChange.checkAll] at checked
      split at checked
      · cases checked
      · rename_i safe
        intro other member
        rcases List.mem_cons.1 member with rfl | member
        · exact RelativePath.isSafe_of_checked safe
        · exact ih checked other member

/-! ## Staging as a whole -/

theorem Mirrored.saveIndex {destination : Destination} (mirrored : destination.Mirrored) :
    destination.saveIndex.Mirrored := by
  refine ⟨mirrored.home, mirrored.working, mirrored.proper, ?_⟩
  have kept := mirrored.holds.fill Directory.indexFile []
  have place : destination.home ++ Directory.indexFile =
      destination.top ++ TreePath.gitDirectory :: Directory.indexFile := by
    rw [mirrored.home, List.append_assoc, List.singleton_append]
  show Disk.Holds (Directory.recordIndex destination.disk destination.home) _ _
  unfold Directory.recordIndex
  rw [place]
  exact kept

section Staging

variable {destination next : Destination} {changes : List FileChange} {error : Error}

theorem mem_removalsFirst {change : FileChange} :
    change ∈ FileChange.removalsFirst changes ↔ change ∈ changes := by
  unfold FileChange.removalsFirst
  rw [List.mem_append, List.mem_filter, List.mem_filter]
  cases change.isRemoval <;> simp

/-- Nothing is staged where a path leads out of the working tree. -/
theorem stage_of_unchecked (unchecked : FileChange.checkAll changes = .error error) :
    destination.stage changes = (.error error, destination) := by
  rw [stage, unchecked]

/-- Nothing is staged where there is no working tree. -/
theorem stage_of_bare (checked : FileChange.checkAll changes = .ok ())
    (bare : destination.bare = true) :
    destination.stage changes =
      (.error (.internal "Destination repository is bare"), destination) := by
  rw [stage, checked]
  exact if_pos bare

/-- Otherwise the changes are made, and the index is saved unless one of them fails. -/
theorem stage_eq (working : destination.bare = false)
    (checked : FileChange.checkAll changes = .ok ()) :
    destination.stage changes =
      match destination.applyAll (FileChange.removalsFirst changes) with
      | (.error error, next) => (.error error, next)
      | (.ok (), next) => (.ok (), next.saveIndex) := by
  rw [stage, checked, working]
  rfl

/-- Staging is refused before anything is done, or the changes are made. -/
theorem stage_cases (destination : Destination) (changes : List FileChange) :
    (∃ error, destination.stage changes = (.error error, destination)) ∨
      FileChange.checkAll changes = .ok () ∧ destination.bare = false ∧
        destination.stage changes =
          match destination.applyAll (FileChange.removalsFirst changes) with
          | (.error error, next) => (.error error, next)
          | (.ok (), next) => (.ok (), next.saveIndex) := by
  cases checked : FileChange.checkAll changes with
  | error error => exact Or.inl ⟨error, stage_of_unchecked checked⟩
  | ok done =>
      cases bare : destination.bare with
      | true => exact Or.inl ⟨_, stage_of_bare checked bare⟩
      | false => exact Or.inr ⟨rfl, rfl, stage_eq bare checked⟩

/-- What was staged passed the check and was made to the end. -/
theorem of_stage_ok (staged : destination.stage changes = (.ok (), next)) :
    FileChange.checkAll changes = .ok () ∧ destination.bare = false ∧
      ∃ made, destination.applyAll (FileChange.removalsFirst changes) = (.ok (), made) ∧
        next = made.saveIndex := by
  rcases stage_cases destination changes with ⟨error, refused⟩ | ⟨checked, working, whole⟩
  · cases staged.symm.trans refused
  · rw [staged] at whole
    split at whole
    · cases whole
    · rename_i made all
      cases whole
      exact ⟨checked, working, made, all, rfl⟩

/-- What no change breaks, nor that the index is saved, staging does not break, whether it
succeeds or fails. -/
theorem stage_keeps (holds : Destination → Prop) (start : holds destination)
    (each : ∀ change ∈ changes, ∀ middle, holds middle → holds (middle.apply change).2)
    (saves : ∀ middle, holds middle → holds middle.saveIndex) :
    holds (destination.stage changes).2 := by
  rcases stage_cases destination changes with ⟨error, refused⟩ | ⟨-, -, whole⟩
  · rw [refused]
    exact start
  · have made := applyAll_keeps holds start fun change member =>
      each change (mem_removalsFirst.1 member)
    rw [whole]
    split
    · rename_i failed
      rw [failed] at made
      exact made
    · rename_i done
      rw [done] at made
      exact saves _ made

end Staging

end Destination

end TokenBlame
