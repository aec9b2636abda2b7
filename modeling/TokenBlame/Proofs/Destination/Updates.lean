/-
# TokenBlame.Proofs.Destination.Updates -- what a change to a destination is made of

A write makes directories, writes a file, stores it and adds it to the index; a removal takes a
file from the disk, prunes directories and takes the file out of the index.  Each is a row of
updates (`Update`), however far it comes (`write_updates`, `remove_updates`), so what no update
breaks a change does not break (`apply_keeps`), if reading the branches again does not either.

How far a write comes is told by the disk (`write_of_unmade`, `write_of_unwritten`,
`write_of_written`), and so it is for a removal (`remove_of_removed`, `remove_of_refused`).
-/
import TokenBlame.Destination
import Mathlib.Logic.Relation

set_option autoImplicit false

namespace TokenBlame.Destination

open Git Relation

/-- The working tree is around the repository's own directory. -/
theorem top_of_home {destination : Destination} {top : TreePath} {name : Name}
    (home : destination.home = top ++ [name]) : destination.top = top := by
  unfold Destination.top
  rw [home, List.dropLast_concat]

/-- Destinations of one place have one working tree. -/
theorem top_congr {destination next : Destination} (home : next.home = destination.home) :
    next.top = destination.top :=
  congrArg List.dropLast home

/-! ## How far a change comes -/

section Outcome

variable {destination : Destination} {path : String} {content : Bytes} {place : TreePath}
  {made written disk : Disk} {error : Error}

theorem apply_eq (change : FileChange) :
    destination.apply change =
      let made := match change with
        | .write path content => destination.write path content
        | .remove path => destination.remove path
      (made.1, made.2.heed change.path) := by
  cases change <;> rfl

/-- No directory can be made. -/
theorem write_of_unmade (failed : Disk.makeDirectories destination.disk
      (destination.route path).parent = (.error error, made)) :
    destination.write path content = (.error error, { destination with disk := made }) := by
  unfold Destination.write
  dsimp only
  rw [failed]

/-- No file can be written. -/
theorem write_of_unwritten (entered : Disk.makeDirectories destination.disk
      (destination.route path).parent = (.ok place, made))
    (failed : made.write (destination.route path) content = .error error) :
    destination.write path content = (.error error, { destination with disk := made }) := by
  unfold Destination.write
  dsimp only
  rw [entered]
  dsimp only
  rw [failed]

/-- A file that was written is added to the index. -/
theorem write_of_written (entered : Disk.makeDirectories destination.disk
      (destination.route path).parent = (.ok place, made))
    (filled : made.write (destination.route path) content = .ok written) :
    destination.write path content =
      addToIndex { destination with disk := written } (TreePath.ofString path) := by
  unfold Destination.write
  dsimp only
  rw [entered]
  dsimp only
  rw [filled]

theorem addToIndex_of_entry {names : TreePath} {entry : Entry}
    (found : destination.entryAt? names = some entry) :
    destination.addToIndex names =
      if names.isValid then
        (.ok (), { destination with
          repository := destination.repository.storeContent entry
          index := destination.index.place names entry })
      else
        (.error (.git { text := "invalid path: '" ++ names.shown ++ "'" }),
          { destination with repository := destination.repository.storeContent entry }) := by
  unfold addToIndex
  rw [found]

theorem addToIndex_of_nothing {names : TreePath} (nothing : destination.entryAt? names = none) :
    destination.addToIndex names =
      (.error (.git { text := "could not read '" ++ names.shown ++ "'" }), destination) := by
  unfold addToIndex
  rw [nothing]

theorem disk_addToIndex (destination : Destination) (names : TreePath) :
    (destination.addToIndex names).2.disk = destination.disk := by
  cases found : destination.entryAt? names with
  | none => rw [addToIndex_of_nothing found]
  | some entry =>
      rw [addToIndex_of_entry found]
      split <;> rfl

/-- A removal that the disk carries out. -/
theorem remove_of_removed
    (removed : destination.disk.remove (destination.route path) = .ok disk) :
    destination.remove path =
      (.ok (), { destination with
        index := destination.index.erase (TreePath.ofString path)
        disk := disk.prune destination.top
          (TreePath.ancestors (TreePath.resolve (.ofString path))).reverse }) := by
  unfold Destination.remove
  dsimp only
  rw [removed]

/-- A removal that the disk refuses fails, unless it is because there is no such file. -/
theorem remove_of_refused
    (refused : destination.disk.remove (destination.route path) = .error error) :
    destination.remove path =
      if error = .noSuchFile then
        (.ok (), { destination with index := destination.index.erase (TreePath.ofString path) })
      else (.error error, destination) := by
  unfold Destination.remove
  dsimp only
  rw [refused]

end Outcome

/-! ## Updates -/

/-- One of the updates that changes are made of. -/
inductive Update (destination : Destination) : Destination → Prop
  | directories (route : Disk.Route) :
      Update destination
        { destination with disk := (Disk.makeDirectories destination.disk route).2 }
  | file {route : Disk.Route} {content : Bytes} {disk : Disk} :
      destination.disk.write route content = .ok disk → Update destination { destination with disk }
  | stored (entry : Entry) :
      Update destination
        { destination with repository := destination.repository.storeContent entry }
  | added (path : TreePath) (entry : Entry) :
      Update destination { destination with index := destination.index.place path entry }
  | removed {route : Disk.Route} {disk : Disk} :
      destination.disk.remove route = .ok disk → Update destination { destination with disk }
  | pruned (ways : List TreePath) :
      Update destination { destination with disk := destination.disk.prune destination.top ways }
  | dropped (path : TreePath) :
      Update destination { destination with index := destination.index.erase path }

section Updates

variable {destination next : Destination}

theorem addToIndex_updates (destination : Destination) (names : TreePath) :
    ReflTransGen Update destination (destination.addToIndex names).2 := by
  cases found : destination.entryAt? names with
  | none =>
      rewrite [addToIndex_of_nothing found]
      exact .refl
  | some entry =>
      rw [addToIndex_of_entry found]
      split
      · exact .tail (.single (.stored entry)) (.added names entry)
      · exact .single (.stored entry)

theorem write_updates (destination : Destination) (path : String) (content : Bytes) :
    ReflTransGen Update destination (destination.write path content).2 := by
  have made : Update destination _ := .directories (destination.route path).parent
  rcases entered : Disk.makeDirectories destination.disk (destination.route path).parent with
    ⟨error | place, disk⟩
  · rw [entered] at made
    rw [write_of_unmade entered]
    exact .single made
  · rw [entered] at made
    cases filled : disk.write (destination.route path) content with
    | error error =>
        rw [write_of_unwritten entered filled]
        exact .single made
    | ok written =>
        rw [write_of_written entered filled]
        have file : Update { destination with disk } { destination with disk := written } :=
          .file filled
        exact (ReflTransGen.head made (.single file)).trans (addToIndex_updates _ _)

theorem remove_updates (destination : Destination) (path : String) :
    ReflTransGen Update destination (destination.remove path).2 := by
  cases removed : destination.disk.remove (destination.route path) with
  | error error =>
      rw [remove_of_refused removed]
      split
      · exact .single (.dropped _)
      · exact .refl
  | ok disk =>
      rw [remove_of_removed removed]
      exact .tail (.tail (.single (.removed removed)) (.pruned _)) (.dropped _)

theorem keeps_of_updates (holds : Destination → Prop)
    (each : ∀ {a b}, Update a b → holds a → holds b)
    (updates : ReflTransGen Update destination next) (start : holds destination) : holds next := by
  induction updates with
  | refl => exact start
  | tail _ update ih => exact each update ih

/-- **What no update breaks** a change does not break, however far it comes. -/
theorem apply_keeps {change : FileChange} (holds : Destination → Prop)
    (each : ∀ {a b}, Update a b → holds a → holds b)
    (heeds : ∀ next, holds next → holds (next.heed change.path)) (start : holds destination) :
    holds (destination.apply change).2 := by
  rw [apply_eq]
  apply heeds
  cases change with
  | write path content =>
      exact keeps_of_updates holds each (write_updates destination path content) start
  | remove path => exact keeps_of_updates holds each (remove_updates destination path) start

end Updates

end TokenBlame.Destination
