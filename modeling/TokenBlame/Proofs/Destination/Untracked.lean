/-
# TokenBlame.Proofs.Destination.Untracked -- removals of paths that are not there

To remove a path that the index does not have does nothing where the index takes the path:
no file is above it and none is inside it.  The destination is then the same one behind it as
before, and so is what a list of changes makes of it.  Elsewhere the removal fails and takes
the list with it, since then the system does not say that there is no such file: the path is
a directory, or something above it is none (`untracked_removal`).

Removals go first, so it is the removals in front of it in the list that count, and no write.
-/
import TokenBlame.Proofs.Destination.AnyOrder

set_option autoImplicit false

namespace TokenBlame

open Git

namespace Git.Snapshot

variable {tree : Snapshot} {changes : List FileChange}

/-- Removals meet no link where none is above the path of one of them. -/
theorem straightAll_removals (removals : ∀ change ∈ changes, change.isRemoval = true)
    (direct : ∀ path, .remove path ∈ changes → tree.Straight (TreePath.ofString path).dropLast) :
    tree.StraightAll changes := by
  induction changes generalizing tree with
  | nil => trivial
  | cons first rest ih =>
      refine ⟨?_, ih (fun change member => removals change (List.mem_cons_of_mem _ member))
        fun path member other target start found => ?_⟩
      · cases first with
        | write path content => cases removals _ List.mem_cons_self
        | remove path => exact direct path List.mem_cons_self
      · exact direct path (List.mem_cons_of_mem _ member) other target start
          (link_of_change found).2

end Git.Snapshot

namespace Destination

section Staging

variable {destination next : Destination} {path : String} {front behind : List FileChange}

/-- A removal in a list of changes is behind the removals in front of it and before all others. -/
theorem removalsFirst_insert (front behind : List FileChange) (path : String) :
    FileChange.removalsFirst (front ++ .remove path :: behind) =
      front.filter FileChange.isRemoval ++ .remove path ::
        (behind.filter FileChange.isRemoval ++
          (front ++ behind).filter fun change => !change.isRemoval) := by
  have own : (FileChange.remove path).isRemoval = true := rfl
  simp only [FileChange.removalsFirst, List.filter_append, List.filter_cons, own, Bool.not_true,
    if_true, Bool.false_eq_true, if_false, List.append_assoc, List.cons_append]

theorem removalsFirst_append (front behind : List FileChange) :
    FileChange.removalsFirst (front ++ behind) =
      front.filter FileChange.isRemoval ++
        (behind.filter FileChange.isRemoval ++
          (front ++ behind).filter fun change => !change.isRemoval) := by
  simp [FileChange.removalsFirst]

/-- A path that is not in the index, and that the index takes, is removed without any effect. -/
theorem Mirrored.apply_remove_untracked (mirrored : destination.Mirrored)
    (stageable : destination.Stageable path)
    (untracked : destination.index.get? (TreePath.ofString path) = none)
    (takes : destination.index.Takes (TreePath.ofString path)) :
    destination.apply (.remove path) = (.ok (), destination) := by
  rw [apply_remove_missing mirrored.holds stageable.fits stageable.valid untracked takes,
    Snapshot.erase_of_none untracked]

/-- A saved index is seen in the repository's own directory alone. -/
theorem Mirrored.look_saveIndex (mirrored : destination.Mirrored) {place : TreePath}
    (away : ¬ destination.home <+: place) :
    Disk.look destination.saveIndex.disk place = Disk.look destination.disk place := by
  show Disk.look (Disk.fill destination.disk (destination.home ++ Directory.indexFile) []) place = _
  have below : ¬ destination.home ++ Directory.indexFile <+: place := fun start =>
    away ((List.prefix_append _ _).trans start)
  rw [Disk.fill_eq]
  by_cases above : place <+: destination.home ++ Directory.indexFile
  · -- what is above the file and not in the directory is above the working tree
    have upwards : place <+: destination.top := by
      rcases List.prefix_or_prefix_of_prefix above (List.prefix_append _ _) with start | start
      · rw [mirrored.home, List.prefix_concat_iff] at start
        rcases start with rfl | start
        · exact absurd (mirrored.home ▸ List.prefix_refl _) away
        · exact start
      · exact absurd start away
    have stands := Disk.look_outer upwards mirrored.holds.stands
    rw [stands]
    exact Disk.look_put_above _ above (fun same => below (same ▸ List.prefix_refl _)) stands
  · exact Disk.look_put_apart _ below above

/-- The removals in front of a removal that is put into changes lead to a destination in which it
is decided whether it makes no difference or stops the staging. -/
theorem Mirrored.stage_insert_removal (mirrored : destination.Mirrored)
    (own : (TreePath.ofString path).isValid = true)
    (valid : ∀ change ∈ front ++ behind, (TreePath.ofString change.path).isValid = true)
    (straight : ∀ other, .remove other ∈ front →
      destination.index.Straight (TreePath.ofString other).dropLast)
    (staged : destination.stage (front ++ behind) = (.ok (), next)) :
    ∃ middle,
      Turned destination middle
        (destination.index.changeAll (front.filter FileChange.isRemoval)) ∧
      (middle.apply (.remove path) = (.ok (), middle) →
        destination.stage (front ++ .remove path :: behind) = (.ok (), next)) ∧
      ∀ error, middle.apply (.remove path) = (.error error, middle) →
        destination.stage (front ++ .remove path :: behind) = (.error error, middle) := by
  have whole := stage_eq mirrored.working <|
    @checkAll_of_valid (front ++ .remove path :: behind) <| by
      intro change member
      rcases List.mem_append.1 member with inside | inside
      · exact valid change (List.mem_append_left _ inside)
      · rcases List.mem_cons.1 inside with rfl | inside
        · exact own
        · exact valid change (List.mem_append_right _ inside)
  rw [stage_eq mirrored.working (checkAll_of_valid valid), removalsFirst_append,
    applyAll_append] at staged
  rw [removalsFirst_insert, applyAll_append] at whole
  rcases all : destination.applyAll (front.filter FileChange.isRemoval) with ⟨error | done, middle⟩
  · rw [all] at staged
    cases staged
  rw [all] at staged whole
  dsimp only at staged whole
  obtain ⟨-, turned⟩ := mirrored.of_applyAll_ok
    (Snapshot.straightAll_removals (fun change member => (List.mem_filter.1 member).2)
      fun other member => straight other (List.mem_filter.1 member).1)
    (fun change member => valid change
      (List.mem_append_left _ (List.mem_filter.1 member).1)) all
  refine ⟨middle, turned, fun passes => ?_, fun error stops => ?_⟩
  · rw [whole, applyAll_of_ok passes]
    exact staged
  · rw [whole, applyAll_of_error stops]

/-- **A removal of a path that is not in the index**, put into changes that are staged otherwise,
leaves the result as it is if and only if the index takes the path behind the removals in front
of it; otherwise staging fails.  On its own it changes neither index nor working tree.  No link
may be above the path or above one that is removed before it: a removal would follow it. -/
theorem untracked_removal (mirrored : destination.Mirrored)
    (stageable : destination.Stageable path)
    (untracked : destination.index.get? (TreePath.ofString path) = none)
    (direct : destination.index.Straight (TreePath.ofString path).dropLast) :
    (destination.index.Takes (TreePath.ofString path) →
      destination.stage [.remove path] = (.ok (), destination.saveIndex) ∧
        ∀ place, ¬ destination.home <+: place →
          Disk.look destination.saveIndex.disk place = Disk.look destination.disk place) ∧
    (¬ destination.index.Takes (TreePath.ofString path) →
      ∃ error, destination.stage [.remove path] = (.error error, destination) ∧
        error.isFatal = false) ∧
    ∀ front behind next, (∀ change ∈ front ++ behind, (TreePath.ofString change.path).isValid = true) →
      (∀ other, .remove other ∈ front →
        destination.index.Straight (TreePath.ofString other).dropLast) →
      destination.stage (front ++ behind) = (.ok (), next) →
      let before := destination.index.changeAll (front.filter FileChange.isRemoval)
      (before.Takes (TreePath.ofString path) →
        destination.stage (front ++ .remove path :: behind) = (.ok (), next)) ∧
      (¬ before.Takes (TreePath.ofString path) →
        ∃ error next, destination.stage (front ++ .remove path :: behind) = (.error error, next) ∧
          error.isFatal = false) := by
  have alone := stage_eq mirrored.working (@checkAll_of_valid [.remove path]
    (List.forall_mem_singleton.2 stageable.valid))
  have single : FileChange.removalsFirst [.remove path] = [.remove path] := rfl
  rw [single, applyAll] at alone
  refine ⟨fun takes => ⟨?_, fun place => mirrored.look_saveIndex⟩, fun blocked => ?_, ?_⟩
  · rw [alone, mirrored.apply_remove_untracked stageable untracked takes]
    rfl
  · obtain ⟨error, failed, mild⟩ := @Mirrored.apply_stops _ (.remove path) mirrored direct stageable
      blocked
    rw [alone, failed]
    exact ⟨error, rfl, mild⟩
  intro front behind next valid straight staged before
  obtain ⟨middle, turned, passes, stops⟩ :=
    mirrored.stage_insert_removal stageable.valid valid straight staged
  -- what the removals in front lead to has not got the path either, and no new link
  have earlier : ∀ {place entry}, middle.index.get? place = some entry →
      destination.index.get? place = some entry := by
    intro place entry found
    rw [turned.index] at found
    exact Snapshot.get?_of_removals (fun change member => (List.mem_filter.1 member).2) found
  constructor
  · intro takes
    refine passes (turned.mirrored.apply_remove_untracked (stageable.of_alike turned.alike) ?_
      (turned.index ▸ takes))
    exact Option.eq_none_iff_forall_ne_some.2 fun entry found => by
      cases untracked.symm.trans (earlier found)
  · intro blocked
    obtain ⟨error, failed, mild⟩ := @Mirrored.apply_stops _ (.remove path) turned.mirrored
      (fun other target start found => direct other target start (earlier found))
      (stageable.of_alike turned.alike) (turned.index ▸ blocked)
    exact ⟨error, middle, stops error failed, mild⟩

end Staging

/-- To remove a directory of files fails, unless these are removed in front of it: then it makes no
difference. -/
theorem emptied_directory_removed :
    (∃ error, Swapped.destination.stage [.remove "d"] = (.error error, Swapped.destination)) ∧
    ∃ next, Swapped.destination.stage [.remove "d/e"] = (.ok (), next) ∧
      Swapped.destination.stage [.remove "d/e", .remove "d"] = (.ok (), next) := by
  have stageable : Swapped.destination.Stageable "d" :=
    ⟨⟨by decide, by decide⟩, by decide⟩
  have untracked : Swapped.destination.index.get? (TreePath.ofString "d") = none := by
    decide +kernel
  obtain ⟨-, alone, inserted⟩ := untracked_removal Swapped.mirrored stageable untracked
    fun place target _ => Swapped.unlinked place target
  constructor
  · obtain ⟨error, failed, -⟩ := alone fun takes =>
      absurd (takes (TreePath.ofString "d/e") (.file [0x78] false) (by decide +kernel)).1 (by decide)
    exact ⟨error, failed⟩
  · have staged : Swapped.destination.stage [.remove "d/e"] =
        (.ok (), (Swapped.destination.stage [.remove "d/e"]).2) :=
      Prod.ext (show (Swapped.destination.stage [.remove "d/e"]).1 = .ok () by decide +kernel) rfl
    refine ⟨_, staged, (inserted [.remove "d/e"] [] _ (by decide)
      (fun _ _ place target _ => Swapped.unlinked place target) staged).1 ?_⟩
    -- the other file is left
    intro other entry found
    obtain ⟨different, there⟩ := Snapshot.get?_of_erase
      (show (Table.erase Swapped.destination.index (TreePath.ofString "d/e")).get? other =
        some entry from found)
    have inside := Table.get?_eq_some_iff.1 there
    rw [Swapped.entries] at inside
    simp only [List.mem_cons, Prod.mk.injEq, List.not_mem_nil, or_false] at inside
    rcases inside with ⟨rfl, -⟩ | ⟨rfl, -⟩
    · exact absurd rfl different
    · exact ⟨by decide, by decide⟩

end Destination

end TokenBlame
