/-
# TokenBlame.Proofs.Destination.Sheltered -- what changes leave alone

Changes of a mirrored destination that meet no link are seen nowhere but strictly below the
top of the working tree and outside the repository's own directory, whether they succeed or
fail (`Mirrored.spares_applyAll`).  So two disks look the same everywhere if their working
trees hold one snapshot and the rest was spared (`Disk.Holds.sameLooks`).
-/
import TokenBlame.Proofs.Destination.Places
import TokenBlame.Proofs.Destination.Revising
import TokenBlame.Proofs.Disk.Extensional

set_option autoImplicit false

namespace TokenBlame.Destination

open Git

variable {destination next : Destination} {change : FileChange} {changes : List FileChange}
  {place : TreePath}

/-- A place within is that of a path of the working tree. -/
theorem Within.exists_path {top home place : TreePath} (within : Within top home place)
    (own : home = top ++ [TreePath.gitDirectory]) :
    ∃ path, path ≠ [] ∧ path.head? ≠ some TreePath.gitDirectory ∧ place = top ++ path := by
  obtain ⟨⟨rest, rfl⟩, apart, outside⟩ := within
  refine ⟨rest, ?_, ?_, rfl⟩
  · rintro rfl
    exact apart (List.append_nil _)
  · intro head
    obtain ⟨rest, rfl⟩ := List.head?_eq_some_iff.1 head
    refine outside ?_
    rw [own, List.prefix_append_right_inj, List.cons_prefix_cons]
    exact ⟨rfl, List.nil_prefix⟩

/-- A change that meets no link is seen within alone. -/
theorem look_apply (own : destination.home = destination.top ++ [TreePath.gitDirectory])
    (stands : Disk.look destination.disk destination.top = some .directory)
    (valid : (TreePath.ofString change.path).isValid = true)
    (free : Disk.LinkFree destination.disk destination.top (followed change))
    (away : ¬ Within destination.top destination.home place) :
    Disk.look (destination.apply change).2.disk place = Disk.look destination.disk place := by
  have safe := RelativePath.isSafe_of_isValid valid
  have down : ∀ name ∈ followed change, name ≠ Disk.above := by
    have plain := plain_of_isSafe safe
    intro name member
    cases change with
    | write path content => exact (plain name member).down
    | remove path => exact (plain name (List.dropLast_subset _ member)).down
  obtain ⟨edits, made, marks⟩ := apply_marks stands safe
  refine made.elsewhere fun edit member same => away ?_
  obtain ⟨-, touches⟩ := marks edit member
  -- the links that an edit meets were there at first
  have before : Disk.LinkFree edit.1 destination.top (followed change) := fun way target start found =>
    free way target start (made.link_before edit member _ target found)
  exact same ▸ touches.within own safe (outside_of_isValid valid) (.of_linkFree down before)

/-- A change of a mirrored destination meets no link if its index has none on the way. -/
theorem Mirrored.linkFree (mirrored : destination.Mirrored)
    (straight : destination.index.StraightFor change)
    (valid : (TreePath.ofString change.path).isValid = true) :
    Disk.LinkFree destination.disk destination.top (followed change) := by
  have outside := TreePath.head?_ne_gitDirectory valid
  have same := resolve_of_isValid valid
  cases change with
  | write path content =>
      show Disk.LinkFree _ _ (TreePath.resolve (.ofString path))
      rw [show TreePath.resolve (.ofString path) = TreePath.ofString path from same]
      exact mirrored.holds.linkFree straight (List.prefix_refl _) outside
  | remove path =>
      show Disk.LinkFree _ _ (TreePath.resolve (.ofString path)).dropLast
      rw [show TreePath.resolve (.ofString path) = TreePath.ofString path from same]
      exact mirrored.holds.linkFree straight (List.dropLast_prefix _) outside

/-- **Changes** that meet no link spare the rest of the disk, up to the first that fails and with
what that did. -/
theorem Mirrored.spares_applyAll (mirrored : destination.Mirrored)
    (straight : destination.index.StraightAll changes)
    (valid : ∀ change ∈ changes, (TreePath.ofString change.path).isValid = true) :
    Disk.Spares destination.disk (destination.applyAll changes).2.disk destination.top := by
  induction changes generalizing destination with
  | nil => exact .refl _ _
  | cons first rest ih =>
      have own := valid first List.mem_cons_self
      have one : Disk.Spares destination.disk (destination.apply first).2.disk destination.top := by
        intro place away
        refine look_apply mirrored.home mirrored.holds.stands own (mirrored.linkFree straight.1 own) ?_
        intro within
        obtain ⟨path, nonempty, outside, same⟩ := within.exists_path mirrored.home
        exact away path nonempty outside same
      rcases applied : destination.apply first with ⟨error | done, middle⟩
      · rw [applied] at one
        rw [applyAll_of_error applied]
        exact one
      · rw [applied] at one
        rw [applyAll_of_ok applied]
        obtain ⟨-, turned, -⟩ := mirrored.of_apply_ok straight.1 own applied
        have later := ih turned.mirrored (by rw [turned.index]; exact straight.2)
          fun change member => valid change (List.mem_cons_of_mem _ member)
        rw [turned.alike.top] at later
        exact one.trans later

end TokenBlame.Destination
