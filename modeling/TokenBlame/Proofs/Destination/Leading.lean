/-
# TokenBlame.Proofs.Destination.Leading -- changes that lead to a snapshot

Removals go first and make room for what is written.  So changes can be made where each path
that is removed is taken, and where no path is inside another, of those that are left and those
that are written (`takesAll_removalsFirst`).

Changes that lead to a snapshot of files (`LeadsTo`) are staged without fail into a clean
destination, and leave it with that snapshot (`Clean.stage_to`).  Where a path that is gone
already is not apart from what is there, they are not staged (`Clean.stage_blocked`).
-/
import TokenBlame.Proofs.Destination.Revising

set_option autoImplicit false

namespace TokenBlame

open Git

namespace Git.Snapshot

variable {tree : Snapshot} {place : TreePath} {changes more : List FileChange}

/-! ## Removals -/

/-- What is there behind removals was there before. -/
theorem get?_of_removals (removals : ∀ change ∈ changes, change.isRemoval = true) {entry : Entry}
    (found : (tree.changeAll changes).get? place = some entry) : tree.get? place = some entry := by
  induction changes generalizing tree with
  | nil => exact found
  | cons first rest ih =>
      have before := ih (fun change member => removals change (List.mem_cons_of_mem _ member)) found
      cases first with
      | write path content => cases removals _ List.mem_cons_self
      | remove path => exact (get?_of_erase before).2

/-- Behind removals none of their paths has anything. -/
theorem get?_removed (removals : ∀ change ∈ changes, change.isRemoval = true)
    {change : FileChange} (member : change ∈ changes) :
    (tree.changeAll changes).get? (TreePath.ofString change.path) = none := by
  induction changes generalizing tree with
  | nil => cases member
  | cons first rest ih =>
      have others : ∀ change ∈ rest, change.isRemoval = true := fun change member =>
        removals change (List.mem_cons_of_mem _ member)
      rcases List.mem_cons.1 member with rfl | later
      · refine Option.eq_none_iff_forall_ne_some.2 fun entry found => ?_
        have left := get?_of_removals others found
        cases change with
        | write path content => cases removals _ List.mem_cons_self
        | remove path => cases left.symm.trans (get?_erase_self _ _)
      · exact ih others later

/-- Paths that are taken can all be removed. -/
theorem takesAll_removals (removals : ∀ change ∈ changes, change.isRemoval = true)
    (takes : ∀ change ∈ changes, tree.Takes (TreePath.ofString change.path)) :
    tree.TakesAll changes := by
  induction changes generalizing tree with
  | nil => trivial
  | cons first rest ih =>
      refine ⟨takes first List.mem_cons_self,
        ih (fun change member => removals change (List.mem_cons_of_mem _ member))
          fun change member other entry found => ?_⟩
      exact takes change (List.mem_cons_of_mem _ member) other entry
        (get?_of_removals (List.forall_mem_singleton.2 (removals first List.mem_cons_self)) found)

/-- Removals of what is gone leave the snapshot as it is, so each of their paths is taken by it. -/
theorem takes_of_removals (removals : ∀ change ∈ changes, change.isRemoval = true)
    (gone : ∀ change ∈ changes, tree.get? (TreePath.ofString change.path) = none)
    (takes : tree.TakesAll changes) :
    ∀ change ∈ changes, tree.Takes (TreePath.ofString change.path) := by
  induction changes generalizing tree with
  | nil => exact fun _ member => nomatch member
  | cons first rest ih =>
      have same : tree.change first = tree := by
        cases first with
        | write path content => cases removals _ List.mem_cons_self
        | remove path =>
            have absent : tree.get? (TreePath.ofString path) = none :=
              gone (.remove path) List.mem_cons_self
            exact erase_of_none absent
      obtain ⟨own, later⟩ := takes
      rw [same] at later
      exact List.forall_mem_cons.2 ⟨own,
        ih (fun change member => removals change (List.mem_cons_of_mem _ member))
          (fun change member => gone change (List.mem_cons_of_mem _ member)) later⟩

/-! ## Removals first -/

theorem takesAll_append : tree.TakesAll (changes ++ more) ↔
    tree.TakesAll changes ∧ (tree.changeAll changes).TakesAll more := by
  induction changes generalizing tree with
  | nil => simp [TakesAll, changeAll]
  | cons first rest ih => simp only [List.cons_append, TakesAll, ih, and_assoc]; rfl

/-- Changes can be made where no path is inside another, of those that are there and those that
are changed. -/
theorem takesAll_of_apart {wanted : TreePath → Prop}
    (apart : ∀ a b, wanted a → wanted b → TreePath.Apart a b)
    (held : ∀ place entry, tree.get? place = some entry → wanted place)
    (asked : ∀ change ∈ changes, wanted (TreePath.ofString change.path)) :
    tree.TakesAll changes := by
  induction changes generalizing tree with
  | nil => trivial
  | cons first rest ih =>
      have own := asked first List.mem_cons_self
      refine ⟨fun place entry found => apart _ _ own (held place entry found), ?_⟩
      refine ih (fun place entry found => ?_) fun change member =>
        asked change (List.mem_cons_of_mem _ member)
      by_cases same : TreePath.ofString first.path = place
      · exact same ▸ own
      · exact held place entry ((get?_change_ne same).symm.trans found)

/-- **Removals make room** for what is written: of the paths that are left and those that are
written none has to be inside another. -/
theorem takesAll_removalsFirst {wanted : TreePath → Prop}
    (apart : ∀ a b, wanted a → wanted b → TreePath.Apart a b)
    (removed : ∀ path, .remove path ∈ changes → tree.Takes (TreePath.ofString path))
    (kept : ∀ place entry, tree.get? place = some entry →
      (∀ path, .remove path ∈ changes → TreePath.ofString path ≠ place) → wanted place)
    (written : ∀ path content, .write path content ∈ changes → wanted (TreePath.ofString path)) :
    tree.TakesAll (FileChange.removalsFirst changes) := by
  have removals : ∀ change ∈ changes.filter FileChange.isRemoval, change.isRemoval = true :=
    fun change member => (List.mem_filter.1 member).2
  refine takesAll_append.2 ⟨takesAll_removals removals ?_, takesAll_of_apart apart ?_ ?_⟩
  · intro change member
    obtain ⟨inside, removal⟩ := List.mem_filter.1 member
    cases change with
    | write path content => cases removal
    | remove path => exact removed path inside
  · intro place entry found
    refine kept place entry (get?_of_removals removals found) ?_
    rintro path member rfl
    have absent : (tree.changeAll (changes.filter FileChange.isRemoval)).get?
        (TreePath.ofString path) = none :=
      @get?_removed tree _ removals (.remove path) (List.mem_filter.2 ⟨member, rfl⟩)
    cases found.symm.trans absent
  · intro change member
    obtain ⟨inside, write⟩ := List.mem_filter.1 member
    cases change with
    | write path content => exact written path content inside
    | remove path => cases write

end Git.Snapshot

namespace Destination

/-- No file of the index is executable. -/
def Regular (destination : Destination) : Prop :=
  ∀ place entry, destination.index.get? place = some entry → ∃ content, entry = .file content false

/-- Changes that lead from a snapshot to another one. -/
structure LeadsTo (before goal : Snapshot) (changes : List FileChange) : Prop where
  /-- A removed path is not in the new snapshot, and no directory of the old one. -/
  removed : ∀ path, .remove path ∈ changes → goal.get? (TreePath.ofString path) = none ∧
    ∀ other entry, before.get? other = some entry → TreePath.Apart (TreePath.ofString path) other
  /-- A written path has in the new snapshot what is written. -/
  written : ∀ path content, .write path content ∈ changes →
    goal.get? (TreePath.ofString path) = some (.file content false)
  /-- Other paths have in the new snapshot what they have in the old one. -/
  others : ∀ place, (∀ change ∈ changes, TreePath.ofString change.path ≠ place) →
    goal.get? place = before.get? place

section Leading

variable {destination : Destination} {goal : Snapshot} {changes : List FileChange}

theorem isExecutable_of_regular (regular : destination.Regular) (place : TreePath) :
    Disk.isExecutable (destination.index.view place) = false := by
  rw [Snapshot.isExecutable_view]
  split
  · rename_i found
    obtain ⟨content, same⟩ := regular place _ found
    exact (Entry.file.inj same).2
  · rfl

/-- Changes that lead to a snapshot of files can be made. -/
theorem LeadsTo.takesAll {before : Snapshot} (leads : LeadsTo before goal changes)
    (plain : goal.Plain) : before.TakesAll (FileChange.removalsFirst changes) := by
  refine @Snapshot.takesAll_removalsFirst _ _ (fun place => ∃ entry, goal.get? place = some entry)
    ?_ (fun path member => (leads.removed path member).2) ?_
    fun path content member => ⟨_, leads.written path content member⟩
  · rintro a b ⟨_, one⟩ ⟨_, other⟩
    exact plain.apart _ _ _ _ one other
  · intro place entry found away
    by_cases touched : ∃ change ∈ changes, TreePath.ofString change.path = place
    · obtain ⟨change, member, rfl⟩ := touched
      cases change with
      | write path content => exact ⟨_, leads.written path content member⟩
      | remove path => exact absurd rfl (away path member)
    · exact ⟨entry, (leads.others place fun change member same =>
        touched ⟨change, member, same⟩).trans found⟩

/-- Changes lead to one snapshot only. -/
theorem LeadsTo.changeAll_eq (leads : LeadsTo destination.index goal changes)
    (regular : destination.Regular) (distinct : (changes.map FileChange.path).Nodup) :
    destination.index.changeAll (FileChange.removalsFirst changes) = goal := by
  have distinct := nodup_removalsFirst distinct
  apply Table.ext_get?
  intro place
  by_cases touched : ∃ change ∈ changes, TreePath.ofString change.path = place
  · obtain ⟨change, member, rfl⟩ := touched
    have inside := mem_removalsFirst.2 member
    cases change with
    | write path content =>
        refine (Snapshot.get?_changeAll_write distinct inside).trans ?_
        rw [isExecutable_of_regular regular]
        exact (leads.written path content member).symm
    | remove path =>
        exact (Snapshot.get?_changeAll_remove distinct inside).trans
          (leads.removed path member).1.symm
  · refine (Snapshot.get?_changeAll_other fun change member same => ?_).trans
      (leads.others place fun change member same => touched ⟨change, member, same⟩).symm
    exact touched ⟨change, mem_removalsFirst.1 member, same⟩

/-- **Changes that lead to a snapshot are staged**, and leave a clean destination with that
snapshot. -/
theorem Clean.stage_to (clean : destination.Clean) (regular : destination.Regular)
    (plain : goal.Plain) (distinct : (changes.map FileChange.path).Nodup)
    (stageable : ∀ change ∈ changes, destination.Stageable change.path)
    (leads : LeadsTo destination.index goal changes) :
    ∃ next, destination.stage changes = (.ok (), next) ∧ next.Clean ∧ Alike destination next ∧
      next.index = goal ∧ next.saved = goal := by
  obtain ⟨next, staged, clean', alike, index, saved⟩ :=
    clean.stage_of_takes stageable (leads.takesAll plain)
  rw [leads.changeAll_eq regular distinct] at index saved
  exact ⟨next, staged, clean', alike, index, saved⟩

/-- Where what was removed is not apart from what is there, the changes are not staged. -/
theorem Clean.stage_blocked (clean : destination.Clean)
    (stageable : ∀ change ∈ changes, destination.Stageable change.path)
    (gone : ∀ path, .remove path ∈ changes →
      destination.index.get? (TreePath.ofString path) = none)
    (blocked : ∃ path, .remove path ∈ changes ∧ ∃ other entry,
      destination.index.get? other = some entry ∧ ¬ TreePath.Apart (TreePath.ofString path) other) :
    ∃ error next, destination.stage changes = (.error error, next) ∧ error.isFatal = false := by
  have stops : ¬ destination.index.TakesAll (FileChange.removalsFirst changes) := by
    intro takes
    obtain ⟨path, member, other, entry, found, touching⟩ := blocked
    refine touching (Snapshot.takes_of_removals (fun change member => (List.mem_filter.1 member).2)
      (fun change member => ?_) (Snapshot.takesAll_append.1 takes).1 (.remove path)
      (List.mem_filter.2 ⟨member, rfl⟩) other entry found)
    obtain ⟨inside, removal⟩ := List.mem_filter.1 member
    cases change with
    | write path content => cases removal
    | remove path => exact gone path inside
  obtain ⟨error, next, _, failed, mild, -⟩ := clean.stage_stops stageable stops
  exact ⟨error, next, failed, mild⟩

end Leading

end Destination

end TokenBlame
