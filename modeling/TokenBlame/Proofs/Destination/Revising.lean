/-
# TokenBlame.Proofs.Destination.Revising -- what changes make of a snapshot

A change of the working tree is a change of a snapshot, too (`Snapshot.change`): a written
file keeps its permission, and a removed one is gone.  It can be made where the snapshot
takes its path (`Snapshot.Takes`): no file is above it, and none is inside it.

A mirrored destination makes the changes that its index takes, and leads to the changed index
(`stage_of_takes`); what it made, its index took (`of_stage_ok`).  Where a path is not taken
staging stops there: that is not fatal, and it leaves a mirrored destination with the changes
in front of that one (`stage_stops`).  So all that counts of such a destination is its index,
as long as no link is on the way of a change (`StraightAll`); in a clean one none is.
-/
import TokenBlame.Proofs.Destination.Replica

set_option autoImplicit false

namespace TokenBlame

open Git

namespace Git.Snapshot

/-! ## Changes of snapshots -/

/-- A path can be changed: no entry is above it and none is inside it. -/
def Takes (tree : Snapshot) (path : TreePath) : Prop :=
  ∀ other entry, tree.get? other = some entry → TreePath.Apart path other

/-- What a change makes of a snapshot. -/
def change (tree : Snapshot) : FileChange → Snapshot
  | .write path content => tree.insert (TreePath.ofString path)
      (.file content (Disk.isExecutable (tree.view (TreePath.ofString path))))
  | .remove path => Table.erase tree (TreePath.ofString path)

/-- What changes make of a snapshot, one after the other. -/
def changeAll (tree : Snapshot) (changes : List FileChange) : Snapshot :=
  changes.foldl change tree

/-- Each change can be made where those before it were made. -/
def TakesAll : Snapshot → List FileChange → Prop
  | _, [] => True
  | tree, first :: rest =>
      tree.Takes (TreePath.ofString first.path) ∧ (tree.change first).TakesAll rest

/-- The changes that can be made one after the other, up to one that cannot. -/
def StopsBehind (tree : Snapshot) (changes front : List FileChange) : Prop :=
  ∃ change rest, changes = front ++ change :: rest ∧ tree.TakesAll front ∧
    ¬ (tree.changeAll front).Takes (TreePath.ofString change.path)

section Change

variable {tree : Snapshot} {place : TreePath} {changes : List FileChange}

/-- What a path is seen as tells its permission only where it is a file. -/
theorem isExecutable_view (tree : Snapshot) (place : TreePath) :
    Disk.isExecutable (tree.view place) =
      match tree.get? place with
      | some (.file _ executable) => executable
      | _ => false := by
  rw [view]
  cases tree.get? place with
  | some entry => cases entry <;> rfl
  | none => cases tree.isDirectory place <;> rfl

/-- Other paths keep what they have. -/
theorem get?_change_ne {first : FileChange} (other : TreePath.ofString first.path ≠ place) :
    (tree.change first).get? place = tree.get? place := by
  cases first with
  | write path content => exact get?_insert_ne tree other _
  | remove path => exact get?_erase_ne tree other

/-- Paths that are not changed keep what they have. -/
theorem get?_changeAll_other
    (others : ∀ change ∈ changes, TreePath.ofString change.path ≠ place) :
    (tree.changeAll changes).get? place = tree.get? place := by
  induction changes generalizing tree with
  | nil => rfl
  | cons first rest ih =>
      show ((tree.change first).changeAll rest).get? place = _
      rw [ih fun change member => others change (List.mem_cons_of_mem _ member),
        get?_change_ne (others first List.mem_cons_self)]

/-- A change is seen at its path after all changes, if no other one is at that path. -/
theorem get?_changeAll_of_mem (distinct : (changes.map FileChange.path).Nodup)
    {one : FileChange} (member : one ∈ changes) :
    (tree.changeAll changes).get? (TreePath.ofString one.path) =
      (tree.change one).get? (TreePath.ofString one.path) := by
  induction changes generalizing tree with
  | nil => cases member
  | cons first rest ih =>
      rw [List.map_cons, List.nodup_cons] at distinct
      have apart : ∀ change ∈ rest, change.path ≠ first.path := fun change inside same =>
        distinct.1 (same ▸ List.mem_map_of_mem inside)
      show ((tree.change first).changeAll rest).get? _ = _
      rcases List.mem_cons.1 member with rfl | later
      · exact get?_changeAll_other fun change inside same =>
          apart change inside (TreePath.ofString_injective same)
      · have different : TreePath.ofString first.path ≠ TreePath.ofString one.path := fun same =>
          apart one later (TreePath.ofString_injective same).symm
        rw [ih distinct.2 later]
        -- what is at the path is not changed by the first change, nor is the permission
        cases one with
        | remove path => exact (get?_erase_self _ _).trans (get?_erase_self _ _).symm
        | write path content =>
            have same : (tree.change first).get? (TreePath.ofString path) =
                tree.get? (TreePath.ofString path) := get?_change_ne different
            refine (get?_insert_self _ _ _).trans ?_
            rw [isExecutable_view, same, ← isExecutable_view]
            exact (get?_insert_self _ _ _).symm

/-- A removed path has nothing, and a written one has the file that was written. -/
theorem get?_changeAll_write (distinct : (changes.map FileChange.path).Nodup) {path : String}
    {content : Bytes} (member : .write path content ∈ changes) :
    (tree.changeAll changes).get? (TreePath.ofString path) =
      some (.file content (Disk.isExecutable (tree.view (TreePath.ofString path)))) :=
  (get?_changeAll_of_mem distinct member).trans (get?_insert_self _ _ _)

theorem get?_changeAll_remove (distinct : (changes.map FileChange.path).Nodup) {path : String}
    (member : .remove path ∈ changes) :
    (tree.changeAll changes).get? (TreePath.ofString path) = none :=
  (get?_changeAll_of_mem distinct member).trans (get?_erase_self _ _)

/-- **Changes** lead from two snapshots to the same one if these have the same elsewhere, and
the same permissions where a file is written; and only then. -/
theorem changeAll_eq_iff {other : Snapshot} (distinct : (changes.map FileChange.path).Nodup) :
    other.changeAll changes = tree.changeAll changes ↔
      (∀ place, (∀ change ∈ changes, TreePath.ofString change.path ≠ place) →
        other.get? place = tree.get? place) ∧
      ∀ path content, .write path content ∈ changes →
        Disk.isExecutable (other.view (TreePath.ofString path)) =
          Disk.isExecutable (tree.view (TreePath.ofString path)) := by
  constructor
  · intro same
    refine ⟨fun place others => ?_, fun path content member => ?_⟩
    · rw [← get?_changeAll_other others, same, get?_changeAll_other others]
    · have found : (other.changeAll changes).get? (TreePath.ofString path) = _ :=
        get?_changeAll_write distinct member
      rw [same, get?_changeAll_write distinct member] at found
      exact (Entry.file.inj (Option.some.inj found)).2.symm
  · rintro ⟨elsewhere, permissions⟩
    apply Table.ext_get?
    intro place
    by_cases changed : ∃ change ∈ changes, TreePath.ofString change.path = place
    · obtain ⟨change, member, rfl⟩ := changed
      cases change with
      | write path content =>
          have permission := permissions path content member
          refine (get?_changeAll_write distinct member).trans ?_
          rw [permission]
          exact (get?_changeAll_write distinct member).symm
      | remove path =>
          exact (get?_changeAll_remove distinct member).trans
            (get?_changeAll_remove distinct member).symm
    · have others : ∀ change ∈ changes, TreePath.ofString change.path ≠ place :=
        fun change member same => changed ⟨change, member, same⟩
      rw [get?_changeAll_other others, get?_changeAll_other others, elsewhere place others]

/-- What is there after changes was there before, or is at a path of a change. -/
theorem get?_of_changeAll {entry : Entry}
    (found : (tree.changeAll changes).get? place = some entry) :
    tree.get? place = some entry ∨ ∃ change ∈ changes, TreePath.ofString change.path = place := by
  by_cases changed : ∃ change ∈ changes, TreePath.ofString change.path = place
  · exact Or.inr changed
  · refine Or.inl ?_
    rw [← found, get?_changeAll_other fun change member same => changed ⟨change, member, same⟩]

/-- There is only one place to stop at. -/
theorem StopsBehind.unique {front other : List FileChange} (stops : tree.StopsBehind changes front)
    (also : tree.StopsBehind changes other) : front = other := by
  induction front generalizing tree changes other with
  | nil =>
      obtain ⟨change, rest, whole, -, blocked⟩ := stops
      cases other with
      | nil => rfl
      | cons first other =>
          obtain ⟨_, _, also, taken, -⟩ := also
          obtain ⟨rfl, -⟩ := List.cons.inj (whole.symm.trans also)
          exact absurd taken.1 blocked
  | cons first front ih =>
      obtain ⟨change, rest, whole, ⟨own, taken⟩, blocked⟩ := stops
      cases other with
      | nil =>
          obtain ⟨_, _, also, -, refused⟩ := also
          obtain ⟨rfl, -⟩ := List.cons.inj (whole.symm.trans also)
          exact absurd own refused
      | cons next other =>
          obtain ⟨change', rest', also, ⟨-, taken'⟩, blocked'⟩ := also
          obtain ⟨rfl, same⟩ := List.cons.inj (whole.symm.trans also)
          rw [ih ⟨change, rest, rfl, taken, blocked⟩ ⟨change', rest', same, taken', blocked'⟩]

/-- Those in front can be made. -/
theorem StopsBehind.takesAll {front : List FileChange} (stops : tree.StopsBehind changes front) :
    tree.TakesAll front := by
  obtain ⟨change, rest, -, takes, -⟩ := stops
  exact takes

theorem StopsBehind.isPrefix {front : List FileChange} (stops : tree.StopsBehind changes front) :
    front <+: changes := by
  obtain ⟨change, rest, rfl, -, -⟩ := stops
  exact List.prefix_append _ _

/-! ## Links on the way -/

/-- No link is on the way of a change: above its path, or at the path of a file that is
written. -/
def StraightFor (tree : Snapshot) : FileChange → Prop
  | .write path _ => tree.Straight (TreePath.ofString path)
  | .remove path => tree.Straight (TreePath.ofString path).dropLast

/-- No link is on the way of each change where those before it were made. -/
def StraightAll : Snapshot → List FileChange → Prop
  | _, [] => True
  | tree, first :: rest => tree.StraightFor first ∧ (tree.change first).StraightAll rest

/-- A link that is there after a change was there before, and not at its path. -/
theorem link_of_change {first : FileChange} {target : Bytes}
    (found : (tree.change first).get? place = some (.link target)) :
    TreePath.ofString first.path ≠ place ∧ tree.get? place = some (.link target) := by
  by_cases same : TreePath.ofString first.path = place
  · subst same
    cases first with
    | write path content =>
        have found := (get?_insert_self _ _ _).symm.trans found
        cases Option.some.inj found
    | remove path =>
        have found := (get?_erase_self _ _).symm.trans found
        cases found
  · rw [get?_change_ne same] at found
    exact ⟨same, found⟩

theorem straightAll_of_unlinked (unlinked : ∀ place target, tree.get? place ≠ some (.link target))
    (changes : List FileChange) : tree.StraightAll changes := by
  induction changes generalizing tree with
  | nil => trivial
  | cons first rest ih =>
      refine ⟨?_, ih fun place target found => unlinked place target (link_of_change found).2⟩
      cases first with
      | write path content => exact fun place target _ => unlinked place target
      | remove path => exact fun place target _ => unlinked place target

theorem Plain.straightAll (plain : tree.Plain) (changes : List FileChange) :
    tree.StraightAll changes :=
  straightAll_of_unlinked (fun place target => plain.straight place place target (List.prefix_refl _))
    changes

theorem Plain.changeAll (plain : tree.Plain)
    (valid : ∀ change ∈ changes, (TreePath.ofString change.path).isValid = true)
    (takes : tree.TakesAll changes) : (tree.changeAll changes).Plain := by
  induction changes generalizing tree with
  | nil => exact plain
  | cons first rest ih =>
      refine ih ?_ (fun change member => valid change (List.mem_cons_of_mem _ member)) takes.2
      have own := valid first List.mem_cons_self
      cases first with
      | write path content =>
          exact plain.insert (TreePath.ofString_ne_nil path) own takes.1 content _
      | remove path => exact plain.erase (TreePath.ofString path)

end Change

end Git.Snapshot

namespace Destination

variable {destination next : Destination} {changes : List FileChange} {path : String}

/-! ## One change -/

section OneChange

variable {change : FileChange}

/-- A change that the index takes is made, unless a link is on its way. -/
theorem Mirrored.apply_of_takes (mirrored : destination.Mirrored)
    (straight : destination.index.StraightFor change)
    (stageable : destination.Stageable change.path)
    (takes : destination.index.Takes (TreePath.ofString change.path)) :
    ∃ next, destination.apply change = (.ok (), next) ∧
      Turned destination next (destination.index.change change) := by
  cases change with
  | write path content => exact mirrored.write straight stageable takes content
  | remove path => exact mirrored.remove stageable takes

/-- A change that the index does not take is not made, and nothing changes. -/
theorem Mirrored.apply_stops (mirrored : destination.Mirrored)
    (straight : destination.index.StraightFor change)
    (stageable : destination.Stageable change.path)
    (stops : ¬ destination.index.Takes (TreePath.ofString change.path)) :
    ∃ error, destination.apply change = (.error error, destination) ∧ error.isFatal = false := by
  obtain ⟨other, entry, found, blocked⟩ : ∃ other entry,
      destination.index.get? other = some entry ∧
        ¬ TreePath.Apart (TreePath.ofString change.path) other := by
    simpa only [Snapshot.Takes, not_forall, exists_prop] using stops
  cases change with
  | remove path =>
      exact apply_remove_blocked mirrored.holds mirrored.proper straight stageable.fits
        stageable.valid found blocked
  | write path content =>
      have stageable : destination.Stageable path := stageable
      have blocked : ¬ TreePath.Apart (TreePath.ofString path) other := blocked
      have steps := TreePath.isPlain_of_isValid stageable.valid
      obtain ⟨lead, name, names⟩ := TreePath.exists_concat (TreePath.ofString_ne_nil path)
      have parent := Disk.makeDirectories_parent destination.disk names steps
        (stageable.fits.parent names steps).1
      obtain ⟨error, failed, mild⟩ : ∃ error,
          destination.write path content = (.error error, destination) ∧
            error.isFatal = false := by
        rcases mirrored.holds.write_blocked mirrored.proper straight stageable.fits names
          stageable.valid found blocked content with ⟨error, failed, mild⟩ | ⟨entered, failed⟩
        · exact ⟨error, write_of_unmade (parent.trans failed), mild⟩
        · exact ⟨_, write_of_unwritten (parent.trans entered) failed, rfl⟩
      exact ⟨error, (apply_write_outside (outside_of_isValid stageable.valid) _).trans failed, mild⟩

/-- What was made the index took, and the system its path, unless there was nothing to remove. -/
theorem Mirrored.of_apply_ok (mirrored : destination.Mirrored)
    (straight : destination.index.StraightFor change)
    (valid : (TreePath.ofString change.path).isValid = true)
    (applied : destination.apply change = (.ok (), next)) :
    destination.index.Takes (TreePath.ofString change.path) ∧
      Turned destination next (destination.index.change change) ∧
      ((change.isRemoval = true →
          destination.index.get? (TreePath.ofString change.path) ≠ none) →
        destination.Stageable change.path) := by
  cases change with
  | write path content =>
      obtain ⟨-, place, made, written, entered, filled⟩ := of_apply_write applied
      obtain ⟨fits, takes⟩ := mirrored.holds.of_write mirrored.proper straight valid entered filled
      obtain ⟨next', applied', turned⟩ := mirrored.write straight ⟨fits, valid⟩ takes content
      cases applied.symm.trans applied'
      exact ⟨takes, turned, fun _ => ⟨fits, valid⟩⟩
  | remove path =>
      have valid : (TreePath.ofString path).isValid = true := valid
      obtain ⟨missing, present⟩ := mirrored.holds.of_remove mirrored.proper straight valid
      have outside := outside_of_isValid valid
      cases removed : destination.disk.remove (destination.route path) with
      | error error =>
          rw [apply_remove_refused outside removed] at applied
          split at applied
          · rename_i none
            obtain ⟨absent, takes⟩ := missing (none ▸ removed)
            cases applied
            refine ⟨takes, ⟨⟨mirrored.home, mirrored.working, mirrored.proper.erase _, ?_⟩,
              ⟨rfl, rfl, rfl⟩, rfl, rfl⟩, fun there => absurd absent (there rfl)⟩
            show Disk.Holds _ _ (Table.erase destination.index (TreePath.ofString path))
            have same : Table.erase destination.index (TreePath.ofString path) = destination.index :=
              Snapshot.erase_of_none absent
            rw [same]
            exact mirrored.holds
          · cases applied
      | ok without =>
          obtain ⟨rfl, short, entry, found⟩ := present without removed
          have takes : destination.index.Takes (TreePath.ofString path) :=
            fun other entry' there => mirrored.proper.apart _ _ _ _ found there
          have holds := mirrored.holds.erase mirrored.proper short found
          rw [apply_remove_done outside removed, resolve_of_isValid valid] at applied
          cases applied
          exact ⟨takes, ⟨⟨mirrored.home, mirrored.working, mirrored.proper.erase _, holds⟩,
            ⟨rfl, rfl, rfl⟩, rfl, rfl⟩,
            fun _ => ⟨⟨(Disk.remove_eq_ok_iff.1 removed).1, short⟩, valid⟩⟩

end OneChange

/-! ## Many changes -/

theorem Turned.trans {first second third : Destination} {tree tree' : Snapshot}
    (one : Turned first second tree) (two : Turned second third tree') :
    Turned first third tree' :=
  ⟨two.mirrored, one.alike.trans two.alike, two.saved.trans one.saved, two.index⟩

/-- Changes that the index takes are made. -/
theorem Mirrored.applyAll_of_takes (mirrored : destination.Mirrored)
    (straight : destination.index.StraightAll changes)
    (stageable : ∀ change ∈ changes, destination.Stageable change.path)
    (takes : destination.index.TakesAll changes) :
    ∃ next, destination.applyAll changes = (.ok (), next) ∧
      Turned destination next (destination.index.changeAll changes) := by
  induction changes generalizing destination with
  | nil => exact ⟨destination, rfl, mirrored, .refl _, rfl, rfl⟩
  | cons first rest ih =>
      obtain ⟨own, later⟩ := takes
      obtain ⟨middle, applied, turned⟩ :=
        mirrored.apply_of_takes straight.1 (stageable first List.mem_cons_self) own
      obtain ⟨next, all, end_⟩ := ih turned.mirrored (by rw [turned.index]; exact straight.2)
        (fun change member =>
          (stageable change (List.mem_cons_of_mem _ member)).of_alike turned.alike)
        (by rw [turned.index]; exact later)
      rw [turned.index] at end_
      exact ⟨next, (applyAll_of_ok applied rest).trans all, turned.trans end_⟩

/-- Changes stop at the first that is not taken, and those in front of it are made. -/
theorem Mirrored.applyAll_stops (mirrored : destination.Mirrored)
    (straight : destination.index.StraightAll changes)
    (stageable : ∀ change ∈ changes, destination.Stageable change.path)
    (stops : ¬ destination.index.TakesAll changes) :
    ∃ error next front, destination.applyAll changes = (.error error, next) ∧
      error.isFatal = false ∧ destination.index.StopsBehind changes front ∧
      Turned destination next (destination.index.changeAll front) := by
  induction changes generalizing destination with
  | nil => exact absurd trivial stops
  | cons first rest ih =>
      by_cases own : destination.index.Takes (TreePath.ofString first.path)
      · obtain ⟨middle, applied, turned⟩ :=
          mirrored.apply_of_takes straight.1 (stageable first List.mem_cons_self) own
        obtain ⟨error, next, front, all, mild, ⟨change, later, whole, taken, blocked⟩, end_⟩ :=
          ih turned.mirrored (by rw [turned.index]; exact straight.2)
            (fun change member =>
              (stageable change (List.mem_cons_of_mem _ member)).of_alike turned.alike)
            (by rw [turned.index]; exact fun later => stops ⟨own, later⟩)
        rw [turned.index] at end_ taken blocked
        exact ⟨error, next, first :: front, (applyAll_of_ok applied rest).trans all, mild,
          ⟨change, later, by rw [whole, List.cons_append], ⟨own, taken⟩, blocked⟩,
          turned.trans end_⟩
      · obtain ⟨error, failed, mild⟩ :=
          mirrored.apply_stops straight.1 (stageable first List.mem_cons_self) own
        exact ⟨error, destination, [], applyAll_of_error failed rest, mild,
          ⟨first, rest, rfl, trivial, own⟩, mirrored, .refl _, rfl, rfl⟩

/-- Changes that were made the index took. -/
theorem Mirrored.of_applyAll_ok (mirrored : destination.Mirrored)
    (straight : destination.index.StraightAll changes)
    (valid : ∀ change ∈ changes, (TreePath.ofString change.path).isValid = true)
    (applied : destination.applyAll changes = (.ok (), next)) :
    destination.index.TakesAll changes ∧
      Turned destination next (destination.index.changeAll changes) := by
  induction changes generalizing destination with
  | nil =>
      cases applied
      exact ⟨trivial, mirrored, .refl _, rfl, rfl⟩
  | cons first rest ih =>
      obtain ⟨middle, made, others⟩ := Destination.of_applyAll_ok applied
      obtain ⟨own, turned, -⟩ :=
        mirrored.of_apply_ok straight.1 (valid first List.mem_cons_self) made
      obtain ⟨later, end_⟩ := ih turned.mirrored (by rw [turned.index]; exact straight.2)
        (fun change member => valid change (List.mem_cons_of_mem _ member)) others
      rw [turned.index] at later end_
      exact ⟨⟨own, later⟩, turned.trans end_⟩

/-! ## Staging -/

/-- The index of a mirrored destination is saved. -/
theorem Turned.saveIndex {before after : Destination} {tree : Snapshot}
    (turned : Turned before after tree) :
    after.saveIndex.Mirrored ∧ Alike before after.saveIndex ∧ after.saveIndex.index = tree ∧
      after.saveIndex.saved = tree :=
  ⟨turned.mirrored.saveIndex, turned.alike.trans ⟨rfl, rfl, rfl⟩, turned.index, turned.index⟩

/-- **Changes that the index takes are staged.** -/
theorem Mirrored.stage_of_takes (mirrored : destination.Mirrored)
    (straight : destination.index.StraightAll (FileChange.removalsFirst changes))
    (stageable : ∀ change ∈ changes, destination.Stageable change.path)
    (takes : destination.index.TakesAll (FileChange.removalsFirst changes)) :
    ∃ next, destination.stage changes = (.ok (), next) ∧ next.Mirrored ∧ Alike destination next ∧
      next.index = destination.index.changeAll (FileChange.removalsFirst changes) ∧
      next.saved = destination.index.changeAll (FileChange.removalsFirst changes) := by
  have checked := checkAll_of_valid fun change member => (stageable change member).valid
  obtain ⟨next, all, turned⟩ := mirrored.applyAll_of_takes straight
    (fun change member => stageable change (mem_removalsFirst.1 member)) takes
  refine ⟨next.saveIndex, ?_, turned.saveIndex⟩
  rw [stage_eq mirrored.working checked, all]

/-- **Changes that the index does not take** stop part-way, and those in front are made. -/
theorem Mirrored.stage_stops (mirrored : destination.Mirrored)
    (straight : destination.index.StraightAll (FileChange.removalsFirst changes))
    (stageable : ∀ change ∈ changes, destination.Stageable change.path)
    (stops : ¬ destination.index.TakesAll (FileChange.removalsFirst changes)) :
    ∃ error next front, destination.stage changes = (.error error, next) ∧
      error.isFatal = false ∧
      destination.index.StopsBehind (FileChange.removalsFirst changes) front ∧
      Turned destination next (destination.index.changeAll front) := by
  have checked := checkAll_of_valid fun change member => (stageable change member).valid
  obtain ⟨error, next, front, all, mild, begins, turned⟩ := mirrored.applyAll_stops straight
    (fun change member => stageable change (mem_removalsFirst.1 member)) stops
  refine ⟨error, next, front, ?_, mild, begins, turned⟩
  rw [stage_eq mirrored.working checked, all]

/-- **What was staged** the index took. -/
theorem Mirrored.of_stage_ok (mirrored : destination.Mirrored)
    (straight : destination.index.StraightAll (FileChange.removalsFirst changes))
    (valid : ∀ change ∈ changes, (TreePath.ofString change.path).isValid = true)
    (staged : destination.stage changes = (.ok (), next)) :
    destination.index.TakesAll (FileChange.removalsFirst changes) ∧ next.Mirrored ∧
      Alike destination next ∧
      next.index = destination.index.changeAll (FileChange.removalsFirst changes) ∧
      next.saved = destination.index.changeAll (FileChange.removalsFirst changes) := by
  obtain ⟨-, -, middle, all, rfl⟩ := Destination.of_stage_ok staged
  obtain ⟨takes, turned⟩ := mirrored.of_applyAll_ok straight
    (fun change member => valid change (mem_removalsFirst.1 member)) all
  exact ⟨takes, turned.saveIndex⟩

/-! ## Clean destinations -/

theorem Clean.stage_of_takes (clean : destination.Clean)
    (stageable : ∀ change ∈ changes, destination.Stageable change.path)
    (takes : destination.index.TakesAll (FileChange.removalsFirst changes)) :
    ∃ next, destination.stage changes = (.ok (), next) ∧ next.Clean ∧ Alike destination next ∧
      next.index = destination.index.changeAll (FileChange.removalsFirst changes) ∧
      next.saved = destination.index.changeAll (FileChange.removalsFirst changes) := by
  obtain ⟨next, staged, mirrored, alike, index, saved⟩ :=
    clean.mirrored.stage_of_takes (clean.plain.straightAll _) stageable takes
  refine ⟨next, staged, mirrored.clean ?_, alike, index, saved⟩
  rw [index]
  exact clean.plain.changeAll
    (fun change member => (stageable change (mem_removalsFirst.1 member)).valid) takes

theorem Clean.stage_stops (clean : destination.Clean)
    (stageable : ∀ change ∈ changes, destination.Stageable change.path)
    (stops : ¬ destination.index.TakesAll (FileChange.removalsFirst changes)) :
    ∃ error next front, destination.stage changes = (.error error, next) ∧
      error.isFatal = false ∧
      destination.index.StopsBehind (FileChange.removalsFirst changes) front ∧
      Became destination next (destination.index.changeAll front) := by
  obtain ⟨error, next, front, staged, mild, begins, turned⟩ :=
    clean.mirrored.stage_stops (clean.plain.straightAll _) stageable stops
  refine ⟨error, next, front, staged, mild, begins, turned.became ?_⟩
  refine clean.plain.changeAll (fun change member => ?_) begins.takesAll
  exact (stageable change (mem_removalsFirst.1 (begins.isPrefix.subset member))).valid

theorem Clean.of_stage_ok (clean : destination.Clean)
    (valid : ∀ change ∈ changes, (TreePath.ofString change.path).isValid = true)
    (staged : destination.stage changes = (.ok (), next)) :
    destination.index.TakesAll (FileChange.removalsFirst changes) ∧ next.Clean ∧
      Alike destination next ∧
      next.index = destination.index.changeAll (FileChange.removalsFirst changes) ∧
      next.saved = destination.index.changeAll (FileChange.removalsFirst changes) := by
  obtain ⟨takes, mirrored, alike, index, saved⟩ :=
    clean.mirrored.of_stage_ok (clean.plain.straightAll _) valid staged
  refine ⟨takes, mirrored.clean ?_, alike, index, saved⟩
  rw [index]
  exact clean.plain.changeAll (fun change member => valid change (mem_removalsFirst.1 member)) takes

/-- The paths of changes stay apart from each other when removals go first. -/
theorem nodup_removalsFirst (distinct : (changes.map FileChange.path).Nodup) :
    ((FileChange.removalsFirst changes).map FileChange.path).Nodup := by
  refine ((List.Perm.map _ ?_).nodup_iff).2 distinct
  exact List.filter_append_perm FileChange.isRemoval changes

end Destination

end TokenBlame
