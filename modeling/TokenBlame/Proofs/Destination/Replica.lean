/-
# TokenBlame.Proofs.Destination.Replica -- the same changes on any disk

A destination may have files in its index that its working tree has not: a path that is
not straight takes a file out of the working tree and leaves the index alone.  The index
backs the working tree all the same (`Backs`), and what becomes of both depends on nothing
else.  Where changes were made on one disk, they are made on every other disk whose working
tree holds the same snapshot, and they lead to the same destination (`Leads`).
-/
import TokenBlame.Proofs.Destination.Sealing
import TokenBlame.Proofs.Disk.Order
import TokenBlame.Proofs.Disk.Twin

set_option autoImplicit false

namespace TokenBlame

open Git

namespace Destination

/-! ## Backed working trees -/

/-- The index has all files of a working tree, and only files that fit there. -/
structure Backs (top : TreePath) (destination : Destination) (tree : Snapshot) : Prop where
  home : destination.home = top ++ [TreePath.gitDirectory]
  working : destination.bare = false
  plain : destination.index.Plain
  taken : ∀ place entry, destination.index.get? place = some entry → ∃ path content,
    TreePath.ofString path = place ∧ Disk.Fits top (Utf8.encode path) ∧ entry = .file content false
  inner : ∀ place entry, tree.get? place = some entry → destination.index.get? place = some entry

section Backs

variable {top : TreePath} {destination next : Destination} {tree : Snapshot}

theorem Backs.place (backs : Backs top destination tree) : destination.top = top :=
  top_of_home backs.home

theorem Backs.held (backs : Backs top destination tree) : tree.Plain where
  files place entry found := backs.plain.files place entry (backs.inner place entry found)
  nonempty place entry found := backs.plain.nonempty place entry (backs.inner place entry found)
  valid place entry found := backs.plain.valid place entry (backs.inner place entry found)
  apart a b ea eb foundA foundB :=
    backs.plain.apart a b ea eb (backs.inner a ea foundA) (backs.inner b eb foundB)

/-- No file of the working tree is executable. -/
theorem Backs.regular (backs : Backs top destination tree) (place : TreePath) :
    Disk.isExecutable (tree.view place) = false := by
  unfold Disk.isExecutable
  split
  · rename_i seen
    obtain ⟨path, content, -, -, same⟩ :=
      backs.taken _ _ (backs.inner _ _ (Snapshot.view_eq_entry.1 seen))
    cases same
    rfl
  · rfl

/-- On every disk whose working tree holds the one snapshot, an action leads to the same
destination, and its working tree holds the other snapshot. -/
def Leads (top : TreePath) (action : Destination → Except Error Unit × Destination)
    (before : Destination) (tree : Snapshot) (after : Destination) (tree' : Snapshot) : Prop :=
  ∀ disk : Disk, disk.Keeps top tree → ∃ disk' : Disk,
    action { before with disk } = (.ok (), { after with disk := disk' }) ∧ disk'.Keeps top tree'

end Backs

/-! ## One change -/

section OneChange

variable {top : TreePath} {destination next : Destination} {disk : Disk} {tree : Snapshot}
  {path : String}

theorem disk_heed (destination : Destination) (path : String) :
    (destination.heed path).disk = destination.disk := by
  unfold heed
  split <;> rfl

/-- A change keeps directories in order. -/
theorem ordered_apply (ordered : Disk.Ordered destination.disk top) (change : FileChange) :
    Disk.Ordered (destination.apply change).2.disk top := by
  refine apply_keeps (fun next => Disk.Ordered next.disk top) (fun update ordered => ?_)
    (fun next ordered => ?_) ordered
  · cases update with
    | directories route => exact ordered.makeDirectories route
    | file written => exact ordered.write written
    | removed removed => exact ordered.remove removed
    | pruned ways => exact ordered.prune _ ways
    | stored | added | dropped => exact ordered
  · rw [disk_heed]
    exact ordered

/-- Changes keep directories in order, as far as they are made. -/
theorem ordered_applyAll (ordered : Disk.Ordered destination.disk top) (changes : List FileChange) :
    Disk.Ordered (destination.applyAll changes).2.disk top :=
  applyAll_keeps (fun next => Disk.Ordered next.disk top) ordered fun change _ _ ordered =>
    ordered_apply ordered change

/-- So does staging. -/
theorem ordered_stage (ordered : Disk.Ordered destination.disk top) (changes : List FileChange) :
    Disk.Ordered (destination.stage changes).2.disk top :=
  stage_keeps (fun next => Disk.Ordered next.disk top) ordered
    (fun change _ _ ordered => ordered_apply ordered change) fun _ ordered => ordered.fill _ _ _

/-- Where a write was made, the path may stand in a tree, and its file was written. -/
theorem of_apply_write {content : Bytes}
    (applied : destination.apply (.write path content) = (.ok (), next)) :
    (TreePath.ofString path).isValid = true ∧ ∃ place made written,
      Disk.makeDirectories destination.disk (destination.route path).parent = (.ok place, made) ∧
        made.write (destination.route path) content = .ok written := by
  have done : (destination.write path content).1 = .ok () := congrArg Prod.fst applied
  rcases entered : Disk.makeDirectories destination.disk (destination.route path).parent with
    ⟨error | place, made⟩
  · rw [write_of_unmade entered] at done
    cases done
  cases filled : made.write (destination.route path) content with
  | error error =>
      rw [write_of_unwritten entered filled] at done
      cases done
  | ok written =>
      refine ⟨?_, place, made, written, rfl, filled⟩
      rw [write_of_written entered filled] at done
      cases found : entryAt? { destination with disk := written } (TreePath.ofString path) with
      | none =>
          rw [addToIndex_of_nothing found] at done
          cases done
      | some entry =>
          rw [addToIndex_of_entry found] at done
          split at done
          · assumption
          · cases done

/-- **A write** that was made on one disk is made on every other. -/
theorem Backs.write (backs : Backs top destination tree) (keeps : disk.Keeps top tree)
    {content : Bytes}
    (applied : ({ destination with disk } : Destination).apply (.write path content) = (.ok (), next)) :
    ∃ tree', Backs top next tree' ∧ Alike destination next ∧ next.saved = destination.saved ∧
      Leads top (·.apply (.write path content)) destination tree next tree' := by
  obtain rfl := backs.place
  obtain ⟨valid, place, made, written, entered, filled⟩ := of_apply_write applied
  obtain ⟨fits, apart⟩ := keeps.holds.of_write backs.held.proper (backs.held.straight _) valid
    entered filled
  have every : ∀ disk : Disk, disk.Keeps destination.top tree → ∃ disk' : Disk,
      ({ destination with disk } : Destination).apply (.write path content) =
        (.ok (), { destination with
          repository := destination.repository.storeContent (.file content false)
          index := destination.index.place (TreePath.ofString path) (.file content false)
          disk := disk' }) ∧
      disk'.Keeps destination.top (tree.insert (TreePath.ofString path) (.file content false)) := by
    intro disk keeps
    obtain ⟨disk', made, holds⟩ := @apply_write { destination with disk } tree path keeps.holds
      backs.held.proper (backs.held.straight _) fits valid apart content
    rw [backs.regular] at made holds
    have ordered := @ordered_apply _ { destination with disk } keeps.ordered (.write path content)
    rw [made] at ordered
    exact ⟨disk', made, holds, ordered⟩
  obtain ⟨disk', made, -⟩ := every disk keeps
  rw [applied] at made
  cases made
  refine ⟨_, ⟨backs.home, backs.working, ?_, ?_, ?_⟩, ⟨rfl, rfl, rfl⟩, rfl, every⟩
  · exact backs.plain.place (TreePath.ofString_ne_nil path) valid content false
  · intro place entry found
    rcases Snapshot.get?_place found with ⟨same, rfl⟩ | ⟨-, there, -⟩
    · exact ⟨path, content, same, fits, rfl⟩
    · exact backs.taken place entry there
  · intro place entry found
    by_cases same : TreePath.ofString path = place
    · subst same
      rw [Snapshot.get?_insert_self] at found
      cases found
      unfold Snapshot.place
      rw [Snapshot.get?_insert_self]
    · rw [Snapshot.get?_insert_ne _ same] at found
      exact Snapshot.get?_place_apart same (apart place entry found) (backs.inner place entry found)

/-- Without a path, the index backs what is left of the snapshot without it. -/
theorem Backs.erase (backs : Backs top destination tree) (disk : Disk) {tree' : Snapshot}
    (less : ∀ place entry, tree'.get? place = some entry →
      tree.get? place = some entry ∧ place ≠ TreePath.ofString path) :
    Backs top
      { destination with index := destination.index.erase (TreePath.ofString path), disk } tree' := by
  refine ⟨backs.home, backs.working, backs.plain.erase _, ?_, ?_⟩
  · intro place entry found
    exact backs.taken place entry (Snapshot.get?_of_erase found).2
  · intro place entry found
    obtain ⟨there, different⟩ := less place entry found
    show (Table.erase destination.index (TreePath.ofString path)).get? place = some entry
    rw [Snapshot.get?_erase_ne _ (Ne.symm different)]
    exact backs.inner place entry there

/-- Where a removal failed on the disk and was passed over, the snapshot has no such file. -/
theorem Backs.ne_of_refused (backs : Backs destination.top destination tree)
    (keeps : disk.Keeps destination.top tree) {error : Error}
    (refused : disk.remove (destination.route path) = .error error) {place : TreePath}
    {entry : Entry} (found : tree.get? place = some entry) : place ≠ TreePath.ofString path := by
  rintro rfl
  obtain ⟨path', -, same, fits, -⟩ := backs.taken _ _ (backs.inner _ _ found)
  rw [TreePath.ofString_injective same] at fits
  cases (keeps.holds.remove_file backs.held.proper fits found).symm.trans refused

/-- **A removal** that was made on one disk is made on every other. -/
theorem Backs.remove (backs : Backs top destination tree) (keeps : disk.Keeps top tree)
    (safe : RelativePath.isSafe path = true) (outside : Outside path)
    (applied : ({ destination with disk } : Destination).apply (.remove path) = (.ok (), next)) :
    ∃ tree', Backs top next tree' ∧ Alike destination next ∧ next.saved = destination.saved ∧
      Leads top (·.apply (.remove path)) destination tree next tree' := by
  obtain rfl := backs.place
  obtain ⟨lead, name, blanks, names, nonempty, blank⟩ := RelativePath.name_of_isSafe safe
  have twin := fun (other : Disk) (also : other.Keeps destination.top tree) =>
    keeps.holds.remove_twin also.holds backs.held names nonempty blank
      (RelativePath.down_of_isSafe safe) outside
  -- what the first disk did, every other one does
  rcases twin disk keeps with ⟨error, refused, -⟩ | ⟨entry, found, short, removed, -⟩
  · have passed := applied
    rw [@apply_remove_refused { destination with disk } path error outside refused] at passed
    split at passed
    · rename_i missing
      cases passed
      refine ⟨tree, backs.erase disk fun place entry found =>
        ⟨found, backs.ne_of_refused keeps refused found⟩, ⟨rfl, rfl, rfl⟩, rfl,
        fun other also => ⟨other, ?_, also⟩⟩
      rcases twin other also with ⟨error', one, two⟩ | ⟨-, -, -, one, -⟩
      · cases one.symm.trans refused
        exact (@apply_remove_refused { destination with disk := other } path error outside
          two).trans (if_pos missing)
      · cases one.symm.trans refused
    · cases passed
  · rw [@apply_remove_done { destination with disk } path _ outside removed] at applied
    cases applied
    refine ⟨Table.erase tree (TreePath.resolve (TreePath.ofString path)),
      backs.erase _ fun place entry' there => ?_, ⟨rfl, rfl, rfl⟩, rfl, fun other also => ?_⟩
    · obtain ⟨different, inTree⟩ := Snapshot.get?_of_erase there
      refine ⟨inTree, ?_⟩
      rintro rfl
      exact different (resolve_of_isValid (backs.held.valid _ _ inTree))
    · have taken : other.remove (Destination.route { destination with disk := other } path) =
          .ok (other.erase (destination.top ++ TreePath.resolve (TreePath.ofString path))) := by
        rcases twin other also with ⟨error, one, -⟩ | ⟨-, -, -, -, two⟩
        · cases one.symm.trans removed
        · exact two
      have made := @apply_remove_done { destination with disk := other } path _ outside taken
      have ordered := @ordered_apply destination.top { destination with disk := other }
        also.ordered (.remove path)
      rw [made] at ordered
      exact ⟨_, made, also.holds.erase backs.held.proper short found, ordered⟩

end OneChange

/-! ## Many changes -/

section ManyChanges

variable {top : TreePath} {destination next : Destination} {disk : Disk} {tree : Snapshot}
  {changes : List FileChange}

theorem Backs.moved (backs : Backs top destination tree) (disk : Disk) :
    Backs top { destination with disk } tree :=
  ⟨backs.home, backs.working, backs.plain, backs.taken, backs.inner⟩

/-- What was led to from one disk is on a disk that keeps the other snapshot. -/
theorem Leads.keeps {action : Destination → Except Error Unit × Destination} {tree' : Snapshot}
    (leads : Leads top action destination tree next tree') (keeps : disk.Keeps top tree)
    (done : action { destination with disk } = (.ok (), next)) : next.disk.Keeps top tree' := by
  obtain ⟨disk', made, keeps'⟩ := leads disk keeps
  rw [done] at made
  have same : next.disk = disk' := congrArg (fun result => result.2.disk) made
  rw [same]
  exact keeps'

theorem Backs.apply (backs : Backs top destination tree) (keeps : disk.Keeps top tree)
    {change : FileChange} (safe : RelativePath.isSafe change.path = true)
    (outside : ∀ path, change = .remove path → Outside path)
    (applied : ({ destination with disk } : Destination).apply change = (.ok (), next)) :
    ∃ tree', Backs top next tree' ∧ Alike destination next ∧ next.saved = destination.saved ∧
      Leads top (·.apply change) destination tree next tree' := by
  cases change with
  | write path content => exact backs.write keeps applied
  | remove path => exact backs.remove keeps safe (outside path rfl) applied

/-- Changes that were made on one disk are made on every other. -/
theorem Backs.applyAll (backs : Backs top destination tree) (keeps : disk.Keeps top tree)
    (safe : ∀ change ∈ changes, RelativePath.isSafe change.path = true)
    (outside : ∀ path, .remove path ∈ changes → Outside path)
    (applied : ({ destination with disk } : Destination).applyAll changes = (.ok (), next)) :
    ∃ tree', Backs top next tree' ∧ Alike destination next ∧ next.saved = destination.saved ∧
      Leads top (·.applyAll changes) destination tree next tree' := by
  induction changes generalizing destination disk tree with
  | nil =>
      cases applied
      exact ⟨tree, backs.moved disk, ⟨rfl, rfl, rfl⟩, rfl, fun other also => ⟨other, rfl, also⟩⟩
  | cons change changes ih =>
      obtain ⟨middle, first, rest⟩ := of_applyAll_ok applied
      obtain ⟨between, backs', alike, saved, leads⟩ := backs.apply keeps
        (safe change List.mem_cons_self)
        (fun path same => outside path (same ▸ List.mem_cons_self)) first
      obtain ⟨tree', backsNext, alike', saved', leads'⟩ := ih backs'
        (leads.keeps keeps first) (fun c member => safe c (List.mem_cons_of_mem _ member))
        (fun path member => outside path (List.mem_cons_of_mem _ member)) rest
      refine ⟨tree', backsNext, alike.trans alike', saved'.trans saved, fun other also => ?_⟩
      obtain ⟨disk', made, keeps'⟩ := leads other also
      obtain ⟨disk'', all, keeps''⟩ := leads' disk' keeps'
      exact ⟨disk'', (applyAll_of_ok made _).trans all, keeps''⟩

/-- Saving the index writes into the repository's own directory only. -/
theorem keeps_recordIndex {home : TreePath} (own : home = top ++ [TreePath.gitDirectory])
    (keeps : disk.Keeps top tree) : (Directory.recordIndex disk home).Keeps top tree := by
  have place : home ++ Directory.indexFile =
      top ++ TreePath.gitDirectory :: Directory.indexFile := by
    rw [own, List.append_assoc, List.singleton_append]
  unfold Directory.recordIndex
  refine ⟨?_, keeps.ordered.fill _ _ _⟩
  rw [place]
  exact keeps.holds.fill _ _

/-- Writing down the branches keeps the order of names. -/
theorem ordered_recordBranches (ordered : Disk.Ordered disk top) (home : TreePath) (bare : Bool)
    (repository : Repository) :
    Disk.Ordered (Directory.recordBranches disk home bare repository) top := by
  unfold Directory.recordBranches
  generalize repository.branches.entries.flatMap _ = files
  induction files generalizing disk with
  | nil => exact ordered
  | cons file files ih => exact ih (ordered.fill _ _ _)

/-- The directory of a new repository is in order. -/
theorem ordered_create {disk : Disk} (ordered : Disk.Ordered disk top) (home : TreePath)
    (bare : Bool) : Disk.Ordered (Directory.create disk home bare) top := by
  have inside : ∀ entry ∈ Directory.skeleton bare, Disk.Ordered entry.2 [] := by
    unfold Directory.skeleton
    simp only [List.forall_mem_cons, List.not_mem_nil, false_implies, implies_true, and_true]
    exact ⟨Disk.ordered_file _ _ _, Disk.ordered_file _ _ _, Disk.ordered_file _ _ _,
      Disk.ordered_file _ _ _, Disk.ordered_file _ _ _, Disk.ordered_vacant _,
      Disk.ordered_vacant _, Disk.ordered_vacant _, Disk.ordered_vacant _⟩
  unfold Directory.create
  generalize Directory.skeleton bare = files at inside
  induction files generalizing disk with
  | nil => exact ordered
  | cons file files ih =>
      exact ih (ordered.put (inside file List.mem_cons_self) _)
        fun entry member => inside entry (List.mem_cons_of_mem _ member)

/-- Writing down the branches writes into the repository's own directory only. -/
theorem keeps_recordBranches {home : TreePath} (own : home = top ++ [TreePath.gitDirectory])
    (keeps : disk.Keeps top tree) (bare : Bool) (repository : Repository) :
    (Directory.recordBranches disk home bare repository).Keeps top tree :=
  ⟨own ▸ keeps.holds.recordBranches bare repository,
    ordered_recordBranches keeps.ordered home bare repository⟩

/-- **What was staged** on one disk is staged on every other. -/
theorem Backs.stage (backs : Backs top destination tree) (keeps : disk.Keeps top tree)
    (outside : ∀ path, .remove path ∈ changes → Outside path)
    (staged : ({ destination with disk } : Destination).stage changes = (.ok (), next)) :
    ∃ tree', Backs top next tree' ∧ Alike destination next ∧ next.saved = next.index ∧
      Leads top (·.stage changes) destination tree next tree' := by
  obtain ⟨checked, -, middle, all, rfl⟩ := of_stage_ok staged
  obtain ⟨tree', backs', alike, -, leads⟩ := backs.applyAll keeps
    (fun change member => isSafe_of_checkAll checked change (mem_removalsFirst.1 member))
    (fun path member => outside path (mem_removalsFirst.1 member)) all
  refine ⟨tree', ⟨backs'.home, backs'.working, backs'.plain, backs'.taken, backs'.inner⟩,
    alike.trans ⟨rfl, rfl, rfl⟩, rfl, fun other also => ?_⟩
  obtain ⟨disk', made, keeps'⟩ := leads other also
  refine ⟨Directory.recordIndex disk' middle.home, ?_, keeps_recordIndex backs'.home keeps'⟩
  dsimp only at made ⊢
  rw [@stage_eq { destination with disk := other } changes backs.working checked, made]
  rfl

end ManyChanges

end Destination

end TokenBlame
