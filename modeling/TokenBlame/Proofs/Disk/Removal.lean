/-
# TokenBlame.Proofs.Disk.Removal -- removing a file from a working tree

A file of the snapshot that a working tree holds is removed, and one that is apart from it
is not there (`Holds.remove_file`, `Holds.remove_missing`).  The directories that are left
on the way to a removed file are pruned until one has something in it, and the working tree
holds the snapshot without the file then (`Holds.erase`).
-/
import TokenBlame.Proofs.Disk.Outcome
import TokenBlame.Proofs.Disk.Worktree

set_option autoImplicit false

namespace TokenBlame.Disk

open Git

section Paths

variable {top : TreePath} {path : Bytes}

/-! ## Removing a file -/

/-- An entry of the snapshot has its place in the working tree. -/
theorem Holds.site_entry {disk : Disk} {tree : Snapshot} {names : TreePath}
    (holds : Holds disk top tree) (proper : tree.Proper) (short : ∀ n ∈ names, n.length ≤ maxName)
    {entry : Entry} (found : tree.get? names = some entry) :
    ∃ place, site disk top names = .ok place ∧ place.isPlain = true ∧ place.slashed = false ∧
      place.place = top ++ names ∧ look disk (top ++ names) = some (.entry entry) := by
  have valid := proper.valid _ _ found
  have nonempty := proper.nonempty _ _ found
  have seen := holds.seen_entry proper found
  have steps := TreePath.isPlain_of_isValid valid
  obtain ⟨lead, name, rfl⟩ := TreePath.exists_concat nonempty
  have directories : ∀ way, way <+: lead → look disk (top ++ way) = some .directory :=
    fun way start => look_toward (TreePath.isInside_concat_iff.2 start) seen
  exact ⟨_, site_of_directories steps short directories, isPlain_site (steps name (by simp)), rfl,
    place_site, seen⟩

/-- A file of the snapshot is removed. -/
theorem Holds.remove_file {disk : Disk} {tree : Snapshot} (holds : Holds disk top tree)
    (proper : tree.Proper) (fits : Fits top path) {entry : Entry}
    (found : tree.get? (TreePath.split path) = some entry) :
    disk.remove (.within top path) = .ok (disk.erase (top ++ TreePath.split path)) := by
  obtain ⟨place, at_, named, slashed, there, seen⟩ := holds.site_entry proper fits.short found
  rw [remove_of_site fits.accepted at_ named slashed, there, seen]

/-- Where a path is apart from the snapshot, there is no such file. -/
theorem Holds.remove_missing {disk : Disk} {tree : Snapshot} (holds : Holds disk top tree)
    (fits : Fits top path) (valid : (TreePath.split path).isValid = true)
    (absent : tree.get? (TreePath.split path) = none)
    (apart : ∀ other entry, tree.get? other = some entry →
      TreePath.Apart (TreePath.split path) other) :
    disk.remove (.within top path) = .error .noSuchFile := by
  have steps := TreePath.isPlain_of_isValid valid
  have outside := TreePath.head?_ne_gitDirectory valid
  have nonempty := TreePath.split_ne_nil path
  obtain ⟨lead, name, names⟩ := TreePath.exists_concat nonempty
  have own : TreePath.IsPlain name := steps name (names ▸ by simp)
  have before : lead <+: TreePath.split path := names ▸ List.prefix_append _ _
  have opened : ∀ way entry, way <+: lead → look disk (top ++ way) ≠ some (.entry entry) := by
    intro way entry start
    refine holds.opened outside (fun other e there => (apart other e there).2) way entry
      (start.trans before) ?_
    rintro rfl
    exact TreePath.not_prefix_of_longer (List.prefix_refl _) (names ▸ start)
  have free : LinkFree disk top lead := fun way target start => opened way _ start
  have found := site_short holds.stands
    (show ∀ n ∈ lead ++ [name], TreePath.IsPlain n from names ▸ steps) free
    (fits.short name (names ▸ by simp))
  rw [← names] at found
  rcases reach_open (fun n member => fits.short n (before.subset member)) opened with there | missing
  · rw [there] at found
    have nothing : look disk (top ++ TreePath.split path) = none := by
      rw [holds.seen _ nonempty outside, Snapshot.view, absent]
      dsimp only
      rw [if_neg]
      intro directory
      obtain ⟨inner, e, inTree, inside⟩ := Snapshot.isDirectory_iff.1 directory
      rw [(apart inner e inTree).1] at inside
      cases inside
    rw [remove_of_site fits.accepted found (isPlain_site own) rfl, place_site, ← names, nothing]
  · rw [missing] at found
    exact remove_of_no_site fits.accepted found

/-- Where a path is not apart from the snapshot and not in it, it cannot be removed: it is
a directory, or a file is above it. -/
theorem Holds.remove_blocked {disk : Disk} {tree : Snapshot} (holds : Holds disk top tree)
    (proper : tree.Proper) (straight : tree.Straight (TreePath.split path).dropLast)
    (fits : Fits top path) (valid : (TreePath.split path).isValid = true)
    {other : TreePath} {entry : Entry} (found : tree.get? other = some entry)
    (blocked : ¬ TreePath.Apart (TreePath.split path) other) :
    disk.remove (.within top path) = .error .isDirectory ∨
      disk.remove (.within top path) = .error .notDirectory := by
  have steps := TreePath.isPlain_of_isValid valid
  obtain ⟨lead, name, names⟩ := TreePath.exists_concat (TreePath.split_ne_nil path)
  have own : TreePath.IsPlain name := steps name (names ▸ by simp)
  have before : lead <+: TreePath.split path := names ▸ List.prefix_append _ _
  rcases holds.of_blocked proper found (names ▸ blocked) with directory | above
  · left
    have directories : ∀ way, way <+: lead → look disk (top ++ way) = some .directory :=
      fun way begins => look_outer
        ((List.prefix_append_right_inj _).2 (begins.trans (List.prefix_append _ _))) directory
    have at_ := site_of_directories (names ▸ steps) (names ▸ fits.short) directories
    rw [← names] at at_
    rw [remove_of_site fits.accepted at_ (isPlain_site own) rfl, place_site, directory]
  · right
    rw [names, List.dropLast_concat] at straight
    have free : LinkFree disk top lead :=
      holds.linkFree straight before (TreePath.head?_ne_gitDirectory valid)
    have at_ := site_plain holds.stands
      (show ∀ n ∈ lead ++ [name], TreePath.IsPlain n from names ▸ steps) free
    rw [← names, reach_blocked (fun n member => fits.short n (before.subset member)) above
      (proper.nonempty _ _ found) (holds.seen_entry proper found)] at at_
    exact remove_of_no_site fits.accepted at_

end Paths

/-! ## Pruning directories -/

/-- A working tree that holds a snapshot, but for directories that are left on the way to a
path. -/
structure Leftover (disk : Disk) (top : TreePath) (tree : Snapshot) (way : TreePath) : Prop where
  stands : look disk top = some .directory
  seen : ∀ other, other ≠ [] → other.head? ≠ some TreePath.gitDirectory →
    look disk (top ++ other) =
      match tree.view other with
      | some seen => some seen
      | none => if other <+: way then some .directory else none

theorem Leftover.holds {disk : Disk} {top : TreePath} {tree : Snapshot}
    (left : Leftover disk top tree []) : Holds disk top tree := by
  refine ⟨left.stands, fun other nonempty outside => ?_⟩
  rw [left.seen other nonempty outside]
  cases tree.view other with
  | some seen => rfl
  | none => simp [nonempty]

theorem Holds.leftover {disk : Disk} {top : TreePath} {tree : Snapshot}
    (holds : Holds disk top tree) : Leftover disk top tree [] := by
  refine ⟨holds.stands, fun other nonempty outside => ?_⟩
  rw [holds.seen other nonempty outside]
  cases tree.view other with
  | some seen => rfl
  | none => simp [nonempty]

/-- What is left on the way to a path is one directory after the other. -/
theorem Leftover.directory {disk : Disk} {top : TreePath} {tree : Snapshot} {way : TreePath}
    (left : Leftover disk top tree way) (outside : way.head? ≠ some TreePath.gitDirectory)
    (free : ∀ other entry, other <+: way → tree.get? other ≠ some entry) (other : TreePath)
    (start : other <+: way) : look disk (top ++ other) = some .directory := by
  cases other with
  | nil => rw [List.append_nil, left.stands]
  | cons name rest =>
      have head : (name :: rest).head? = way.head? := TreePath.head?_of_above start (by simp)
      rw [left.seen _ (by simp) (head ▸ outside)]
      cases seen : tree.view (name :: rest) with
      | none => simp [start]
      | some what =>
          cases what with
          | directory => rfl
          | entry entry => exact absurd (Snapshot.view_eq_entry.1 seen) (free _ entry start)

/-- Nothing is seen below an empty directory. -/
theorem look_below_vacant {disk : Disk} {place rest : TreePath}
    (vacant : disk.at? place = some (.directory [])) (below : rest ≠ []) :
    look disk (place ++ rest) = none := by
  rw [look_append, vacant, Option.bind_some]
  show look .vacant rest = none
  rw [look_vacant, if_neg below]

section Prune

variable {disk : Disk} {top : TreePath} {tree : Snapshot} {way : TreePath} {name : Name}

/-- The snapshot has nothing at a directory that is left and empty. -/
theorem Leftover.unseen (left : Leftover disk top tree (way ++ [name]))
    (outside : (way ++ [name]).head? ≠ some TreePath.gitDirectory)
    (free : ∀ other entry, other <+: way ++ [name] → tree.get? other ≠ some entry)
    (vacant : disk.at? (top ++ (way ++ [name])) = some (.directory [])) {other : TreePath}
    (start : way ++ [name] <+: other) : tree.view other = none := by
  have below : ∀ rest, rest ≠ [] → tree.view (way ++ [name] ++ rest) = none := by
    intro rest some
    have nothing := look_below_vacant vacant some
    have head : (way ++ [name] ++ rest).head? = (way ++ [name]).head? :=
      (TreePath.head?_of_above (List.prefix_append _ _) (by simp)).symm
    rw [List.append_assoc, left.seen _ (by simp) (head ▸ outside)] at nothing
    cases seen : tree.view (way ++ [name] ++ rest) with
    | none => rfl
    | some what =>
        rw [seen] at nothing
        cases nothing
  obtain ⟨rest, rfl⟩ := start
  by_cases some : rest = []
  · subst some
    rw [List.append_nil]
    refine Snapshot.view_eq_none.2
      ⟨Option.eq_none_iff_forall_ne_some.2 fun entry => free _ entry (List.prefix_refl _), ?_⟩
    -- what makes it a directory of the snapshot would be seen below it
    rw [Bool.eq_false_iff]
    intro directory
    obtain ⟨inner, entry, there, inside⟩ := Snapshot.isDirectory_iff.1 directory
    obtain ⟨⟨further, rfl⟩, different⟩ := TreePath.isInside_iff.1 inside
    have seen := (below further (by simpa using different)).symm.trans (Snapshot.view_of_get? there)
    cases seen
  · exact below rest some

/-- Where the innermost directory that is left is empty, it goes. -/
theorem Leftover.erase (left : Leftover disk top tree (way ++ [name]))
    (outside : (way ++ [name]).head? ≠ some TreePath.gitDirectory)
    (free : ∀ other entry, other <+: way ++ [name] → tree.get? other ≠ some entry)
    (vacant : disk.at? (top ++ (way ++ [name])) = some (.directory [])) :
    Leftover (disk.erase (top ++ (way ++ [name]))) top tree way := by
  refine ⟨(look_erase_outer (by simp) disk top).trans left.stands, fun other some outside' => ?_⟩
  rw [look_erase (by simp)]
  simp only [List.prefix_append_right_inj]
  split
  · rename_i start
    rw [left.unseen outside free vacant start]
    simp [TreePath.not_prefix_of_longer start]
  · rename_i notBelow
    have same : other <+: way ++ [name] ↔ other <+: way := by
      rw [List.prefix_concat_iff]
      constructor
      · rintro (rfl | above)
        · exact absurd (List.prefix_refl _) notBelow
        · exact above
      · exact Or.inr
    rw [left.seen other some outside']
    simp only [same]

/-- Where the innermost directory that is left is not empty, nothing is left over. -/
theorem Leftover.holds_of_entry (left : Leftover disk top tree (way ++ [name]))
    (outside : (way ++ [name]).head? ≠ some TreePath.gitDirectory)
    {entry : Name × Node} {entries : List (Name × Node)}
    (there : disk.at? (top ++ (way ++ [name])) = some (.directory (entry :: entries))) :
    Holds disk top tree := by
  -- what stands in the directory belongs to the snapshot
  have inside : tree.view (way ++ [name] ++ [entry.1]) ≠ none := by
    intro none
    have head : (way ++ [name] ++ [entry.1]).head? = (way ++ [name]).head? :=
      (TreePath.head?_of_above (List.prefix_append _ _) (by simp)).symm
    have nothing := left.seen (way ++ [name] ++ [entry.1]) (by simp) (head ▸ outside)
    have longer : ¬ way ++ [name] ++ [entry.1] <+: way ++ [name] :=
      TreePath.not_prefix_of_longer (List.prefix_refl _)
    rw [none] at nothing
    simp only [if_neg longer] at nothing
    rw [← List.append_assoc, look_append, there, Option.bind_some, look_cons, Node.entries,
      lookup_cons_name, if_pos rfl] at nothing
    simp at nothing
  have directory : ∀ other, other <+: way ++ [name] → tree.isDirectory other = true := by
    intro other start
    exact Snapshot.isDirectory_of_view inside (TreePath.isInside_concat_iff.2 start)
  refine ⟨left.stands, fun other some outside' => ?_⟩
  rw [left.seen other some outside']
  cases seen : tree.view other with
  | some what => rfl
  | none =>
      dsimp only
      rw [if_neg]
      intro start
      have closed := (Snapshot.view_eq_none.1 seen).2
      rw [directory other start] at closed
      cases closed

/-- **Pruning** takes away the directories that are left on the way to a path. -/
theorem Leftover.prune {path : TreePath} {n : Nat} (within : n ≤ path.length)
    (left : Leftover disk top tree (path.take n))
    (plain : ∀ n ∈ path, TreePath.IsPlain n) (short : ∀ n ∈ path, n.length ≤ maxName)
    (outside : path.head? ≠ some TreePath.gitDirectory)
    (free : ∀ other entry, other <+: path.take n → tree.get? other ≠ some entry) :
    Holds (Disk.prune disk top (TreePath.upwards path n)) top tree := by
  induction n generalizing disk with
  | zero => exact left.holds
  | succ n ih =>
      obtain ⟨name, shape⟩ : ∃ name, path.take (n + 1) = path.take n ++ [name] :=
        ⟨_, List.take_succ_eq_append_getElem (by omega)⟩
      have before : path.take n ++ [name] <+: path := shape ▸ List.take_prefix _ _
      have head : (path.take n ++ [name]).head? = path.head? :=
        TreePath.head?_of_above before (by simp)
      rw [shape] at left free
      have outside' : (path.take n ++ [name]).head? ≠ some TreePath.gitDirectory := head ▸ outside
      have directories := left.directory outside' free
      have at_ := site_of_directories (fun n member => plain n (before.subset member))
        (fun n member => short n (before.subset member))
        fun way start => directories way (start.trans (List.prefix_append _ _))
      have removed := removeDirectory_of_site at_
      obtain ⟨entries, there⟩ := look_eq_directory.1 (directories _ (List.prefix_refl _))
      rw [place_site, there] at removed
      rw [TreePath.upwards, shape, Disk.prune]
      cases entries with
      | nil =>
          rw [removed]
          exact ih (by omega) (left.erase outside' free there) fun other entry start =>
            free other entry (start.trans (List.prefix_append _ _))
      | cons entry entries =>
          rw [removed]
          exact left.holds_of_entry outside' there

end Prune

section Erase

variable {disk : Disk} {top path : TreePath} {tree : Snapshot}

/-- Where directories lead to a path, what stands there is taken away with all that is
inside it. -/
theorem Holds.erase_below (holds : Holds disk top tree) (nonempty : path ≠ [])
    (directories : ∀ way, way <+: path → way ≠ path → look disk (top ++ way) = some .directory) :
    Leftover (disk.erase (top ++ path)) top (tree.without path) (path.take (path.length - 1)) := by
  refine ⟨(look_erase_outer nonempty disk top).trans holds.stands, fun other some outside => ?_⟩
  simp only [look_erase (show top ++ path ≠ [] by simp [nonempty]), List.prefix_append_right_inj,
    TreePath.prefix_take_iff nonempty]
  by_cases below : path <+: other
  · have notAbove : ¬ (other <+: path ∧ other ≠ path) := fun h =>
      h.2 (TreePath.prefix_antisymm h.1 below)
    rw [if_pos below, Snapshot.view_without_below below]
    simp only [if_neg notAbove]
  rw [if_neg below]
  by_cases above : other <+: path
  · have different : other ≠ path := by
      rintro rfl
      exact below (List.prefix_refl _)
    have absent : (tree.without path).get? other = none := Snapshot.get?_without_above above
    rw [directories other above different]
    cases open_ : (tree.without path).isDirectory other with
    | true => rw [Snapshot.view_eq_directory.2 ⟨absent, open_⟩]
    | false =>
        rw [Snapshot.view_eq_none.2 ⟨absent, open_⟩]
        simp [above, different]
  · rw [holds.seen other some outside, Snapshot.view_without below above]
    cases tree.view other with
    | some what => rfl
    | none => simp [above]

/-- **Removing a file** with the directories that this leaves empty brings a working tree
that holds a snapshot to the snapshot without that file. -/
theorem Holds.erase (holds : Holds disk top tree) (proper : tree.Proper)
    (short : ∀ n ∈ path, n.length ≤ maxName) {entry : Entry}
    (found : tree.get? path = some entry) :
    Holds (Disk.prune (disk.erase (top ++ path)) top (TreePath.ancestors path).reverse) top
      (Table.erase tree path) := by
  have valid := proper.valid _ _ found
  have left := holds.erase_below (proper.nonempty _ _ found) fun way before different =>
    look_toward (TreePath.isInside_iff.2 ⟨before, different⟩) (holds.seen_entry proper found)
  rw [← proper.without_eq_erase found, TreePath.reverse_ancestors]
  exact left.prune (Nat.sub_le _ _) (TreePath.isPlain_of_isValid valid) short
    (TreePath.head?_ne_gitDirectory valid) fun other entry start none =>
      absurd ((Snapshot.get?_without_above (start.trans (List.take_prefix _ _))).symm.trans none)
        (by simp)

end Erase

end TokenBlame.Disk
