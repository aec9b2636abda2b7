/-
# TokenBlame.Proofs.Checkout.Sight -- what a checkout sees of a working tree

In a working tree that holds a snapshot a checkout sees the files and links of the snapshot,
each at one path only, and directories above them (`seen_of_mem_items`, `nodup_items`).
Where the index has the entries of the snapshot, it looks into all the directories above
these and sees each of them (`mem_items`).
-/
import TokenBlame.Checkout.Plan
import TokenBlame.Proofs.Disk.Beneath

set_option autoImplicit false

namespace TokenBlame.Checkout

open Git

variable {disk : Disk} {top path : TreePath} {index snapshot tree : Snapshot} {item : Item}

theorem path_ofNode (index : Snapshot) (path : TreePath) (node : Disk.Node) :
    (Item.ofNode index path node).path = path := by
  unfold Item.ofNode
  split
  · split <;> rfl
  · rfl
  · rfl

/-- An entry as it stands in a working tree. -/
def Item.ofEntry (path : TreePath) : Entry → Item
  | .file content executable => file path content executable
  | .link target => link path target
  | .submodule _ => submodule path

@[simp] theorem path_ofEntry (path : TreePath) (entry : Entry) :
    (Item.ofEntry path entry).path = path := by
  cases entry <;> rfl

theorem ofNode_of_seen {node : Disk.Node} {entry : Entry} (seen : node.seen = .entry entry) :
    Item.ofNode index path node = .ofEntry path entry := by
  cases node with
  | directory entries => cases seen
  | file content executable =>
      cases seen
      rfl
  | link target =>
      cases seen
      rfl

/-- An item is something that is listed of the working tree, and not the repository's own
directory. -/
theorem mem_items_iff {node : Disk.Node} : item ∈ items index snapshot node ↔
    ∃ path inner, (path, inner) ∈ node.beneath (isEntered index snapshot) [] ∧
      path.getLast? ≠ some TreePath.gitDirectory ∧ item = .ofNode index path inner := by
  unfold items
  simp only [List.mem_map, List.mem_mergeSort, List.mem_filter]
  constructor
  · rintro ⟨-, ⟨⟨path, inner⟩, ⟨listed, visible⟩, rfl⟩, rfl⟩
    exact ⟨path, inner, listed, by simpa using visible, rfl⟩
  · rintro ⟨path, inner, listed, visible, rfl⟩
    exact ⟨_, ⟨(path, inner), ⟨listed, by simpa using visible⟩, rfl⟩, rfl⟩

/-- No path is seen twice. -/
theorem nodup_items {node : Disk.Node} (ordered : Disk.Ordered node []) :
    ((items index snapshot node).map Item.path).Nodup := by
  have listed := @Disk.Ordered.nodup_beneath (isEntered index snapshot) _ ordered []
  unfold items
  rw [List.map_map, ((List.mergeSort_perm _ _).map _).nodup_iff, List.map_map]
  have paths : ∀ seen : List (TreePath × Disk.Node),
      seen.map ((Item.path ∘ fun pair : Bytes × Item => pair.2) ∘ fun entry =>
        ((Item.ofNode index entry.1 entry.2).key, Item.ofNode index entry.1 entry.2)) =
          seen.map (·.1) := by
    intro seen
    exact List.map_congr_left fun entry _ => path_ofNode _ _ _
  rw [paths]
  exact listed.sublist (List.filter_sublist.map _)

/-- An item is a directory above entries of the working tree, or a file or link of these. -/
theorem seen_of_mem_items (keeps : disk.Keeps top tree)
    (noSubmodule : ∀ path commit, index.get? path ≠ some (.submodule commit))
    (member : item ∈ items index snapshot ((disk.at? top).getD .vacant)) :
    (∃ path, item = .directory path ∧ tree.view path = some .directory) ∨
      ∃ path entry, item = .ofEntry path entry ∧ tree.get? path = some entry ∧
        entry.content?.isSome = true := by
  obtain ⟨entries, stands⟩ := Disk.look_eq_directory.1 keeps.holds.stands
  rw [stands, Option.getD_some] at member
  have ordered := keeps.ordered.at_place stands
  obtain ⟨path, node, listed, visible, rfl⟩ := mem_items_iff.1 member
  obtain ⟨_, nonempty, rfl, there, opened⟩ := ordered.of_mem_beneath listed
  -- the repository's own directory is not shown, nor is it looked into
  have outside : path.head? ≠ some TreePath.gitDirectory := by
    intro own
    obtain ⟨name, rest, rfl⟩ := List.exists_cons_of_ne_nil nonempty
    obtain rfl : name = TreePath.gitDirectory := by simpa using own
    cases rest with
    | nil => simp at visible
    | cons next rest =>
        have entered := opened [TreePath.gitDirectory]
          (List.cons_prefix_cons.2 ⟨rfl, List.nil_prefix⟩) (by simp)
        simp [isEntered] at entered
  have view : some node.seen = tree.view path := by
    rw [← keeps.holds.seen path nonempty outside, Disk.look_append, stands]
    show _ = Disk.look (.directory entries) path
    unfold Disk.look
    rw [there]
    rfl
  cases node with
  | directory inner =>
      refine Or.inl ⟨path, ?_, view.symm⟩
      rw [Item.ofNode]
      split
      · rename_i commit found
        exact absurd found (noSubmodule path commit)
      · rfl
  | file content executable =>
      exact Or.inr ⟨path, .file content executable, rfl, Snapshot.view_eq_entry.1 view.symm, rfl⟩
  | link target => exact Or.inr ⟨path, .link target, rfl, Snapshot.view_eq_entry.1 view.symm, rfl⟩

/-- Every entry of the working tree is an item where the index has it. -/
theorem mem_items (keeps : disk.Keeps top tree) (proper : index.Proper)
    (noSubmodule : ∀ path commit, index.get? path ≠ some (.submodule commit))
    (inner : ∀ place entry, tree.get? place = some entry → index.get? place = some entry)
    {entry : Entry} (found : tree.get? path = some entry) :
    .ofEntry path entry ∈ items index snapshot ((disk.at? top).getD .vacant) := by
  obtain ⟨entries, stands⟩ := Disk.look_eq_directory.1 keeps.holds.stands
  have indexed := inner _ _ found
  have nonempty := proper.nonempty _ _ indexed
  have valid := proper.valid _ _ indexed
  have named : ∀ name ∈ path, name ≠ TreePath.gitDirectory := fun name member =>
    TreePath.ne_gitDirectory_of_isValidName (List.all_eq_true.1 valid name member)
  have hidden : ∀ way, way <+: path → way.getLast? ≠ some TreePath.gitDirectory :=
    fun way start last => named _ (start.subset (List.mem_of_getLast? last)) rfl
  have seen := keeps.holds.seen path nonempty (TreePath.head?_ne_gitDirectory valid)
  rw [Snapshot.view_of_get? found, Disk.look_append, stands, Option.bind_some] at seen
  obtain ⟨node, there, seen⟩ := Option.map_eq_some_iff.1 seen
  rw [stands, Option.getD_some]
  refine mem_items_iff.2
    ⟨path, node, ?_, hidden path (List.prefix_refl _), (ofNode_of_seen seen).symm⟩
  refine (keeps.ordered.at_place stands).mem_beneath_of_at? nonempty there ?_
  intro way start different
  rw [List.nil_append]
  have above : index.isDirectory way = true :=
    Snapshot.isDirectory_iff.2 ⟨path, _, indexed, TreePath.isInside_iff.2 ⟨start, different⟩⟩
  unfold isEntered
  rw [above, bne_iff_ne.2 (hidden way start)]
  split
  · rename_i commit found
    exact absurd found (noSubmodule way commit)
  · simp

end TokenBlame.Checkout
