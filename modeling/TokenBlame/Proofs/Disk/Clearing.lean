/-
# TokenBlame.Proofs.Disk.Clearing -- clearing a path of a working tree

A checkout clears a path: what stands there goes, a directory with all that is in it, and so
does a file that stands above the path, and then the directories that this leaves empty.
A working tree that held a snapshot holds it without that path then (`Holds.clear`), that
is without every entry that could not stand in a tree with it (`Snapshot.without`).

What is left on the way to the path are directories (`Leftover`), and as long as they are
empty they are removed from the innermost outwards (`Leftover.pruneUp`).
-/
import TokenBlame.Checkout.Apply
import TokenBlame.Proofs.Disk.Order

set_option autoImplicit false

namespace TokenBlame

open Git

namespace Disk

variable {disk : Disk} {top path way : TreePath} {tree : Snapshot}

/-! ## Pruning from further down -/

/-- Directories of the snapshot may count as left over. -/
theorem Leftover.extend (left : Leftover disk top tree way) {further : TreePath}
    (start : way <+: further) (directory : tree.isDirectory further = true) :
    Leftover disk top tree further := by
  refine ⟨left.stands, fun other some outside => ?_⟩
  rw [left.seen other some outside]
  cases seen : tree.view other with
  | some what => rfl
  | none =>
      have away : ¬ other <+: further := by
        intro above
        have closed := (Snapshot.view_eq_none.1 seen).2
        rw [Snapshot.isDirectory_of_above above directory] at closed
        cases closed
      have away' : ¬ other <+: way := fun above => away (above.trans start)
      simp only [if_neg away, if_neg away']

/-- Nothing stands at a path further on that is none of the directories that are left over. -/
theorem Leftover.nothing (left : Leftover disk top tree way) {further : TreePath}
    (start : way <+: further) (nonempty : further ≠ [])
    (outside : further.head? ≠ some TreePath.gitDirectory)
    (absent : ∀ entry, tree.get? further ≠ some entry)
    (beyond : ¬ Leftover disk top tree further) : look disk (top ++ further) = none := by
  have notAbove : ¬ further <+: way := fun above => by
    rw [TreePath.prefix_antisymm start above] at left
    exact beyond left
  have closed : tree.isDirectory further = false :=
    Bool.eq_false_iff.2 fun directory => beyond (left.extend start directory)
  have unseen : tree.view further = none :=
    Snapshot.view_eq_none.2 ⟨Option.eq_none_iff_forall_ne_some.2 absent, closed⟩
  rw [left.seen _ nonempty outside, unseen]
  simp [notAbove]

/-- No file is above a path if the snapshot has none there. -/
theorem Leftover.opened (left : Leftover disk top tree way)
    (outside : path.head? ≠ some TreePath.gitDirectory)
    (free : ∀ other entry, other <+: path → tree.get? other ≠ some entry) (other : TreePath)
    (entry : Entry) (above : other <+: path) : look disk (top ++ other) ≠ some (.entry entry) := by
  intro seen
  cases other with
  | nil =>
      rw [List.append_nil, left.stands] at seen
      cases seen
  | cons first rest =>
      have own : (first :: rest).head? = path.head? := TreePath.head?_of_above above (by simp)
      rw [left.seen _ (by simp) (own ▸ outside)] at seen
      cases found : tree.view (first :: rest) with
      | some what =>
          rw [found] at seen
          cases seen
          exact free _ entry above (Snapshot.view_eq_entry.1 found)
      | none =>
          rw [found] at seen
          dsimp only at seen
          split at seen <;> cases seen

/-- Where nothing is there is no directory to remove. -/
theorem removeDirectory_missing (stands : look disk top = some .directory)
    (plain : ∀ n ∈ path, TreePath.IsPlain n) (short : ∀ n ∈ path, n.length ≤ maxName)
    (nonempty : path ≠ []) (nothing : look disk (top ++ path) = none)
    (opened : ∀ way entry, way <+: path → look disk (top ++ way) ≠ some (.entry entry)) :
    removeDirectory disk top path = .error .noSuchFile := by
  obtain ⟨lead, name, rfl⟩ := TreePath.exists_concat nonempty
  have before : lead <+: lead ++ [name] := List.prefix_append _ _
  have at_ := site_short stands plain (fun way target start => opened way _ (start.trans before))
    (short name (by simp))
  rcases reach_open (fun n member => short n (before.subset member))
    (fun way entry start => opened way entry (start.trans before)) with there | missing
  · rw [there] at at_
    rw [removeDirectory_of_site at_, place_site, look_eq_none.1 nothing]
  · rw [missing] at at_
    exact removeDirectory_of_no_site at_

/-- **Pruning upwards** takes away the directories that are left on the way to a path, and
passes over those that are not there. -/
theorem Leftover.pruneUp {n m : Nat} (le : n ≤ m) (within : m ≤ path.length)
    (left : Leftover disk top tree (path.take n))
    (plain : ∀ n ∈ path, TreePath.IsPlain n) (short : ∀ n ∈ path, n.length ≤ maxName)
    (outside : path.head? ≠ some TreePath.gitDirectory)
    (free : ∀ other entry, other <+: path → tree.get? other ≠ some entry) :
    ∃ next, Checkout.pruneUp disk top (TreePath.upwards path m) = .ok next ∧
      Holds next top tree ∧ Spares disk next top := by
  induction m generalizing disk n with
  | zero =>
      obtain rfl : n = 0 := by omega
      exact ⟨disk, rfl, left.holds, .refl disk top⟩
  | succ m ih =>
      obtain ⟨name, shape⟩ : ∃ name, path.take (m + 1) = path.take m ++ [name] :=
        ⟨_, List.take_succ_eq_append_getElem (by omega)⟩
      have before : path.take m ++ [name] <+: path := shape ▸ List.take_prefix _ _
      have head : (path.take m ++ [name]).head? = path.head? :=
        TreePath.head?_of_above before (by simp)
      have outside' : (path.take m ++ [name]).head? ≠ some TreePath.gitDirectory := head ▸ outside
      have free' : ∀ other entry, other <+: path.take m ++ [name] → tree.get? other ≠ some entry :=
        fun other entry start => free other entry (start.trans before)
      have plain' : ∀ n ∈ path.take m ++ [name], TreePath.IsPlain n :=
        fun n member => plain n (before.subset member)
      have short' : ∀ n ∈ path.take m ++ [name], n.length ≤ maxName :=
        fun n member => short n (before.subset member)
      rw [TreePath.upwards, shape, Checkout.pruneUp]
      by_cases all : Leftover disk top tree (path.take m ++ [name])
      · -- the innermost directory is there: it goes if it is empty
        have directories := all.directory outside' free'
        have at_ := site_of_directories plain' short'
          fun way start => directories way (start.trans (List.prefix_append _ _))
        have removed := removeDirectory_of_site at_
        obtain ⟨entries, there⟩ := look_eq_directory.1 (directories _ (List.prefix_refl _))
        rw [place_site, there] at removed
        rw [removed]
        cases entries with
        | nil =>
            obtain ⟨next, pruned, holds, spares⟩ :=
              ih (Nat.le_refl m) (by omega) (all.erase outside' free' there)
            exact ⟨next, pruned, holds, (Spares.erase disk top (by simp) outside').trans spares⟩
        | cons entry entries =>
            exact ⟨disk, rfl, all.holds_of_entry outside' there, .refl disk top⟩
      · -- nothing is there, and the next directory outwards is looked at
        have less : n ≤ m := by
          by_contra more
          obtain rfl : n = m + 1 := by omega
          exact all (shape ▸ left)
        have nothing := left.nothing
          ((List.take_prefix_take_left less).trans (List.prefix_append _ [name])) (by simp) outside'
          (fun entry => free' _ entry (List.prefix_refl _)) all
        have opened := left.opened outside' free'
        rw [removeDirectory_missing left.stands plain' short' (by simp) nothing opened]
        exact ih less (by omega) left

/-! ## Clearing -/

/-- The file above a path is removed, wherever on the way it is. -/
theorem Holds.unblock {j m : Nat} (holds : Holds disk top tree) (proper : tree.Proper)
    (straight : tree.Straight (path.take m))
    (steps : ∀ n ∈ path, TreePath.IsPlain n) (short : ∀ n ∈ path, n.length ≤ maxName)
    (outside : path.head? ≠ some TreePath.gitDirectory)
    {entry : Entry} (found : tree.get? (path.take j) = some entry) (upTo : j ≤ m)
    (within : m ≤ path.length) :
    Checkout.unblock disk top (TreePath.upwards path m) = disk.erase (top ++ path.take j) := by
  have nonempty := proper.nonempty _ _ found
  have seen : look disk (top ++ path.take j) = some (.entry entry) := by
    rw [holds.seen _ nonempty, Snapshot.view_of_get? found]
    rwa [TreePath.head?_of_above (List.take_prefix _ _) nonempty]
  induction m with
  | zero => exact absurd (by rw [Nat.le_zero.1 upTo]; rfl) nonempty
  | succ m ih =>
      obtain ⟨name, shape⟩ : ∃ name, path.take (m + 1) = path.take m ++ [name] :=
        ⟨_, List.take_succ_eq_append_getElem (by omega)⟩
      have before : path.take m ++ [name] <+: path := shape ▸ List.take_prefix _ _
      have steps' : ∀ n ∈ path.take m ++ [name], TreePath.IsPlain n :=
        fun n member => steps n (before.subset member)
      have short' : ∀ n ∈ path.take m ++ [name], n.length ≤ maxName :=
        fun n member => short n (before.subset member)
      rw [TreePath.upwards, Checkout.unblock]
      by_cases last : j = m + 1
      · subst last
        rw [shape] at seen ⊢
        have directories : ∀ way, way <+: path.take m → look disk (top ++ way) = some .directory := by
          intro way start
          exact look_toward (TreePath.isInside_concat_iff.2 start) seen
        rw [site_of_directories steps' short' directories]
        dsimp only
        rw [place_site]
        cases entry with
        | file content executable => rw [look_eq_file.1 seen]
        | link target =>
            exact absurd found (straight _ target (List.take_prefix_take_left upTo))
        | submodule commit => exact absurd seen (look_ne_submodule _ _ _)
      · have less : j ≤ m := by omega
        have inner := straight.outer (List.take_prefix_take_left (Nat.le_succ m))
        have free : LinkFree disk top (path.take m) :=
          holds.linkFree inner (List.take_prefix _ _) outside
        have blocked : reach disk top (path.take m) = .error .notDirectory :=
          reach_blocked (fun n member => short n ((List.take_prefix _ _).subset member))
            (List.take_prefix_take_left less) nonempty seen
        rw [shape, site_plain holds.stands steps' free, blocked]
        exact ih inner less (by omega)

/-- A file above a path is removed in its stead, and leaves the directories above it. -/
theorem Holds.unblock_leftover (holds : Holds disk top tree) (proper : tree.Proper)
    (straight : tree.Straight path.dropLast) (valid : path.isValid = true)
    (short : ∀ n ∈ path, n.length ≤ maxName) {entry : Entry} (start : way <+: path.dropLast)
    (found : tree.get? way = some entry) :
    Checkout.unblock disk top (TreePath.upwards path (path.length - 1)) =
        disk.erase (top ++ way) ∧
      Leftover (disk.erase (top ++ way)) top (tree.without path) (path.take (way.length - 1)) ∧
      Spares disk (disk.erase (top ++ way)) top := by
  have outside := TreePath.head?_ne_gitDirectory valid
  have nonempty := proper.nonempty _ _ found
  have seen := holds.seen_entry proper found
  have above : way <+: path := start.trans (List.dropLast_prefix path)
  have long := start.length_le
  rw [List.length_dropLast] at long
  have taken : path.take way.length = way := (List.prefix_iff_eq_take.1 above).symm
  have cut : way.take (way.length - 1) = path.take (way.length - 1) := calc
    way.take (way.length - 1) = (path.take way.length).take (way.length - 1) := by rw [taken]
    _ = path.take (way.length - 1) := by
      rw [List.take_take, Nat.min_eq_left (Nat.sub_le _ _)]
  refine ⟨?_, ?_, .erase disk top nonempty (TreePath.head?_of_above above nonempty ▸ outside)⟩
  · have erased := holds.unblock proper (List.dropLast_eq_take ▸ straight)
      (TreePath.isPlain_of_isValid valid) short outside (j := way.length) (taken.symm ▸ found) long
      (Nat.sub_le _ _)
    rwa [taken] at erased
  · rw [Snapshot.without_below proper found above, ← cut]
    exact holds.erase_below nonempty fun outer before different =>
      look_toward (TreePath.isInside_iff.2 ⟨before, different⟩) seen

theorem upwards_length (nonempty : path ≠ []) :
    path :: (TreePath.ancestors path).reverse = TreePath.upwards path path.length := by
  obtain ⟨lead, name, rfl⟩ := TreePath.exists_concat nonempty
  have longer : (lead ++ [name]).length = lead.length + 1 := by simp
  rw [TreePath.reverse_ancestors, longer, TreePath.upwards, ← longer, List.take_length, longer]
  rfl

section Cleared

variable {found : Site}

theorem clear_of_site (at_ : site disk top path = .ok found) :
    Checkout.clear disk top path = Checkout.pruneUp (disk.erase found.place) top
      (path :: (TreePath.ancestors path).reverse) := by
  unfold Checkout.clear
  rw [at_]

theorem clear_of_missing (at_ : site disk top path = .error .noSuchFile) :
    Checkout.clear disk top path =
      Checkout.pruneUp disk top (path :: (TreePath.ancestors path).reverse) := by
  unfold Checkout.clear
  rw [at_]
  rfl

theorem clear_of_blocked (at_ : site disk top path = .error .notDirectory) :
    Checkout.clear disk top path =
      Checkout.pruneUp (Checkout.unblock disk top (TreePath.ancestors path).reverse) top
        (path :: (TreePath.ancestors path).reverse) := by
  unfold Checkout.clear
  rw [at_]
  rfl

end Cleared

/-- Whatever was taken away for a path, the directories that this leaves empty are pruned. -/
theorem Leftover.cleared {middle : Disk} {n : Nat} (within : n ≤ path.length)
    (left : Leftover middle top (tree.without path) (path.take n)) (spares : Spares disk middle top)
    (nonempty : path ≠ []) (valid : path.isValid = true) (short : ∀ n ∈ path, n.length ≤ maxName) :
    ∃ next, Checkout.pruneUp middle top (path :: (TreePath.ancestors path).reverse) = .ok next ∧
      Holds next top (tree.without path) ∧ Spares disk next top := by
  obtain ⟨next, done, holds, later⟩ := left.pruneUp within (Nat.le_refl _)
    (TreePath.isPlain_of_isValid valid) short (TreePath.head?_ne_gitDirectory valid)
    fun other entry above found => by
      rw [Snapshot.get?_without_above above] at found
      cases found
  exact ⟨next, upwards_length nonempty ▸ done, holds, spares.trans later⟩

/-- **Clearing a path** brings a working tree that holds a snapshot to the snapshot without
that path. -/
theorem Holds.clear (holds : Holds disk top tree) (proper : tree.Proper) (nonempty : path ≠ [])
    (straight : tree.Straight path.dropLast) (valid : path.isValid = true)
    (short : ∀ n ∈ path, n.length ≤ maxName) :
    ∃ next, Checkout.clear disk top path = .ok next ∧ Holds next top (tree.without path) ∧
      Spares disk next top := by
  have outside := TreePath.head?_ne_gitDirectory valid
  obtain ⟨lead, name, names⟩ := TreePath.exists_concat nonempty
  have before : lead <+: path := names ▸ List.prefix_append _ _
  have init : path.dropLast = lead := by rw [names, List.dropLast_concat]
  have leadShort : ∀ n ∈ lead, n.length ≤ maxName := fun n member => short n (before.subset member)
  have at_ := site_short holds.stands
    (names ▸ TreePath.isPlain_of_isValid valid : ∀ n ∈ lead ++ [name], TreePath.IsPlain n)
    (holds.linkFree (init ▸ straight) before outside) (short name (names ▸ by simp))
  rw [← names] at at_
  by_cases blocked : ∃ way entry, way <+: lead ∧ look disk (top ++ way) = some (.entry entry)
  · -- a file stands above the path
    obtain ⟨way, entry, start, seen⟩ := blocked
    have some : way ≠ [] := by
      rintro rfl
      rw [List.append_nil, holds.stands] at seen
      cases seen
    rw [reach_blocked leadShort start some seen] at at_
    rw [holds.seen way some (TreePath.head?_of_above (start.trans before) some ▸ outside)] at seen
    obtain ⟨cleared, left, spares⟩ := holds.unblock_leftover proper straight valid short
      (init.symm ▸ start) (Snapshot.view_eq_entry.1 seen)
    rw [clear_of_blocked at_, TreePath.reverse_ancestors, cleared, ← TreePath.reverse_ancestors]
    have within := (start.trans before).length_le
    exact left.cleared (by omega) spares nonempty valid short
  have opened : ∀ way entry, way <+: lead → look disk (top ++ way) ≠ some (.entry entry) :=
    fun way entry start seen => blocked ⟨way, entry, start, seen⟩
  rcases reach_open leadShort opened with there | missing
  · -- directories lead to the path
    rw [there] at at_
    obtain ⟨-, -, directories⟩ := of_reach_ok there
    rw [clear_of_site at_, place_site, ← names]
    refine (holds.erase_below nonempty fun way start different => ?_).cleared (Nat.sub_le _ _)
      (.erase disk top nonempty outside) nonempty valid short
    by_cases root : way = []
    · rw [root, List.append_nil, holds.stands]
    · exact directories way (TreePath.isInside_concat_iff.1
        (names ▸ TreePath.isInside_iff.2 ⟨start, different⟩)) root
  · -- nothing is there
    rw [missing] at at_
    obtain ⟨way, start, -, nothing, -⟩ := reach_missing missing
    obtain ⟨absent, apart⟩ := holds.apart_of_nothing proper (start.trans before) nothing
      fun outer entry above => opened outer entry (above.trans start)
    have left : Leftover disk top (tree.without path) (path.take 0) := by
      rw [Snapshot.without_eq_self absent apart]
      exact holds.leftover
    rw [clear_of_missing at_]
    exact left.cleared (Nat.zero_le _) (.refl disk top) nonempty valid short

/-! ## The order of names -/

section Ordered

variable {place : TreePath}

theorem Ordered.unblock (ordered : Ordered disk top) (ways : List TreePath) :
    Ordered (Checkout.unblock disk place ways) top := by
  induction ways with
  | nil => exact ordered
  | cons names rest ih =>
      rw [Checkout.unblock]
      split
      · exact ih
      · split
        · exact ordered.erase _
        · exact ordered.erase _
        · exact ih

theorem Ordered.pruneUp (ordered : Ordered disk top) {next : Disk} {ways : List TreePath}
    (pruned : Checkout.pruneUp disk place ways = .ok next) : Ordered next top := by
  induction ways generalizing disk with
  | nil =>
      cases pruned
      exact ordered
  | cons names rest ih =>
      rw [Checkout.pruneUp] at pruned
      split at pruned
      · rename_i removed
        exact ih (ordered.removeDirectory removed) pruned
      · split at pruned
        · exact ih ordered pruned
        · split at pruned
          · cases pruned
            exact ordered
          · cases pruned

/-- Clearing a path keeps the order. -/
theorem Ordered.clear (ordered : Ordered disk top) {next : Disk}
    (cleared : Checkout.clear disk place path = .ok next) : Ordered next top := by
  unfold Checkout.clear at cleared
  dsimp only at cleared
  split at cleared
  · cases cleared
  · rename_i middle done
    refine Ordered.pruneUp ?_ cleared
    split at done
    · cases done
      exact ordered.erase _
    · split at done
      · cases done
        exact ordered
      · split at done
        · cases done
          exact ordered.unblock _
        · cases done

end Ordered

end Disk

end TokenBlame
