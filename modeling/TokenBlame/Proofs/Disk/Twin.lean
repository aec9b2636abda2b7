/-
# TokenBlame.Proofs.Disk.Twin -- working trees that hold one snapshot

Two working trees that hold one snapshot are told apart by nothing that is done to their
files.  What comes of a removal is told by the snapshot (`removal`): by any safe path, straight or
not, it fails in both with one error or takes the same file out of both (`Holds.remove_twin`).
Where a file could be written, its path is one that may stand in a tree, and it is apart
from the files of the snapshot (`Holds.of_write`).
-/
import TokenBlame.Proofs.Disk.Removal

set_option autoImplicit false

namespace TokenBlame.Disk

open Git

section Twin

variable {disk twin : Disk} {top : TreePath} {tree : Snapshot}

/-! ## Removing -/

/-- Names lead to the same place, or nowhere for the same reason. -/
theorem Holds.reach_twin (holds : Holds disk top tree) (also : Holds twin top tree)
    {way names : TreePath} (outside : (way ++ names).head? ≠ some TreePath.gitDirectory) :
    reach disk (top ++ way) names = reach twin (top ++ way) names := by
  induction names generalizing way with
  | nil => rfl
  | cons name rest ih =>
      have next : way ++ name :: rest = way ++ [name] ++ rest := by simp
      have head : (way ++ [name]).head? = (way ++ name :: rest).head? :=
        TreePath.head?_of_above (next ▸ List.prefix_append _ _) (by simp)
      have same : look disk (top ++ way ++ [name]) = look twin (top ++ way ++ [name]) := by
        rw [List.append_assoc, holds.seen _ (by simp) (head ▸ outside),
          also.seen _ (by simp) (head ▸ outside)]
      rw [reach, reach, same, List.append_assoc, ih (next ▸ outside)]

theorem resolve_last {lead : TreePath} {name : Name} {blanks : List Name}
    (blank : ∀ other ∈ blanks, other = []) :
    TreePath.resolve (lead ++ name :: blanks) =
      TreePath.resolve lead ++ if TreePath.isStep name then [name] else [] := by
  have none : TreePath.resolve blanks = [] :=
    List.filter_eq_nil_iff.2 fun other member => by simp [blank other member, TreePath.isStep]
  unfold TreePath.resolve at none ⊢
  rw [List.filter_append, List.filter_cons, none]

/-- What a removal by a path comes to where the names before the last one lead somewhere: the
entry of the snapshot that is removed, or why none is. -/
def removal (tree : Snapshot) (top : TreePath) (path : Bytes) (reached : Except Error TreePath)
    (name : Name) (slashed : Bool) : Except Error Entry :=
  match (Route.within top path).fault? with
  | some error => .error error
  | none =>
      match reached with
      | .error error => .error error
      | .ok _ =>
          if maxName < name.length then .error .nameTooLong
          else if TreePath.isStep name = false then .error .isDirectory
          else
            match tree.view (TreePath.resolve (TreePath.split path)) with
            | none => .error .noSuchFile
            | some .directory => .error .isDirectory
            | some (.entry entry) => if slashed then .error .notDirectory else .ok entry

section Verdict

variable {path : Bytes} {reached : Except Error TreePath} {name : Name} {slashed : Bool}

theorem fault?_ne_noSuchFile {error : Error}
    (refused : (Route.within top path).fault? = some error) : error ≠ .noSuchFile := by
  rintro rfl
  unfold Route.fault? at refused
  split at refused
  · rename_i empty
    simp [Route.within] at empty
  split at refused
  · exact absurd (Option.some.inj refused) (by decide)
  split at refused
  · exact absurd (Option.some.inj refused) (by decide)
  · cases refused

/-- What is removed is an entry of the snapshot, by a path that the system takes. -/
theorem of_removal_ok {entry : Entry}
    (removed : removal tree top path reached name slashed = .ok entry) :
    (∃ directory, reached = .ok directory) ∧ name.length ≤ maxName ∧
      TreePath.isStep name = true ∧
      tree.get? (TreePath.resolve (TreePath.split path)) = some entry := by
  unfold removal at removed
  split at removed
  · cases removed
  cases reached with
  | error error => cases removed
  | ok directory =>
      dsimp only at removed
      split at removed
      · cases removed
      rename_i short
      split at removed
      · cases removed
      rename_i step
      refine ⟨⟨directory, rfl⟩, Nat.not_lt.1 short, by simpa using step, ?_⟩
      split at removed
      · cases removed
      · cases removed
      · rename_i seen
        split at removed
        · cases removed
        · cases removed
          exact Snapshot.view_eq_entry.1 seen

/-- There is no such file where the names before the last one do not lead anywhere, or nothing is
seen at the path. -/
theorem of_removal_missing
    (missing : removal tree top path reached name slashed = .error .noSuchFile) :
    reached = .error .noSuchFile ∨
      (∃ directory, reached = .ok directory) ∧
        tree.view (TreePath.resolve (TreePath.split path)) = none := by
  unfold removal at missing
  split at missing
  · rename_i refused
    exact absurd (Except.error.inj missing) (fault?_ne_noSuchFile refused)
  cases reached with
  | error error => exact .inl (congrArg Except.error (Except.error.inj missing))
  | ok directory =>
      dsimp only at missing
      split at missing
      · exact absurd (Except.error.inj missing) (by decide)
      split at missing
      · exact absurd (Except.error.inj missing) (by decide)
      refine .inr ⟨⟨directory, rfl⟩, ?_⟩
      split at missing
      · assumption
      · exact absurd (Except.error.inj missing) (by decide)
      · split at missing
        · exact absurd (Except.error.inj missing) (by decide)
        · cases missing

end Verdict

section Last

variable {path : Bytes} {lead : TreePath} {name : Name} {blanks : List Name}

/-- What is seen at the last name of a path, as the snapshot tells. -/
theorem Holds.seen_last (holds : Holds disk top tree)
    (names : TreePath.split path = lead ++ name :: blanks) (blank : ∀ other ∈ blanks, other = [])
    (step : TreePath.isStep name = true)
    (outside : (TreePath.resolve (TreePath.split path)).head? ≠ some TreePath.gitDirectory)
    (slashed : Bool) :
    Site.place ⟨top ++ TreePath.resolve lead, name, slashed⟩ =
        top ++ TreePath.resolve (TreePath.split path) ∧
      look disk (top ++ TreePath.resolve (TreePath.split path)) =
        tree.view (TreePath.resolve (TreePath.split path)) := by
  have place : TreePath.resolve (TreePath.split path) = TreePath.resolve lead ++ [name] := by
    rw [names, resolve_last blank, if_pos step]
  refine ⟨?_, holds.seen _ (by simp [place]) outside⟩
  rw [place, ← List.append_assoc]
  rfl

/-- What a removal by a path does, as the snapshot tells. -/
theorem Holds.remove_eq (holds : Holds disk top tree)
    (straight : tree.Straight (TreePath.resolve lead))
    (names : TreePath.split path = lead ++ name :: blanks) (nonempty : name ≠ [])
    (blank : ∀ other ∈ blanks, other = []) (down : ∀ n ∈ TreePath.split path, n ≠ above)
    (outside : (TreePath.resolve (TreePath.split path)).head? ≠ some TreePath.gitDirectory) :
    disk.remove (.within top path) =
      (removal tree top path (reach disk top (TreePath.resolve lead)) name !blanks.isEmpty).map
        fun _ => disk.erase (top ++ TreePath.resolve (TreePath.split path)) := by
  have before : TreePath.resolve lead <+: TreePath.resolve (TreePath.split path) := by
    rw [names, resolve_last blank]
    exact List.prefix_append _ _
  have found : directoryAt disk top lead = reach disk top (TreePath.resolve lead) :=
    directoryAt_eq_reach holds.stands
      (fun n member => down n (names ▸ List.mem_append_left _ member))
      (holds.linkFree straight before outside)
  have at_ := @site_eq disk top lead blanks name nonempty blank
  rw [← names, found] at at_
  unfold removal
  cases accepted : (Route.within top path).fault? with
  | some error =>
      exact remove_of_fault accepted
  | none =>
      dsimp only
      cases reached : reach disk top (TreePath.resolve lead) with
      | error error =>
          rw [reached] at at_
          exact remove_of_no_site accepted at_
      | ok directory =>
          obtain ⟨rfl, -, -⟩ := of_reach_ok reached
          rw [reached] at at_
          dsimp only at at_ ⊢
          by_cases long : maxName < name.length
          · rw [if_pos long] at at_
            rw [if_pos long]
            exact remove_of_no_site accepted at_
          rw [if_neg long] at at_
          rw [if_neg long, remove_at_site accepted at_]
          have notAbove : name ≠ above := down name (names ▸ by simp)
          cases step : TreePath.isStep name with
          | false =>
              simp only [Site.isPlain, step]
              rfl
          | true =>
              obtain ⟨there, seen⟩ := holds.seen_last names blank step outside !blanks.isEmpty
              have own : (Site.mk (top ++ TreePath.resolve lead) name (!blanks.isEmpty)).isPlain =
                  true := by
                show (TreePath.isStep name && name != above) = true
                rw [step, bne_iff_ne.2 notAbove]
                rfl
              have notFalse : ¬ (true = false) := by simp
              rw [there, seen, own, if_neg notFalse, if_neg notFalse]
              cases tree.view (TreePath.resolve (TreePath.split path)) with
              | none => rfl
              | some what =>
                  cases what with
                  | directory => rfl
                  | entry entry => cases blanks <;> rfl

end Last

/-- What a removal does depends on the snapshot alone. -/
theorem Holds.remove_twin (holds : Holds disk top tree) (also : Holds twin top tree)
    (plain : tree.Plain) {path : Bytes} {lead : TreePath} {name : Name} {blanks : List Name}
    (names : TreePath.split path = lead ++ name :: blanks) (nonempty : name ≠ [])
    (blank : ∀ other ∈ blanks, other = [])
    (down : ∀ n ∈ TreePath.split path, n ≠ above)
    (outside : (TreePath.resolve (TreePath.split path)).head? ≠ some TreePath.gitDirectory) :
    (∃ error, disk.remove (.within top path) = .error error ∧
        twin.remove (.within top path) = .error error) ∨
      ∃ entry, tree.get? (TreePath.resolve (TreePath.split path)) = some entry ∧
        (∀ n ∈ TreePath.resolve (TreePath.split path), n.length ≤ maxName) ∧
        disk.remove (.within top path) =
          .ok (disk.erase (top ++ TreePath.resolve (TreePath.split path))) ∧
        twin.remove (.within top path) =
          .ok (twin.erase (top ++ TreePath.resolve (TreePath.split path))) := by
  have before : (TreePath.resolve lead).head? ≠ some TreePath.gitDirectory := by
    cases shape : TreePath.resolve lead with
    | nil => simp
    | cons first rest =>
        have start : first :: rest <+: TreePath.resolve (TreePath.split path) := by
          rw [names, resolve_last blank, shape]
          exact List.prefix_append _ _
        rw [TreePath.head?_of_above start (by simp)]
        exact outside
  have same := also.reach_twin holds
    (show ([] ++ TreePath.resolve lead).head? ≠ some TreePath.gitDirectory from before)
  rw [List.append_nil] at same
  rw [holds.remove_eq (plain.straight _) names nonempty blank down outside,
    also.remove_eq (plain.straight _) names nonempty blank down outside, same]
  cases removed : removal tree top path (reach disk top (TreePath.resolve lead)) name
      !blanks.isEmpty with
  | error error => exact Or.inl ⟨error, rfl, rfl⟩
  | ok entry =>
      obtain ⟨⟨directory, reached⟩, fitting, step, found⟩ := of_removal_ok removed
      obtain ⟨-, short, -⟩ := of_reach_ok reached
      refine Or.inr ⟨entry, found, ?_, rfl, rfl⟩
      rw [names, resolve_last blank, if_pos step]
      exact List.forall_mem_append.2 ⟨short, List.forall_mem_singleton.2 fitting⟩

/-- Where directories lead to a place with nothing there, what is at or below it is apart from the
snapshot. -/
theorem Holds.apart_of_directories (holds : Holds disk top tree) (proper : tree.Proper)
    {way path : TreePath} (start : way <+: path) (nothing : look disk (top ++ way) = none)
    (directories : ∀ outer, TreePath.isInside outer way = true → outer ≠ [] →
      look disk (top ++ outer) = some .directory) :
    tree.get? path = none ∧
      ∀ other entry, tree.get? other = some entry → TreePath.Apart path other := by
  refine holds.apart_of_nothing proper start nothing fun outer entry above seen => ?_
  by_cases root : outer = []
  · rw [root, List.append_nil, holds.stands] at seen
    cases seen
  by_cases same : outer = way
  · rw [same, nothing] at seen
    cases seen
  · rw [directories outer (TreePath.isInside_iff.2 ⟨above, same⟩) root] at seen
    cases seen

/-- Where a file was missing or was removed, its path is apart from the other files. -/
theorem Holds.of_remove (holds : Holds disk top tree) (proper : tree.Proper) {path : Bytes}
    (straight : tree.Straight (TreePath.split path).dropLast)
    (valid : (TreePath.split path).isValid = true) :
    (disk.remove (.within top path) = .error .noSuchFile →
      tree.get? (TreePath.split path) = none ∧ ∀ other entry, tree.get? other = some entry →
        TreePath.Apart (TreePath.split path) other) ∧
    ∀ next, disk.remove (.within top path) = .ok next →
      next = disk.erase (top ++ TreePath.split path) ∧
      (∀ n ∈ TreePath.split path, n.length ≤ maxName) ∧
      ∃ entry, tree.get? (TreePath.split path) = some entry := by
  have steps := TreePath.isPlain_of_isValid valid
  have outside := TreePath.head?_ne_gitDirectory valid
  have whole := TreePath.resolve_eq_self steps
  obtain ⟨lead, name, names⟩ := TreePath.exists_concat (TreePath.split_ne_nil path)
  have before : lead <+: TreePath.split path := names ▸ List.prefix_append _ _
  have nonempty : name ≠ [] := by
    rintro rfl
    exact absurd (steps [] (names ▸ by simp)).step (by decide)
  have inner : TreePath.resolve lead = lead :=
    TreePath.resolve_eq_self fun n member => steps n (before.subset member)
  rw [names, List.dropLast_concat] at straight
  have removed : disk.remove (.within top path) =
      (removal tree top path (reach disk top lead) name false).map
        fun _ => disk.erase (top ++ TreePath.split path) := by
    have own := holds.remove_eq (inner.symm ▸ straight) names nonempty (by simp)
      (fun n member => ne_above (steps n member)) (whole.symm ▸ outside)
    rw [whole, inner] at own
    exact own
  rw [removed]
  cases verdict : removal tree top path (reach disk top lead) name false with
  | error error =>
      refine ⟨fun missing => ?_, fun next done => by cases done⟩
      obtain rfl : error = .noSuchFile := Except.error.inj missing
      rcases of_removal_missing verdict with gone | ⟨⟨directory, reached⟩, unseen⟩
      · -- nothing is at some place on the way
        obtain ⟨way, start, -, nothing, directories⟩ := reach_missing gone
        refine holds.apart_of_directories proper (start.trans before) nothing
          fun outer inside some => ?_
        obtain ⟨above, different⟩ := TreePath.isInside_iff.1 inside
        exact directories outer above some different
      · -- nothing is at the path
        obtain ⟨-, -, directories⟩ := of_reach_ok reached
        rw [whole] at unseen
        refine holds.apart_of_directories proper (List.prefix_refl _)
          ((holds.seen _ (TreePath.split_ne_nil path) outside).trans unseen)
          fun outer inside some => ?_
        rw [names] at inside
        exact directories outer (TreePath.isInside_concat_iff.1 inside) some
  | ok entry =>
      obtain ⟨⟨directory, reached⟩, fitting, -, found⟩ := of_removal_ok verdict
      obtain ⟨-, short, -⟩ := of_reach_ok reached
      refine ⟨fun missing => (by cases missing), fun next done => ?_⟩
      cases done
      refine ⟨rfl, ?_, entry, whole ▸ found⟩
      rw [names]
      exact List.forall_mem_append.2 ⟨short, List.forall_mem_singleton.2 fitting⟩

/-! ## Writing -/

section Made

variable {path : Bytes} {lead : TreePath} {name : Name} {made : Disk}

/-- Where the directories above a path could be made, no file was in their way; they are there
then, and what is seen at the path is the same. -/
theorem Holds.of_makeDirectories (holds : Holds disk top tree) (straight : tree.Straight lead)
    (names : TreePath.split path = lead ++ [name])
    (valid : (TreePath.split path).isValid = true) {place : TreePath}
    (entered : makeDirectories disk (Route.within top path).parent = (.ok place, made)) :
    (∀ n ∈ lead, n.length ≤ maxName) ∧
      (∀ way entry, way <+: lead → look disk (top ++ way) ≠ some (.entry entry)) ∧
      (∀ way, way <+: lead → look made (top ++ way) = some .directory) ∧
      look made (top ++ TreePath.split path) = tree.view (TreePath.split path) := by
  have steps := TreePath.isPlain_of_isValid valid
  have outside := TreePath.head?_ne_gitDirectory valid
  have before : lead <+: TreePath.split path := names ▸ List.prefix_append _ _
  have inner : ∀ n ∈ lead, TreePath.IsPlain n := fun n member => steps n (before.subset member)
  have parent : (Route.within top path).parent.fault? = none := by
    cases fault : (Route.within top path).parent.fault? with
    | none => rfl
    | some error =>
        unfold makeDirectories at entered
        rw [fault] at entered
        cases entered
  rw [makeDirectories_parent disk names steps parent] at entered
  obtain ⟨short, opened⟩ := of_enterAll_ok holds.stands inner
    (holds.linkFree straight before outside) entered
  obtain ⟨next, again, directories, frame⟩ := enterAll_open holds.stands inner short opened
  rw [entered] at again
  obtain rfl : made = next := congrArg Prod.snd again
  refine ⟨short, opened, directories, ?_⟩
  rw [frame, holds.seen _ (TreePath.split_ne_nil path) outside]
  intro way start same
  rw [List.append_cancel_left same] at names
  exact TreePath.not_prefix_of_longer (List.prefix_refl _) (names ▸ start)

/-- Where a file was found, with directories above it, its name is not too long and it is no
directory. -/
theorem of_fileAt (names : TreePath.split path = lead ++ [name])
    (valid : (TreePath.split path).isValid = true)
    (short : ∀ n ∈ lead, n.length ≤ maxName)
    (directories : ∀ way, way <+: lead → look made (top ++ way) = some .directory)
    {file : TreePath} (found : fileAt made (.within top path) = .ok file) :
    Fits top path ∧ look made (top ++ TreePath.split path) ≠ some .directory := by
  have steps := TreePath.isPlain_of_isValid valid
  obtain ⟨accepted, own, stands, -, -, followed, noDirectory⟩ := fileAt_eq_ok_iff.1 found
  have site_ : site made top (lead ++ [name]) = .ok own := names ▸ stands
  have reached : reach made top lead = .ok (top ++ lead) :=
    reach_ok short fun way start _ => directories way start
  have free : LinkFree made top lead := by
    intro way target start
    rw [directories way start]
    simp
  rw [site_plain (by simpa using directories [] List.nil_prefix) (names ▸ steps) free,
    reached] at site_
  dsimp only at site_
  by_cases long : maxName < name.length
  · rw [if_pos long] at site_
    cases site_
  rw [if_neg long] at site_
  cases site_
  refine ⟨⟨accepted, ?_⟩, fun seen => ?_⟩
  · rw [names]
    exact List.forall_mem_append.2 ⟨short, List.forall_mem_singleton.2 (Nat.not_lt.1 long)⟩
  · rw [names, ← List.append_assoc] at seen
    have there : follow made (top ++ lead) [name] = .ok (top ++ lead ++ [name]) :=
      follow_name (directories lead (List.prefix_refl _)) (steps name (names ▸ by simp)) long
        (by rw [seen]; simp)
    obtain rfl : top ++ lead ++ [name] = file := Except.ok.inj (there.symm.trans followed)
    obtain ⟨entries, stands⟩ := look_eq_directory.1 seen
    rw [stands] at noDirectory
    cases noDirectory

/-- Where a file was written, its path is one that the system takes, and it is apart from the
files of the snapshot. -/
theorem Holds.of_write (holds : Holds disk top tree) (proper : tree.Proper)
    (straight : tree.Straight (TreePath.split path))
    (valid : (TreePath.split path).isValid = true) {place : TreePath} {written : Disk}
    {content : Bytes}
    (entered : makeDirectories disk (Route.within top path).parent = (.ok place, made))
    (filled : made.write (.within top path) content = .ok written) :
    Fits top path ∧ ∀ other entry, tree.get? other = some entry →
      TreePath.Apart (TreePath.split path) other := by
  obtain ⟨lead, name, names⟩ := TreePath.exists_concat (TreePath.split_ne_nil path)
  obtain ⟨short, opened, directories, there⟩ := holds.of_makeDirectories
    (straight.outer (names ▸ List.prefix_append _ _)) names valid entered
  obtain ⟨file, found, -⟩ := write_eq_ok_iff.1 filled
  obtain ⟨fits, noDirectory⟩ := of_fileAt names valid short directories found
  refine ⟨fits, fun other entry found => ⟨?_, ?_⟩⟩
  · refine Bool.eq_false_iff.2 fun inside => noDirectory ?_
    have absent : tree.get? (TreePath.split path) = none :=
      Option.eq_none_iff_forall_ne_some.2 fun own stands =>
        Bool.false_ne_true ((proper.apart _ _ _ _ stands found).1.symm.trans inside)
    rw [there, Snapshot.view, absent, Snapshot.isDirectory_iff.2 ⟨other, entry, found, inside⟩]
    rfl
  · refine Bool.eq_false_iff.2 fun inside => ?_
    rw [names] at inside
    exact opened other entry (TreePath.isInside_concat_iff.1 inside)
      (holds.seen_entry proper found)

end Made

end Twin

end TokenBlame.Disk
